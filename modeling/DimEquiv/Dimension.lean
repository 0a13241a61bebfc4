import DimEquiv.Inference

/-!
# Requests to merge dimensions

A request names two dimensions of recorded arrays. It is about the classes that they have when it is
served, which need not be those that they had when it was made.
-/

namespace DimEquiv

/-- A dimension of an array, counted from the outermost. -/
structure Dimension where
  array : Var
  index : Nat
  deriving DecidableEq

/-- A request to make one class of the classes of two dimensions. -/
structure MergeRequest where
  first : Dimension
  second : Dimension
  deriving DecidableEq

namespace Store

/-- The class recorded for a dimension, if there is such a dimension. -/
def classAt? (s : Store) (d : Dimension) : Option Int :=
  (s.shapes.find? d.array).bind fun shape => shape[d.index]?

def classAt (s : Store) (d : Dimension) : Except ShapeError Int :=
  match s.classAt? d with
  | some c => .ok c
  | none => .error (.unknownVariable d.array)

theorem classAt_of_some {s : Store} {d : Dimension} {c : Int} (h : s.classAt? d = some c) :
    s.classAt d = .ok c := by
  rw [classAt, h]

end Store

namespace MergeRequest

/-- Merges the classes that the two dimensions have at the moment. -/
def serve (r : MergeRequest) : Infer Int := do
  let c ← Attempt.ofReader fun s => s.classAt r.first
  let d ← Attempt.ofReader fun s => s.classAt r.second
  Attempt.ofExcept fun s => s.merge c d

/-- Serves requests in order, and answers those that were granted. A refused one is passed over. -/
def serveAll : List MergeRequest → Store → List MergeRequest × Store
  | [], s => ([], s)
  | r :: rs, s =>
    match r.serve.run s with
    | (.ok _, s') => (r :: (serveAll rs s').1, (serveAll rs s').2)
    | (.error _, s') => serveAll rs s'

theorem serveAll_append (rs rs' : List MergeRequest) (s : Store) :
    serveAll (rs ++ rs') s =
      ((serveAll rs s).1 ++ (serveAll rs' (serveAll rs s).2).1,
        (serveAll rs' (serveAll rs s).2).2) := by
  induction rs generalizing s with
  | nil => rfl
  | cons r rs ih =>
    simp only [List.cons_append, serveAll]
    split <;> simp [ih]

/-- The three ways in which a request between existing dimensions ends. -/
theorem run_serve {r : MergeRequest} {s : Store} {c d : Int} (hc : s.classAt? r.first = some c)
    (hd : s.classAt? r.second = some d) :
    (c = d ∧ r.serve.run s = (.ok c, s)) ∨
      (c ≠ d ∧ c ≠ Shape.noClass ∧ d ≠ Shape.noClass ∧
        r.serve.run s = (.ok s.nextClass, (s.unite c d).2)) ∨
      (c ≠ d ∧ (c = Shape.noClass ∨ d = Shape.noClass) ∧
        r.serve.run s = (.error (.invalidMerge (if c = Shape.noClass then d else c)), s)) := by
  have hrun : r.serve.run s = (Attempt.ofExcept fun s => s.merge c d).run s := by
    simp only [serve, Attempt.run_bind, Attempt.run_ofReader, Store.classAt_of_some hc,
      Store.classAt_of_some hd]
  rw [hrun, Attempt.run_ofExcept]
  by_cases heq : c = d
  · refine .inl ⟨heq, ?_⟩
    rw [Store.merge, if_neg (fun h => h.1 heq), heq, Store.equate_self]
  by_cases hunknown : c = Shape.noClass ∨ d = Shape.noClass
  · refine .inr (.inr ⟨heq, hunknown, ?_⟩)
    rw [Store.merge, if_pos ⟨heq, hunknown⟩]
  · refine .inr (.inl ⟨heq, fun h => hunknown (.inl h), fun h => hunknown (.inr h), ?_⟩)
    rw [Store.merge, if_neg (fun h => hunknown h.2), Store.equate_of_ne s heq]
    rfl

end MergeRequest

end DimEquiv
