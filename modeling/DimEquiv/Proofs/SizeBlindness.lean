import DimEquiv.Proofs.RuleReading

/-!
# Inference does not look at sizes

What inference answers, and which failure it ends with, depends on the recorded shapes and on the id
of the next class. The size values of classes and arrays are moved about with the classes and never
read.
-/

namespace DimEquiv

namespace Store

/-- The stores record the same shapes and hand out the same ids. Their size values may differ. -/
structure SameShapes (s t : Store) : Prop where
  shapes : t.shapes = s.shapes
  nextClass : t.nextClass = s.nextClass

namespace SameShapes

variable {s t : Store}

theorem refl (s : Store) : s.SameShapes s := ⟨rfl, rfl⟩

theorem lookup_eq (h : s.SameShapes t) : t.lookup = s.lookup := by
  funext x
  rw [lookup, lookup, h.shapes]

theorem has_eq (h : s.SameShapes t) : t.has = s.has := by
  funext x
  rw [has, has, h.shapes]

theorem addClasses (h : s.SameShapes t) (sizes : List (Option SizeValue)) :
    (Store.addClasses sizes t).1 = (Store.addClasses sizes s).1 ∧
      (Store.addClasses sizes s).2.SameShapes (Store.addClasses sizes t).2 := by
  induction sizes generalizing s t with
  | nil => exact ⟨rfl, h⟩
  | cons size sizes ih =>
    have hone : (s.addClass size).2.SameShapes (t.addClass size).2 := by
      refine ⟨?_, ?_⟩
      · rw [shapes_addClass, shapes_addClass, h.shapes]
      · rw [nextClass_addClass, nextClass_addClass, h.nextClass]
    obtain ⟨hshape, hstore⟩ := ih hone
    refine ⟨?_, hstore⟩
    simp only [Store.addClasses, fst_addClass, h.nextClass, hshape]

theorem unite (h : s.SameShapes t) (c d : Int) : (s.unite c d).2.SameShapes (t.unite c d).2 where
  shapes := by simp only [Store.unite, allocate, renameClasses, h.shapes, h.nextClass]
  nextClass := by rw [nextClass_unite, nextClass_unite, h.nextClass]

theorem equate (h : s.SameShapes t) (c d : Int) :
    (s.equate c d).2.SameShapes (t.equate c d).2 := by
  unfold Store.equate
  split
  · exact h
  · exact h.unite c d

theorem contract (h : s.SameShapes t) (c d : Int) :
    (if c = Shape.noClass ∨ d = Shape.noClass then s else (s.equate c d).2).SameShapes
      (if c = Shape.noClass ∨ d = Shape.noClass then t else (t.equate c d).2) := by
  split
  · exact h
  · exact h.equate c d

end SameShapes

end Store

namespace Broadcast

open Store

variable {b b' : Broadcast}

/-- The broadcasts have come equally far. -/
structure SameShapes (b b' : Broadcast) : Prop where
  store : b.store.SameShapes b'.store
  done : b'.done = b.done
  candidate : b'.candidate = b.candidate
  sawUnknown : b'.sawUnknown = b.sawUnknown

theorem SameShapes.take (h : b.SameShapes b') (c : Int) : (b.take c).SameShapes (b'.take c) := by
  unfold Broadcast.take
  rw [h.candidate]
  split
  · exact ⟨h.store, h.done, rfl, rfl⟩
  · split
    · exact h
    · split
      · exact ⟨h.store, h.done, rfl, h.sawUnknown⟩
      · refine ⟨h.store.unite _ _, ?_, h.store.nextClass, h.sawUnknown⟩
        simp only [fst_unite, h.done, h.store.nextClass]

theorem SameShapes.takeAll (h : b.SameShapes b') (isArray : Var → Bool) (rank i : Nat)
    (xs : List Var) :
    (xs.foldl (fun b x => b.take (operandClass isArray rank i b.store x)) b).SameShapes
      (xs.foldl (fun b x => b.take (operandClass isArray rank i b.store x)) b') := by
  induction xs generalizing b b' with
  | nil => exact h
  | cons x xs ih =>
    have hclass : operandClass isArray rank i b'.store x = operandClass isArray rank i b.store x := by
      simp only [operandClass, h.store.shapes]
    rw [List.foldl_cons, List.foldl_cons, hclass]
    exact ih (h.take _)

theorem SameShapes.dimension (h : b.SameShapes b') (isArray : Var → Bool) (operands : List Var)
    (rank i : Nat) :
    (b.dimension isArray operands rank i).SameShapes (b'.dimension isArray operands rank i) := by
  have hstart : SameShapes { b with candidate := Shape.sizeOne, sawUnknown := false }
      { b' with candidate := Shape.sizeOne, sawUnknown := false } := ⟨h.store, h.done, rfl, rfl⟩
  have hall := hstart.takeAll isArray rank i operands
  refine ⟨hall.store, ?_, hall.candidate, hall.sawUnknown⟩
  simp only [Broadcast.dimension, hall.done, hall.candidate, hall.sawUnknown]

theorem SameShapes.dimensions (h : b.SameShapes b') (isArray : Var → Bool) (operands : List Var)
    (rank : Nat) (is : List Nat) :
    (is.foldl (Broadcast.dimension isArray operands rank) b).SameShapes
      (is.foldl (Broadcast.dimension isArray operands rank) b') := by
  induction is generalizing b b' with
  | nil => exact h
  | cons i is ih => exact ih (h.dimension isArray operands rank i)

end Broadcast

namespace Infer

open Store

variable {α β : Type}

/-- The computation takes no notice of any size value. -/
def Blind (x : Infer α) : Prop :=
  ∀ s t : Store, s.SameShapes t →
    (x.run t).1 = (x.run s).1 ∧ (x.run s).2.SameShapes (x.run t).2

theorem Blind.bind {x : Infer α} {f : α → Infer β} (hx : Blind x) (hf : ∀ a, Blind (f a)) :
    Blind (x >>= f) := by
  intro s t h
  obtain ⟨hanswer, hstore⟩ := hx s t h
  rcases hs : x.run s with ⟨answer, s'⟩
  rcases ht : x.run t with ⟨answer', t'⟩
  rw [hs, ht] at hanswer hstore
  obtain rfl : answer' = answer := hanswer
  rw [Attempt.run_bind, Attempt.run_bind, hs, ht]
  cases answer' with
  | error e => exact ⟨rfl, hstore⟩
  | ok a => exact hf a s' t' hstore

theorem blind_pure (a : α) : Blind (pure a) := fun _ _ h => ⟨rfl, h⟩

theorem blind_fail (e : ShapeError) : Blind (.fail e : Infer α) := fun _ _ h => ⟨rfl, h⟩

theorem blind_ofReader {f : Store → Except ShapeError α}
    (hf : ∀ s t : Store, s.SameShapes t → f t = f s) : Blind (.ofReader f) :=
  fun s t h => ⟨hf s t h, h⟩

theorem blind_shapeOf (x : Var) : Blind (shapeOf x) :=
  blind_ofReader fun s t h => by rw [h.lookup_eq]

theorem blind_newClasses (sizes : List (Option SizeValue)) : Blind (newClasses sizes) := by
  intro s t h
  obtain ⟨hshape, hstore⟩ := h.addClasses sizes
  exact ⟨congrArg Except.ok hshape, hstore⟩

theorem blind_broadcast (isArray : Var → Bool) (operands : List Var) :
    Blind (.ofExcept (Store.broadcast isArray operands)) := by
  intro s t h
  rw [Attempt.run_ofExcept, Attempt.run_ofExcept, Store.broadcast, Store.broadcast]
  cases operands.filter isArray with
  | nil => exact ⟨rfl, h⟩
  | cons x xs =>
    simp only [h.lookup_eq]
    cases (x :: xs).mapM s.lookup with
    | error e => exact ⟨rfl, h⟩
    | ok shapes =>
      have hstart : (Broadcast.start s).SameShapes (.start t) := ⟨h, rfl, rfl, rfl⟩
      have hall := hstart.dimensions isArray operands (maxRank shapes)
        (List.range (maxRank shapes))
      exact ⟨congrArg Except.ok hall.done, hall.store⟩

theorem blind_matrixProduct (callName : String) (a b : Var) :
    Blind (.ofExcept (matrixProduct callName a b)) := by
  intro s t h
  rw [Attempt.run_ofExcept, Attempt.run_ofExcept, matrixProduct, matrixProduct, h.lookup_eq]
  cases s.lookup a with
  | error e => exact ⟨rfl, h⟩
  | ok shape₁ =>
    cases s.lookup b with
    | error e => exact ⟨rfl, h⟩
    | ok shape₂ =>
      simp only [bind, Except.bind]
      cases shape₁.getLast? with
      | none => exact ⟨rfl, h⟩
      | some c₁ =>
        cases shape₂[contractedIndex shape₂]? with
        | none => exact ⟨rfl, h⟩
        | some c₂ =>
          have hcontract := h.contract c₁ c₂
          simp only
          generalize (if c₁ = Shape.noClass ∨ c₂ = Shape.noClass then s
            else (s.equate c₁ c₂).2) = s' at hcontract ⊢
          generalize (if c₁ = Shape.noClass ∨ c₂ = Shape.noClass then t
            else (t.equate c₁ c₂).2) = t' at hcontract ⊢
          rw [hcontract.lookup_eq]
          cases s'.lookup a with
          | error e => exact ⟨rfl, h⟩
          | ok left =>
            cases s'.lookup b with
            | error e => exact ⟨rfl, h⟩
            | ok right => exact ⟨rfl, hcontract⟩

end Infer

open Infer

theorem ShapeRule.blind_apply (isArray : Var → Bool) (rule : ShapeRule) :
    Blind (rule.apply isArray) := by
  cases rule with
  | fail made e => exact (blind_newClasses made).bind fun _ => blind_fail e
  | parameter name rank =>
    refine (blind_ofReader fun s t h => by rw [h.has_eq]).bind fun known => ?_
    cases known with
    | true => exact blind_shapeOf name
    | false => exact blind_newClasses _
  | copy x => exact blind_shapeOf x
  | reverse x =>
    rw [apply, map_eq_pure_bind]
    exact (blind_shapeOf x).bind fun _ => blind_pure _
  | create sizes => exact blind_newClasses sizes
  | elementwise operands => exact blind_broadcast isArray operands
  | product callName a b => exact blind_matrixProduct callName a b

/-- Inference takes no notice of any size value. -/
theorem Scope.blind_infer (scope : Scope) (target : Var) (e : Expr) :
    Blind (scope.infer target e) := by
  rw [← scope.apply_ruleOf]
  exact ShapeRule.blind_apply _ _

end DimEquiv
