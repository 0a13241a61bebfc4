import DimEquiv.Proofs.RunSteps

/-!
# The reads that a program contains

A scan lists for each dimension the first assignment that reads it off a shape tuple. Which array a
tuple belongs to is told by the last assignment of that tuple.
-/

namespace DimEquiv

namespace Assign

/-- The array whose shape tuple is assigned to `x`. -/
def shapeTuple? (x : Var) (a : Assign) : Option Var :=
  match a.value with
  | .getattr array attr => if attr = Operators.shapeAttr ∧ a.target = x then some array else none
  | _ => none

/-- The target of an assignment that reads the given dimension, if `tuples` tells the array of each
shape tuple. -/
def read? (tuples : Table Var Var) (array : Var) (dim : Int) (a : Assign) : Option Var :=
  match a.value with
  | .staticGetitem x index _ =>
    if tuples.find? x = some array ∧ index = dim then some a.target else none
  | _ => none

theorem read?_eq_some_iff {tuples : Table Var Var} {array : Var} {dim : Int} {a : Assign}
    {size : Var} : a.read? tuples array dim = some size ↔
      (∃ tuple indexVar, a.value = .staticGetitem tuple dim indexVar ∧
        tuples.find? tuple = some array) ∧ a.target = size := by
  unfold read?
  constructor
  · intro h
    split at h
    · rename_i x index indexVar hvalue
      split at h
      · rename_i hx
        cases h
        exact ⟨⟨x, indexVar, by rw [hvalue, hx.2], hx.1⟩, rfl⟩
      · cases h
    · cases h
  · rintro ⟨⟨tuple, indexVar, hvalue, htuple⟩, rfl⟩
    rw [hvalue]
    exact if_pos ⟨htuple, rfl⟩

theorem shapeTuple?_eq_some_iff {x array : Var} {a : Assign} : a.shapeTuple? x = some array ↔
    a.value = .getattr array Operators.shapeAttr ∧ a.target = x := by
  unfold shapeTuple?
  constructor
  · intro h
    split at h
    · rename_i y attr hvalue
      split at h
      · rename_i hx
        cases h
        exact ⟨by rw [hvalue, hx.1], hx.2⟩
      · cases h
    · cases h
  · rintro ⟨hvalue, rfl⟩
    rw [hvalue]
    exact if_pos ⟨rfl, rfl⟩

end Assign

namespace Symbols

theorem find?_foldl_shapeTuples (as : List Assign) (t : Table Var Var) (x : Var) :
    (as.foldl
      (fun t a =>
        match a.value with
        | .getattr x attr => if attr = Operators.shapeAttr then t.insert a.target x else t
        | _ => t) t).find? x = (as.reverse.findSome? (Assign.shapeTuple? x)).or (t.find? x) := by
  induction as generalizing t with
  | nil => rfl
  | cons a as ih =>
    have hone : (match a.value with
        | .getattr y attr => if attr = Operators.shapeAttr then t.insert a.target y else t
        | _ => t).find? x = (a.shapeTuple? x).or (t.find? x) := by
      unfold Assign.shapeTuple?
      split
      · rename_i y attr _
        by_cases hattr : attr = Operators.shapeAttr
        · by_cases hx : a.target = x
          · simp [hattr, hx]
          · simp [hattr, hx]
        · simp [hattr]
      · rfl
    rw [List.foldl_cons, ih, hone, List.reverse_cons, List.findSome?_append, List.findSome?_singleton,
      Option.or_assoc]

/-- A shape tuple belongs to the array of its last assignment. -/
theorem find?_shapeTuples (as : List Assign) (x : Var) :
    (shapeTuples as).find? x = as.reverse.findSome? (Assign.shapeTuple? x) :=
  (find?_foldl_shapeTuples as .empty x).trans Option.or_none

theorem find?_shapeTuples_append (as bs : List Assign) (x : Var) :
    (shapeTuples (as ++ bs)).find? x =
      ((shapeTuples bs).find? x).or ((shapeTuples as).find? x) := by
  simp only [find?_shapeTuples, List.reverse_append, List.findSome?_append]

theorem find?_shapeTuples_of_notMem {as : List Assign} {x : Var}
    (h : ∀ a ∈ as, a.target ≠ x) : (shapeTuples as).find? x = none := by
  rw [find?_shapeTuples, List.findSome?_eq_none_iff]
  intro a ha
  rw [Option.eq_none_iff_forall_ne_some]
  intro array hx
  exact h a (List.mem_reverse.mp ha) (Assign.shapeTuple?_eq_some_iff.mp hx).2

/-- A tuple that is assigned once belongs to the array of that assignment. -/
theorem find?_shapeTuples_of_unique {as : List Assign} {b : Assign} {array : Var} (hb : b ∈ as)
    (hvalue : b.value = .getattr array Operators.shapeAttr)
    (h : ∀ a ∈ as, a.target = b.target → a = b) :
    (shapeTuples as).find? b.target = some array := by
  have hone : b.shapeTuple? b.target = some array :=
    Assign.shapeTuple?_eq_some_iff.mpr ⟨hvalue, rfl⟩
  rw [find?_shapeTuples]
  cases hx : as.reverse.findSome? (Assign.shapeTuple? b.target) with
  | none =>
    rw [List.findSome?_eq_none_iff] at hx
    rw [hx b (List.mem_reverse.mpr hb)] at hone
    cases hone
  | some other =>
    obtain ⟨a, ha, hother⟩ := List.exists_of_findSome?_eq_some hx
    rw [h a (List.mem_reverse.mp ha) (Assign.shapeTuple?_eq_some_iff.mp hother).2, hone] at hother
    exact hother.symm

theorem fetch?_foldl_scan (tuples : Table Var Var) (as : List Assign) (t : Symbols) (array : Var)
    (dim : Int) :
    (as.foldl
      (fun t a =>
        match a.value with
        | .staticGetitem x index _ =>
          match tuples.find? x with
          | some array => t.addFetch array index a.target
          | none => t
        | _ => t) t).fetch? array dim =
      (t.fetch? array dim).or (as.findSome? (Assign.read? tuples array dim)) := by
  induction as generalizing t with
  | nil => simp
  | cons a as ih =>
    have hone : (match a.value with
        | .staticGetitem x index _ =>
          match tuples.find? x with
          | some array => t.addFetch array index a.target
          | none => t
        | _ => t).fetch? array dim = (t.fetch? array dim).or (a.read? tuples array dim) := by
      unfold Assign.read?
      split
      · rename_i x index _ _
        cases hx : tuples.find? x with
        | none => simp
        | some other =>
          rw [fetch?_addFetch]
          by_cases hsame : other = array ∧ index = dim
          · obtain ⟨rfl, rfl⟩ := hsame
            cases t.fetch? other index <;> simp
          · simp [hsame]
      · simp
    rw [List.foldl_cons, ih, hone, List.findSome?_cons, Option.or_assoc]
    cases a.read? tuples array dim <;> rfl

/-- What is known to hold a dimension is what the first read of it in the program assigns. -/
theorem fetch?_scan_empty (p : Program) (array : Var) (dim : Int) :
    (empty.scan p).fetch? array dim =
      p.assigns.findSome? (Assign.read? (shapeTuples p.assigns) array dim) :=
  (fetch?_foldl_scan (shapeTuples p.assigns) p.assigns empty array dim).trans Option.none_or

/-- A scan lists reads and does nothing else. -/
theorem scan_eq (t : Symbols) (p : Program) :
    t.scan p = { t with fetches := (t.scan p).fetches } := by
  unfold scan
  generalize shapeTuples p.assigns = tuples
  induction p.assigns generalizing t with
  | nil => rfl
  | cons a as ih =>
    rw [List.foldl_cons, ih]
    split
    · split <;> rfl
    · rfl

end Symbols

end DimEquiv
