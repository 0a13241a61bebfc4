import DimEquiv.NameSet
import Mathlib.Data.List.Induction
import Mathlib.Data.Set.Function

/-!
# Elements in the order of their first appearance

A list without its repetitions keeps the first of equal elements. It grows at its end as the list does, by
those elements that are new.
-/

namespace DimEquiv

section

variable {α β : Type} [BEq α] [LawfulBEq α] [BEq β] [LawfulBEq β]

theorem eraseDups_concat (xs : List α) (x : α) [Decidable (x ∈ xs)] :
    (xs ++ [x]).eraseDups = if x ∈ xs then xs.eraseDups else xs.eraseDups ++ [x] := by
  rw [List.eraseDups_append]
  split <;> rename_i hx <;> simp [List.removeAll, hx, List.eraseDups_cons]

/-- Of two elements that a filter keeps, the same one stands in front. -/
theorem idxOf_filter_lt_iff {p : α → Bool} {x y : α} (hx : p x = true) (hy : p y = true)
    (xs : List α) : (xs.filter p).idxOf x < (xs.filter p).idxOf y ↔ xs.idxOf x < xs.idxOf y := by
  induction xs with
  | nil => rfl
  | cons z xs ih =>
    by_cases hz : p z = true
    · rw [List.filter_cons_of_pos hz, List.idxOf_cons, List.idxOf_cons, List.idxOf_cons,
        List.idxOf_cons]
      cases z == x <;> cases z == y <;> simp [ih]
    · have hne : ∀ {w}, p w = true → (z == w) = false := fun hw =>
        beq_false_of_ne fun hzw => hz (hzw ▸ hw)
      rw [List.filter_cons_of_neg hz, ih, List.idxOf_cons, List.idxOf_cons, hne hx, hne hy]
      simp

/-- Elements that are kept once stand in the order of their first appearance. -/
theorem idxOf_eraseDups_lt_iff (xs : List α) (x y : α) :
    xs.eraseDups.idxOf x < xs.eraseDups.idxOf y ↔ xs.idxOf x < xs.idxOf y := by
  match xs with
  | [] => rfl
  | z :: xs =>
    rw [List.eraseDups_cons, List.idxOf_cons, List.idxOf_cons, List.idxOf_cons, List.idxOf_cons]
    by_cases hx : z = x
    · subst hx
      cases z == y <;> simp
    by_cases hy : z = y
    · subst hy
      simp
    have hkeep : ∀ w, z ≠ w → (fun v => !(v == z)) w = true := fun w hw => by simp [Ne.symm hw]
    have htail := (idxOf_eraseDups_lt_iff (xs.filter fun v => !(v == z)) x y).trans
      (idxOf_filter_lt_iff (p := fun v => !(v == z)) (hkeep x hx) (hkeep y hy) xs)
    rw [beq_false_of_ne hx, beq_false_of_ne hy]
    simpa using htail
termination_by xs.length
decreasing_by exact Nat.lt_succ_of_le (List.length_filter_le _ _)

/-- A renaming of the elements keeps the order of first appearance. -/
theorem eraseDups_map_of_injOn {f : α → β} {xs : List α} (hf : Set.InjOn f {x | x ∈ xs}) :
    (xs.map f).eraseDups = xs.eraseDups.map f := by
  classical
  induction xs using List.reverseRecOn with
  | nil => rfl
  | append_singleton xs x ih =>
    have hbefore : Set.InjOn f {y | y ∈ xs} := hf.mono fun y hy => List.mem_append_left _ hy
    have hnew : f x ∈ xs.map f ↔ x ∈ xs := by
      refine ⟨fun hx => ?_, List.mem_map_of_mem⟩
      obtain ⟨y, hy, heq⟩ := List.mem_map.mp hx
      have hsame := hf (List.mem_append_left _ hy) (List.mem_append_right _ List.mem_cons_self) heq
      exact hsame ▸ hy
    rw [List.map_append, List.map_singleton, eraseDups_concat, eraseDups_concat, ih hbefore]
    simp only [hnew]
    split
    · rfl
    · rw [List.map_append, List.map_singleton]

end

/-- `names` holds every element of `xs` exactly once, in the order of first appearance. -/
structure FirstAppearances {α : Type} [BEq α] (xs names : List α) : Prop where
  nodup : names.Nodup
  mem_iff : ∀ x, x ∈ names ↔ x ∈ xs
  idxOf_lt_iff : ∀ x y, names.idxOf x < names.idxOf y ↔ xs.idxOf x < xs.idxOf y

theorem firstAppearances_eraseDups {α : Type} [BEq α] [LawfulBEq α] (xs : List α) :
    FirstAppearances xs xs.eraseDups where
  nodup := nodup_eraseDups xs
  mem_iff := fun _ => List.mem_eraseDups
  idxOf_lt_iff := idxOf_eraseDups_lt_iff xs

end DimEquiv
