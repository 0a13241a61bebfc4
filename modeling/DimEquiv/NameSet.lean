/-!
# Sets of names in insertion order

A set of names remembers the order in which its members arrived; adding a member again changes
nothing.
-/

namespace DimEquiv

/-- Keeping the first of equal elements leaves no repetition. -/
theorem nodup_eraseDups {α : Type} [BEq α] [LawfulBEq α] (xs : List α) : xs.eraseDups.Nodup := by
  match xs with
  | [] => simp
  | x :: xs =>
    rw [List.eraseDups_cons, List.nodup_cons]
    exact ⟨by simp [List.mem_eraseDups], nodup_eraseDups _⟩
termination_by xs.length
decreasing_by
  exact Nat.lt_succ_of_le (List.length_filter_le _ xs)

/-- A list of names without repetition. -/
structure NameSet where
  toList : List String
  nodup : toList.Nodup
  deriving DecidableEq

namespace NameSet

def empty : NameSet := ⟨[], .nil⟩

instance : Inhabited NameSet := ⟨empty⟩

instance : Membership String NameSet := ⟨fun s x => x ∈ s.toList⟩

instance (x : String) (s : NameSet) : Decidable (x ∈ s) :=
  inferInstanceAs (Decidable (x ∈ s.toList))

/-- The names of a list, each where it first appears. -/
def ofList (names : List String) : NameSet := ⟨names.eraseDups, nodup_eraseDups names⟩

/-- Adds a name at the end, if it is new. -/
def insert (s : NameSet) (x : String) : NameSet :=
  if h : x ∈ s.toList then s
  else ⟨s.toList ++ [x], by
    rw [List.nodup_append]
    exact ⟨s.nodup, by simp, fun y hy z hz => by rintro rfl; exact h (by simp_all)⟩⟩

theorem mem_def {s : NameSet} {x : String} : x ∈ s ↔ x ∈ s.toList := Iff.rfl

@[simp] theorem notMem_empty (x : String) : x ∉ empty := List.not_mem_nil

@[simp] theorem mem_ofList {names : List String} {x : String} : x ∈ ofList names ↔ x ∈ names :=
  List.mem_eraseDups

@[simp] theorem mem_insert {s : NameSet} {x y : String} : y ∈ s.insert x ↔ y = x ∨ y ∈ s := by
  by_cases h : x ∈ s.toList <;> simp [insert, mem_def, h] <;> grind

end NameSet

end DimEquiv
