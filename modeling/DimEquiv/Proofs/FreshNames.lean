import DimEquiv.State
import Mathlib.Data.List.DropRight
import Mathlib.Data.List.Nodup
import Mathlib.Data.List.Perm.Subperm
import Mathlib.Order.Bounds.Basic

/-!
# Fresh names are free

The search passes over taken names only, and different numbers make different names, since the number
can be read off a name. A type environment has no more names than it has entries, so within that many
tries a name is free, and a search without a bound on the tries ends there.
-/

namespace DimEquiv.FreshName

/-- The number behind the last point of a name. -/
def numberOf (x : Var) : Nat := Nat.ofDigitChars 10 (x.toList.rtakeWhile (· ≠ '.')) 0

/-- The number of a fresh name is its last part, whatever points and digits the stem ends in. -/
theorem numberOf_numbered (stem : String) (n : Nat) : numberOf (numbered stem n) = n := by
  have hdigits : ∀ c ∈ Nat.toDigits 10 n, c ≠ '.' := by
    rintro c hc rfl
    exact absurd (Nat.isDigit_of_mem_toDigits (by decide) (by decide) hc) (by decide)
  have hchars : (numbered stem n).toList = stem.toList ++ '.' :: Nat.toDigits 10 n := by
    simp [numbered]
  have hbehind : (numbered stem n).toList.rtakeWhile (· ≠ '.') = Nat.toDigits 10 n := by
    rw [hchars, List.rtakeWhile, List.reverse_append, List.reverse_cons, List.append_assoc,
      List.takeWhile_append_of_pos (by simpa using hdigits), List.singleton_append,
      List.takeWhile_cons_of_neg (by simp), List.append_nil, List.reverse_reverse]
  rw [numberOf, hbehind, Nat.ofDigitChars_toDigits (by decide) (by decide)]

/-- Different numbers make different names. -/
theorem numbered_injective (stem : String) : Function.Injective (numbered stem) :=
  Function.LeftInverse.injective (numberOf_numbered stem)

/-- The search ends at a taken name only when all tries are used up. -/
theorem firstFree_eq_add_of_contains (types : Types) (stem : String) (tries n : Nat)
    (h : types.contains (numbered stem (firstFree types stem tries n)) = true) :
    firstFree types stem tries n = n + tries := by
  induction tries generalizing n with
  | zero => rfl
  | succ tries ih =>
    simp only [firstFree] at h ⊢
    split at h
    · rename_i htaken
      rw [if_pos htaken, ih (n + 1) h]
      omega
    · rename_i hfree
      exact absurd h hfree

theorem size_eq_length_keys (types : Types) : types.size = types.keys.length := by
  simp [Table.size, Table.keys]

/-- The name that a search finds is free. -/
theorem contains_numbered_number (types : Types) (stem : String) (n : Nat) :
    types.contains (numbered stem (number types stem n)) = false := by
  by_contra h
  rw [Bool.not_eq_false] at h
  have hend := firstFree_eq_add_of_contains types stem types.size n h
  have htaken : ∀ k, n ≤ k → k < n + types.size + 1 → numbered stem k ∈ types.keys := by
    intro k hn hk
    rw [← Table.contains_iff_mem_keys]
    rcases Nat.lt_succ_iff_lt_or_eq.mp hk with hk | rfl
    · exact contains_of_lt_firstFree types stem types.size n hn (by omega)
    · rw [← hend]
      exact h
  have hnodup : ((List.range' n (types.size + 1)).map (numbered stem)).Nodup :=
    List.Nodup.map (numbered_injective stem) List.nodup_range'
  have hsub : (List.range' n (types.size + 1)).map (numbered stem) ⊆ types.keys := by
    intro x hx
    obtain ⟨k, hk, rfl⟩ := List.mem_map.mp hx
    rw [List.mem_range'_1] at hk
    exact htaken k hk.1 (by omega)
  have hle := (hnodup.subperm hsub).length_le
  rw [List.length_map, List.length_range', ← size_eq_length_keys] at hle
  omega

/-- The number of a fresh name is the first free one from the counter on. -/
theorem isLeast_number (types : Types) (stem : String) (n : Nat) :
    IsLeast {k | n ≤ k ∧ types.contains (numbered stem k) = false} (number types stem n) := by
  refine ⟨⟨le_firstFree .., contains_numbered_number types stem n⟩, ?_⟩
  rintro k ⟨hn, hfree⟩
  by_contra hlt
  rw [contains_of_lt_firstFree types stem _ n hn (Nat.lt_of_not_le hlt)] at hfree
  cases hfree

theorem firstFree_le (types : Types) (stem : String) (tries n : Nat) :
    firstFree types stem tries n ≤ n + tries := by
  induction tries generalizing n with
  | zero => exact Nat.le_refl n
  | succ tries ih =>
    simp only [firstFree]
    split
    · have hrest := ih (n + 1)
      omega
    · omega

namespace Search

variable {types : Types} {stem : String}

/-- A search can only end at the first free number. -/
theorem exists_isLeast {n next : Nat} {x : Var} (h : Search types stem n x next) :
    ∃ m, IsLeast {k | n ≤ k ∧ types.contains (numbered stem k) = false} m ∧
      x = numbered stem m ∧ next = m + 1 := by
  induction h with
  | free hfree => exact ⟨_, ⟨⟨Nat.le_refl _, hfree⟩, fun _ hk => hk.1⟩, rfl, rfl⟩
  | @taken n next x htaken _ ih =>
    obtain ⟨m, ⟨⟨hle, hfree⟩, hleast⟩, hx, hnext⟩ := ih
    refine ⟨m, ⟨⟨Nat.le_of_succ_le hle, hfree⟩, ?_⟩, hx, hnext⟩
    rintro k ⟨hk, hkfree⟩
    rcases Nat.eq_or_lt_of_le hk with rfl | hlt
    · rw [htaken] at hkfree
      cases hkfree
    · exact hleast ⟨hlt, hkfree⟩

/-- Past taken names a search comes to a free one. -/
theorem of_free {n m : Nat} (hle : n ≤ m)
    (htaken : ∀ k, n ≤ k → k < m → types.contains (numbered stem k) = true)
    (hfree : types.contains (numbered stem m) = false) :
    Search types stem n (numbered stem m) (m + 1) := by
  rcases Nat.eq_or_lt_of_le hle with rfl | hlt
  · exact .free hfree
  · have hrest := of_free (n := n + 1) hlt (fun k hk => htaken k (Nat.le_of_succ_le hk)) hfree
    exact .taken (htaken n (Nat.le_refl n) hlt) hrest
termination_by m - n

end Search

/-- A search without a bound on the tries ends, and it ends where the bounded one does. -/
theorem search_iff (types : Types) (stem : String) (n : Nat) (x : Var) (next : Nat) :
    Search types stem n x next ↔
      x = numbered stem (number types stem n) ∧ next = number types stem n + 1 := by
  constructor
  · intro h
    obtain ⟨m, hm, hx, hnext⟩ := h.exists_isLeast
    rw [(isLeast_number types stem n).unique hm]
    exact ⟨hx, hnext⟩
  · rintro ⟨rfl, rfl⟩
    exact .of_free (le_firstFree ..) (fun k => contains_of_lt_firstFree types stem types.size n)
      (contains_numbered_number types stem n)

end DimEquiv.FreshName

namespace DimEquiv.State

/-- The number of dimensions that the types give a variable, if it is an array. -/
def rank? (s : State) (x : Var) : Option Nat := (s.types.find? x).bind StaticType.rank?

/-- A declared variable is new. -/
theorem find?_declare_of_fresh (stem : String) (type : StaticType) (s : State) :
    s.types.find? (s.declare stem type).1 = none := by
  have h := FreshName.contains_numbered_number s.types stem s.nextName
  rw [Table.contains, Option.isSome_eq_false_iff, Option.isNone_iff_eq_none] at h
  exact h

theorem find?_types_declare (stem : String) (type : StaticType) (s : State) (x : Var) :
    (s.declare stem type).2.types.find? x =
      if (s.declare stem type).1 = x then some type else s.types.find? x :=
  Table.find?_insert _ _ _ _

/-- Types only grow. -/
theorem find?_types_declare_of_some (stem : String) (type : StaticType) (s : State) {x : Var}
    {known : StaticType} (h : s.types.find? x = some known) :
    (s.declare stem type).2.types.find? x = some known := by
  rw [find?_types_declare, if_neg, h]
  rintro rfl
  rw [find?_declare_of_fresh] at h
  cases h

end DimEquiv.State
