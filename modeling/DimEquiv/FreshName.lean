import DimEquiv.StaticType

/-!
# Fresh names

A fresh name is a stem with a number behind a point. The numbers come from one counter, and a number
is passed over while the name that it makes is taken. As many tries as there are taken names are
enough, because different numbers make different names.
-/

namespace DimEquiv.FreshName

def numbered (stem : String) (n : Nat) : String := stem ++ "." ++ toString n

/-- The first number from `n` on whose name is free; after so many tries the next number is taken
without a look. -/
def firstFree (types : Types) (stem : String) : Nat → Nat → Nat
  | 0, n => n
  | tries + 1, n =>
    if types.contains (numbered stem n) then firstFree types stem tries (n + 1) else n

/-- The number of the fresh name, when the counter stands at `n`. -/
def number (types : Types) (stem : String) (n : Nat) : Nat :=
  firstFree types stem types.size n

/-- The same search without a bound on the tries: the counter moves on with every try, and the first
free name ends the search. Here it starts with the counter at `n`, ends with the name `x` and leaves
the counter at `next`. -/
inductive Search (types : Types) (stem : String) : Nat → Var → Nat → Prop
  | free {n : Nat} (hfree : types.contains (numbered stem n) = false) :
    Search types stem n (numbered stem n) (n + 1)
  | taken {n next : Nat} {x : Var} (htaken : types.contains (numbered stem n) = true)
    (hrest : Search types stem (n + 1) x next) : Search types stem n x next

theorem le_firstFree (types : Types) (stem : String) (tries n : Nat) :
    n ≤ firstFree types stem tries n := by
  induction tries generalizing n with
  | zero => exact Nat.le_refl n
  | succ tries ih =>
    simp only [firstFree]
    split
    · exact Nat.le_of_succ_le (ih (n + 1))
    · exact Nat.le_refl n

/-- Every number that was passed over makes a taken name. -/
theorem contains_of_lt_firstFree (types : Types) (stem : String) (tries n : Nat) {k : Nat}
    (hn : n ≤ k) (hk : k < firstFree types stem tries n) :
    types.contains (numbered stem k) = true := by
  induction tries generalizing n with
  | zero => exact absurd hk (Nat.not_lt.mpr hn)
  | succ tries ih =>
    simp only [firstFree] at hk
    split at hk
    · rename_i htaken
      rcases Nat.eq_or_lt_of_le hn with rfl | hlt
      · exact htaken
      · exact ih (n + 1) hlt hk
    · exact absurd hk (Nat.not_lt.mpr hn)

end DimEquiv.FreshName
