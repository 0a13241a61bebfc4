import DimEquiv.NameRequest
import DimEquiv.Proofs.FreshNames

/-!
# Fresh names never repeat

All stems share one counter, and the number of a name can be read off it. The numbers of the names that
are handed out one after the other increase, so no name is handed out twice, whatever the stems are and
whatever types are entered in between.
-/

namespace DimEquiv.NameRequest

open FreshName

theorem nextName_le_serve (r : NameRequest) (s : State) : s.nextName ≤ (r.serve s).nextName := by
  cases r with
  | enter x type => exact Nat.le_refl _
  | fresh stem => exact Nat.le_succ_of_le (le_firstFree ..)

/-- The counter passes the number of every name that is handed out. -/
theorem numberOf_given? {r : NameRequest} {s : State} {x : Var} (h : r.given? s = some x) :
    s.nextName ≤ numberOf x ∧ numberOf x < (r.serve s).nextName := by
  cases r with
  | enter y type => cases h
  | fresh stem =>
    cases h
    rw [State.fresh, numberOf_numbered]
    exact ⟨le_firstFree .., Nat.lt_succ_self _⟩

/-- No name with a number below the counter is handed out. -/
theorem nextName_le_numberOf {rs : List NameRequest} {s : State} {x : Var} (h : x ∈ given rs s) :
    s.nextName ≤ numberOf x := by
  induction rs generalizing s with
  | nil => cases h
  | cons r rs ih =>
    rw [given, List.mem_append, Option.mem_toList] at h
    rcases h with hnow | hlater
    · exact (numberOf_given? hnow).1
    · exact Nat.le_trans (r.nextName_le_serve s) (ih hlater)

/-- The numbers of the names that are handed out increase. -/
theorem pairwise_numberOf_lt (rs : List NameRequest) (s : State) :
    (given rs s).Pairwise fun x y => numberOf x < numberOf y := by
  induction rs generalizing s with
  | nil => exact .nil
  | cons r rs ih =>
    rw [given, List.pairwise_append]
    refine ⟨?_, ih (r.serve s), ?_⟩
    · cases r.given? s with
      | none => exact .nil
      | some x => exact List.pairwise_singleton _ x
    · intro x hx y hy
      exact Nat.lt_of_lt_of_le (numberOf_given? (Option.mem_toList.mp hx)).2
        (nextName_le_numberOf hy)

/-- Whatever names were handed out and whatever types were entered before, a call for a fresh name ends.
The search without a bound on the tries stops in one way only, at the first number from the counter on
whose name has no type at that moment, after at most one try more than there are types. The name is made
of that number, and the counter is set behind it. No name is ever handed out twice. -/
theorem fresh_least_and_distinct (s : State) :
    (∀ rs stem, let t := serveAll rs s
      ∃ n, IsLeast {k | t.nextName ≤ k ∧ t.types.contains (numbered stem k) = false} n ∧
        n ≤ t.nextName + t.types.size ∧
        (∀ x next, Search t.types stem t.nextName x next ↔ x = numbered stem n ∧ next = n + 1) ∧
        t.fresh stem = (numbered stem n, { t with nextName := n + 1 }) ∧
        given (rs ++ [fresh stem]) s = given rs s ++ [numbered stem n]) ∧
      ∀ rs, (given rs s).Nodup := by
  constructor
  · intro rs stem t
    refine ⟨number t.types stem t.nextName, isLeast_number .., firstFree_le .., ?_, rfl, ?_⟩
    · intro x next
      exact search_iff ..
    · rw [given_append]
      rfl
  · intro rs
    refine (pairwise_numberOf_lt rs s).imp ?_
    rintro x _ hlt rfl
    exact Nat.lt_irrefl _ hlt

/-- A stem may look like a name with another stem. -/
example : given [.fresh "a", .fresh "a.2", .enter "a.3" .int64, .fresh "a", .fresh "a.4"]
    (.initial .empty default) = ["a.1", "a.2.2", "a.4", "a.4.5"] := by
  decide

end DimEquiv.NameRequest
