import DimEquiv.Analysis
import DimEquiv.Proofs.AdoptedReads
import DimEquiv.Role
import DimEquiv.ShapeRule
import Mathlib.Data.List.Induction

/-!
# The symbol tables and the latest assignment

The tables enter what an assignment tells of its target and never strike anything out. So they agree with
the latest assignments for as long as no assignment takes a kind of role from a variable, and from the
first such assignment on they tell of a role that the variable no longer plays.
-/

namespace DimEquiv

namespace Symbols

variable {isArray : Var → Bool} {as earlier : List Assign} {a : Assign} {t : Symbols} {x : Var}

@[simp] theorem holds_empty (x : Var) (role : Role) : ¬ empty.Holds x role := by
  cases role <;> simp [Holds, empty]

theorem observeAll_append_singleton (isArray : Var → Bool) (as : List Assign) (a : Assign) :
    observeAll isArray (as ++ [a]) = (observeAll isArray as).observe isArray a :=
  List.foldl_concat ..

/-- The tables tell of every variable the role that it plays, and nothing else. -/
def Follow (t : Symbols) (role? : Var → Option Role) : Prop :=
  ∀ x role, t.Holds x role ↔ role? x = some role

/-- What an assignment tells depends on the variables that hold the array module, which tables that follow
the assignments before it know. -/
theorem Follow.role?_eq (h : t.Follow (roleOf? isArray earlier)) (a : Assign) :
    a.value.role? (fun y => y ∈ t.arrayModules) isArray =
      roleOf? isArray (a :: earlier) a.target := by
  have hmodules : (fun y => decide (y ∈ t.arrayModules)) =
      fun y => decide (roleOf? isArray earlier y = some .arrayModule) := by
    funext y
    exact decide_eq_decide.mpr (h y .arrayModule)
  rw [roleOf?, if_pos rfl, hmodules]

/-- What the tables hold once one more assignment is observed. -/
theorem Follow.holds_observe (h : t.Follow (roleOf? isArray earlier)) (a : Assign) (x : Var)
    (role : Role) : (t.observe isArray a).Holds x role ↔
      if a.target = x ∧ (roleOf? isArray (a :: earlier) x).map Role.kind = some role.kind then
        roleOf? isArray (a :: earlier) x = some role
      else t.Holds x role := by
  rw [observe_eq, h.role?_eq]
  by_cases hx : a.target = x
  · subst hx
    cases roleOf? isArray (a :: earlier) a.target with
    | none => simp
    | some entered => simp [holds_enter]
  · cases roleOf? isArray (a :: earlier) a.target with
    | none => simp [hx]
    | some entered => simp [holds_enter, hx]

/-- One more assignment is followed exactly if it takes no kind of role from its target. -/
theorem Follow.observe_iff (h : t.Follow (roleOf? isArray earlier)) (a : Assign) :
    (t.observe isArray a).Follow (roleOf? isArray (a :: earlier)) ↔
      ∀ role ∈ roleOf? isArray earlier a.target,
        (roleOf? isArray (a :: earlier) a.target).map Role.kind = some role.kind := by
  constructor
  · intro hnext role hrole
    by_contra hkind
    -- The table for the former role was not touched, so it still holds that role.
    have hstale : (t.observe isArray a).Holds a.target role := by
      rw [h.holds_observe, if_neg fun hkept => hkind hkept.2]
      exact (h a.target role).mpr hrole
    rw [(hnext a.target role).mp hstale] at hkind
    exact hkind rfl
  · intro hkeeps x role
    rw [h.holds_observe]
    by_cases hx : a.target = x
    · subst hx
      split
      · exact Iff.rfl
      · rename_i hkind
        refine iff_of_false (fun hheld => hkind ⟨rfl, ?_⟩) fun hrole => hkind ⟨rfl, ?_⟩
        · exact hkeeps role ((h a.target role).mp hheld)
        · rw [hrole, Option.map_some]
    · rw [if_neg fun hkept => hx hkept.1, h x role, roleOf?, if_neg hx]

theorem follow_empty : empty.Follow (roleOf? isArray []) :=
  fun x role => iff_of_false (holds_empty x role) nofun

/-- The tables follow the assignments that take no kind of role from a variable. -/
theorem follow_observeAll (h : KeepsRoles isArray as.reverse) :
    (observeAll isArray as).Follow (roleOf? isArray as.reverse) := by
  induction as using List.reverseRecOn with
  | nil => exact follow_empty
  | append_singleton as a ih =>
    rw [List.reverse_append] at h ⊢
    rw [observeAll_append_singleton]
    exact ((ih h.1).observe_iff a).mpr h.2

/-- The tables follow the assignments at every point exactly if no assignment takes a kind of role from a
variable. -/
theorem keepsRoles_iff_follow : KeepsRoles isArray as.reverse ↔
    ∀ before after, as = before ++ after →
      (observeAll isArray before).Follow (roleOf? isArray before.reverse) := by
  induction as using List.reverseRecOn with
  | nil =>
    refine iff_of_true trivial fun before after h => ?_
    rw [(List.append_eq_nil_iff.mp h.symm).1]
    exact follow_empty
  | append_singleton as a ih =>
    constructor
    · intro hkeeps before after hsplit
      rcases List.eq_nil_or_concat after with rfl | ⟨after, b, rfl⟩
      · rw [List.append_nil] at hsplit
        exact hsplit ▸ follow_observeAll hkeeps
      · rw [List.concat_eq_append, ← List.append_assoc] at hsplit
        rw [List.reverse_append] at hkeeps
        exact ih.mp hkeeps.1 before after (List.append_inj_left' hsplit rfl)
    · intro hfollow
      have hbefore := hfollow as [a] rfl
      have hnow := hfollow (as ++ [a]) [] (List.append_nil _).symm
      rw [observeAll_append_singleton, List.reverse_append] at hnow
      rw [List.reverse_append]
      refine ⟨ih.mpr fun before after hsplit => ?_, (hbefore.observe_iff a).mp hnow⟩
      exact hfollow before (after ++ [a]) (by rw [hsplit, List.append_assoc])

/-- A call of a variable is resolved by the role that the tables tell of it. -/
theorem callee?_eq_of_holds {role? : Option Role} (h : ∀ role, t.Holds x role ↔ role? = some role) :
    t.callee? x = role?.bind Role.callee? := by
  have hmap := h .map
  have hmodule := fun name => h (.moduleCall name)
  have hmethod := fun call => h (.methodCall call)
  simp only [Holds] at hmap hmodule hmethod
  unfold callee?
  by_cases hx : x ∈ t.mapCalls
  · rw [if_pos hx, hmap.mp hx]
    rfl
  rw [if_neg hx]
  cases hname : t.moduleCalls.find? x with
  | some name =>
    rw [(hmodule name).mp hname]
    rfl
  | none =>
    cases hcall : t.methodCalls.find? x with
    | some call =>
      rw [(hmethod call).mp hcall]
      rfl
    | none =>
      cases role? with
      | none => rfl
      | some role =>
        cases role with
        | map => exact absurd (hmap.mpr rfl) hx
        | moduleCall name => exact absurd ((hmodule name).mpr rfl) (by simp [hname])
        | methodCall call => exact absurd ((hmethod call).mpr rfl) (by simp [hcall])
        | _ => rfl

theorem Follow.callee?_eq {role? : Var → Option Role} (h : t.Follow role?) (x : Var) :
    t.callee? x = (role? x).bind Role.callee? :=
  callee?_eq_of_holds (h x)

/-- A variable plays the role that the latest assignment to it gives. -/
theorem roleOf?_reverse_of_latest {before after : List Assign} {a : Assign}
    (h : ∀ b ∈ after, b.target ≠ a.target) :
    roleOf? isArray (before ++ a :: after).reverse a.target =
      a.value.role? (fun y => roleOf? isArray before.reverse y = some .arrayModule) isArray := by
  rw [List.reverse_append, List.reverse_cons, List.append_assoc,
    roleOf?_append fun b hb => h b (List.mem_reverse.mp hb), List.singleton_append, roleOf?,
    if_pos rfl]

/-- Unless an assignment takes a kind of role from a variable, the tables tell of every variable what the
latest assignment to it gives: the items of a tuple, a universal function, the array module, a function of
the module or a method of an array. Calls are then resolved by the latest assignment. -/
theorem observeAll_tells_latest (h : KeepsRoles isArray as.reverse) (x : Var) :
    let t := observeAll isArray as
    let role := roleOf? isArray as.reverse x
    (∀ before a after, as = before ++ a :: after → a.target = x → (∀ b ∈ after, b.target ≠ x) →
        role = a.value.role? (fun y => roleOf? isArray before.reverse y = some .arrayModule) isArray) ∧
      (∀ items, t.tuples.find? x = some items ↔ role = some (.tuple items)) ∧
      (x ∈ t.mapCalls ↔ role = some .map) ∧
      (x ∈ t.arrayModules ↔ role = some .arrayModule) ∧
      (∀ name, t.moduleCalls.find? x = some name ↔ role = some (.moduleCall name)) ∧
      (∀ call, t.methodCalls.find? x = some call ↔ role = some (.methodCall call)) ∧
      t.callee? x = role.bind Role.callee? := by
  intro t role
  have hfollow : t.Follow (roleOf? isArray as.reverse) := follow_observeAll h
  refine ⟨?_, fun items => hfollow x (.tuple items), hfollow x .map, hfollow x .arrayModule,
    fun name => hfollow x (.moduleCall name), fun call => hfollow x (.methodCall call),
    hfollow.callee?_eq x⟩
  rintro before a after rfl rfl hlatest
  exact roleOf?_reverse_of_latest hlatest

/-- A tuple that is built twice, and a method that is fetched of two arrays one after the other. -/
def retoldAssigns : List Assign :=
  [⟨"np", .global "np" ⟨.moduleRef, "numpy"⟩, none, 0⟩,
    ⟨"zeros", .getattr "np" "zeros", none, 1⟩,
    ⟨"t", .buildTuple ["m", "n"], none, 2⟩,
    ⟨"f", .getattr "a" "dot", none, 3⟩,
    ⟨"t", .const (.list [3]), none, 4⟩,
    ⟨"f", .getattr "b" "dot", none, 5⟩]

theorem observeAll_tells_latest_retold :
    let t := observeAll (fun x => x = "a" ∨ x = "b") retoldAssigns
    t.tuples.find? "t" = some [.literal 3] ∧
      t.callee? "f" = some (.named "dot" (some "b")) ∧
      t.callee? "zeros" = some (.named "zeros" none) := by
  have hkeeps : KeepsRoles (fun x => x = "a" ∨ x = "b") retoldAssigns.reverse := by decide
  obtain ⟨-, htuple, -⟩ := observeAll_tells_latest hkeeps "t"
  obtain ⟨-, -, -, -, -, -, hmethod⟩ := observeAll_tells_latest hkeeps "f"
  obtain ⟨-, -, -, -, -, -, hfunction⟩ := observeAll_tells_latest hkeeps "zeros"
  exact ⟨(htuple _).mpr (by decide), hmethod, hfunction⟩

/-- An array is made with the sizes in a tuple, but the variable of the tuple has been assigned the shape of
another array in between. -/
def recastProgram : Program where
  name := "recast"
  argNames := ["a", "n"]
  blocks := [
    ⟨0, [
      .assign ⟨"a", .arg 0 "a", none, 0⟩,
      .assign ⟨"n", .arg 1 "n", none, 1⟩,
      .assign ⟨"np", .global "np" ⟨.moduleRef, "numpy"⟩, none, 2⟩,
      .assign ⟨"zeros", .getattr "np" "zeros", none, 3⟩,
      .assign ⟨"t", .buildTuple ["n"], none, 4⟩,
      .assign ⟨"t", .getattr "a" "shape", none, 5⟩,
      .assign ⟨"z", .call "zeros" ["t"] [], none, 6⟩,
      .ret "z" none]⟩]

def recastTypes : Types :=
  .ofList [("a", .arrayOf 1), ("n", .int64), ("np", .moduleRef "numpy"), ("zeros", .functionRef "zeros"),
    ("t", .uniTuple .int64 1), ("z", .arrayOf 1)]

/-- The tables still tell of the tuple, although the latest assignment to its variable is none that builds
one, and the new array is said to have the length that the tuple held. -/
theorem stale_tuple_recast :
    let t := observeAll recastTypes.isArray recastProgram.assigns
    t.tuples.find? "t" = some [.var "n"] ∧
      Assign.latest? "t" recastProgram.assigns = some ⟨"t", .getattr "a" "shape", none, 5⟩ ∧
      roleOf? recastTypes.isArray recastProgram.assigns.reverse "t" =
        some (.methodCall ⟨"shape", "a"⟩) ∧
      (analyze .standard recastProgram recastTypes (.empty 7)).state.store.sizeVars.find? "z" =
        some [.var "n"] := by
  refine ⟨by decide, rfl, by decide, by decide +kernel⟩

end Symbols

end DimEquiv
