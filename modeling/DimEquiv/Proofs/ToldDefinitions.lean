import DimEquiv.Plan
import DimEquiv.Proofs.InferenceSoundness
import DimEquiv.Proofs.RuleReading

/-!
# What the symbol tables tell of definitions

When an assignment is analyzed, the symbol tables tell of the assignments before it. In a program that
assigns variables before it mentions them this is all that the rule of the assignment depends on, so
the rule is the one that the definitions of the whole program give.
-/

namespace DimEquiv

/-! ### Definitions in another order -/

namespace Program

variable {p q : Program}

theorem definition?_eq_some_iff (hp : (p.assigns.map Assign.target).Nodup) {x : Var} {e : Expr} :
    p.definition? x = some e ↔ ∃ a ∈ p.assigns, a.target = x ∧ a.value = e := by
  refine ⟨exists_of_definition?, ?_⟩
  rintro ⟨a, ha, rfl, rfl⟩
  exact definition?_of_mem hp ha

theorem definition?_eq_none {x : Var} (h : x ∉ p.assigns.map Assign.target) :
    p.definition? x = none := by
  cases hx : p.definition? x with
  | none => rfl
  | some e =>
    obtain ⟨a, ha, rfl, -⟩ := exists_of_definition? hx
    exact absurd (List.mem_map_of_mem ha) h

theorem isArrayModule_iff {x : Var} : p.isArrayModule x = true ↔
    ∃ name, p.definition? x = some (.global name ⟨.moduleRef, Operators.arrayModule⟩) := by
  unfold isArrayModule
  split
  · rename_i name name' h
    simp [h]
  · rename_i h
    simp only [Bool.false_eq_true, false_iff, not_exists]
    exact fun name hname => h _ _ hname

theorem definition?_perm (hp : (p.assigns.map Assign.target).Nodup)
    (h : p.assigns.Perm q.assigns) : p.definition? = q.definition? := by
  have hq := (h.map Assign.target).nodup_iff.mp hp
  funext x
  ext e
  rw [definition?_eq_some_iff hp, definition?_eq_some_iff hq]
  simp only [h.mem_iff]

/-- The plan of a program does not depend on the order of its assignments. -/
theorem plan_perm (hp : (p.assigns.map Assign.target).Nodup) (h : p.assigns.Perm q.assigns)
    (options : Options) (types : Types) : p.plan options types = q.plan options types := by
  have hdefinition := definition?_perm hp h
  have hmodule : p.isArrayModule = q.isArrayModule := by
    funext x
    rw [isArrayModule, isArrayModule, hdefinition]
  have hcallee : p.callee? = q.callee? := by
    funext isArray x
    rw [callee?_eq, callee?_eq, hdefinition, hmodule]
  have hitems : p.items = q.items := by
    funext x
    rw [items, items, hdefinition]
  have hrank : p.rank? types = q.rank? types := by
    funext x
    simp only [rank?, (h.map Assign.target).mem_iff]
  simp only [plan, reading, hcallee, hitems, hrank]

end Program

theorem Expr.callee?_congr {isModule isModule' : Var → Bool} (isArray : Var → Bool) {e : Expr}
    (h : ∀ x ∈ e.mentions, isModule x = isModule' x) :
    e.callee? isModule isArray = e.callee? isModule' isArray := by
  rw [callee?_eq_role?, callee?_eq_role?, role?_congr h fun _ _ => rfl]

/-- The receiver of a method is mentioned where the method is fetched. -/
theorem Expr.mem_mentions_of_callee? {isModule isArray : Var → Bool} {e : Expr} {name : String}
    {x : Var} (h : e.callee? isModule isArray = some (.named name (some x))) : x ∈ e.mentions := by
  rw [callee?_eq_role?, Option.bind_eq_some_iff] at h
  obtain ⟨role, hrole, hcallee⟩ := h
  cases role with
  | methodCall call =>
    cases hcallee
    exact (role?_eq_some_iff.mp hrole).receiver_mem
  | _ => cases hcallee

/-- The items of the tuple that a variable stands for. -/
def Role.items : Role → List SizeValue
  | tuple items => items
  | _ => []

theorem Expr.items_eq_role? (e : Expr) (isModule isArray : Var → Bool) :
    e.items = ((e.role? isModule isArray).map Role.items).getD [] := by
  cases hrole : e.role? isModule isArray with
  | some role =>
    rw [role?_eq_some_iff] at hrole
    cases hrole <;> rfl
  | none =>
    unfold items
    split
    · cases hrole
    · cases hrole
    · rfl

/-! ### What the symbol tables tell -/

namespace Symbols

variable {isArray : Var → Bool} {t : Symbols} {a : Assign} {x : Var}

theorem mem_arrayModules_observe : x ∈ (t.observe isArray a).arrayModules ↔ x ∈ t.arrayModules ∨
    x = a.target ∧ ∃ name, a.value = .global name ⟨.moduleRef, Operators.arrayModule⟩ := by
  rcases t.observe_cases isArray a with ⟨hsame, hnone⟩ | ⟨role, henter, hgives⟩
  · rw [hsame, iff_self_or]
    rintro ⟨-, name, hvalue⟩
    simp [hvalue, Expr.role?] at hnone
  · rw [henter]
    generalize a.value = value at hgives
    cases hgives <;> simp [enter, or_comm]

theorem callee?_eq_none_iff : t.callee? x = none ↔
    x ∉ t.mapCalls ∧ t.moduleCalls.find? x = none ∧ t.methodCalls.find? x = none := by
  unfold callee?
  split
  · simp_all
  · split <;> simp_all

/-- A call of a variable that was not told of before is told of by the role that is entered. -/
theorem callee?_enter {y : Var} (hnone : t.callee? x = none) (role : Role) :
    (t.enter x role).callee? y = if x = y then role.callee? else t.callee? y := by
  obtain ⟨hmap, hmodule, hmethod⟩ := callee?_eq_none_iff.mp hnone
  cases role with
  | map =>
    simp only [enter, callee?, NameSet.mem_insert, Role.callee?]
    grind
  | moduleCall name =>
    simp only [enter, callee?, Table.find?_insert, Role.callee?]
    grind
  | methodCall call =>
    simp only [enter, callee?, Table.find?_insert, Role.callee?]
    grind
  | arrayModule =>
    split
    · rename_i hxy
      exact hxy ▸ hnone
    · rfl
  | tuple items =>
    split
    · rename_i hxy
      exact hxy ▸ hnone
    · rfl

/-- A call of a variable that was not told of before is told of by its value. -/
theorem callee?_observe (hnone : t.callee? a.target = none) : (t.observe isArray a).callee? x =
    if a.target = x then a.value.callee? (fun y => y ∈ t.arrayModules) isArray
    else t.callee? x := by
  rw [observe_eq, Expr.callee?_eq_role?]
  cases a.value.role? (fun y => y ∈ t.arrayModules) isArray with
  | none =>
    split
    · rename_i htarget
      exact htarget ▸ hnone
    · rfl
  | some role => exact callee?_enter hnone role

/-- The items of a tuple that was not told of before are those of its value. -/
theorem items_observe (hnone : (t.tuples.find? a.target).getD [] = []) :
    ((t.observe isArray a).tuples.find? x).getD [] =
      if a.target = x then a.value.items else (t.tuples.find? x).getD [] := by
  rw [observe_eq, a.value.items_eq_role? (fun y => y ∈ t.arrayModules) isArray]
  have hkept : (t.tuples.find? x).getD [] =
      if a.target = x then [] else (t.tuples.find? x).getD [] := by
    split
    · rename_i htarget
      exact htarget ▸ hnone
    · rfl
  cases a.value.role? (fun y => y ∈ t.arrayModules) isArray with
  | none => exact hkept
  | some role =>
    cases role with
    | tuple items =>
      simp only [Option.map_some, Option.getD_some, enter, Table.find?_insert, Role.items]
      split <;> rfl
    | _ => exact hkept

/-- The symbol tables tell of the assignments in `done` what the program defines. -/
structure Tells (p : Program) (isArray : Var → Bool) (done : List Assign) (t : Symbols) : Prop where
  modules : ∀ x, x ∈ t.arrayModules ↔ x ∈ done.map Assign.target ∧ p.isArrayModule x = true
  callees : ∀ x, t.callee? x = if x ∈ done.map Assign.target then p.callee? isArray x else none
  items : ∀ x, (t.tuples.find? x).getD [] = if x ∈ done.map Assign.target then p.items x else []

variable {p : Program} {done : List Assign}

theorem tells_scan_empty (p q : Program) (isArray : Var → Bool) :
    (empty.scan q).Tells p isArray [] := by
  rw [scan_eq]
  exact ⟨fun x => by simp [empty], fun x => rfl, fun x => rfl⟩

theorem Tells.observe (h : t.Tells p isArray done)
    (hdefinition : p.definition? a.target = some a.value)
    (hnew : a.target ∉ done.map Assign.target)
    (hmentions : ∀ y ∈ a.value.mentions, y ∈ done.map Assign.target ∨ p.definition? y = none) :
    (t.observe isArray a).Tells p isArray (done ++ [a]) := by
  have hmem : ∀ x, x ∈ (done ++ [a]).map Assign.target ↔
      x ∈ done.map Assign.target ∨ x = a.target := by simp
  refine ⟨fun x => ?_, fun x => ?_, fun x => ?_⟩
  · rw [mem_arrayModules_observe, h.modules, hmem]
    by_cases hx : x = a.target
    · rw [hx, Program.isArrayModule_iff, hdefinition]
      simp [hnew]
    · simp [hx]
  · have hnone : t.callee? a.target = none := by rw [h.callees, if_neg hnew]
    rw [callee?_observe hnone, h.callees]
    by_cases hx : a.target = x
    · rw [if_pos hx, if_pos ((hmem x).mpr (.inr hx.symm)), ← hx, Program.callee?_eq, hdefinition,
        Option.bind_some]
      refine Expr.callee?_congr isArray fun y hy => ?_
      rw [Bool.eq_iff_iff, decide_eq_true_eq, h.modules]
      refine and_iff_right_of_imp fun hmodule => (hmentions y hy).resolve_right fun hnone => ?_
      rw [Program.isArrayModule_iff, hnone] at hmodule
      simp at hmodule
    · rw [if_neg hx]
      simp only [hmem, Ne.symm hx, or_false]
  · have hnone : (t.tuples.find? a.target).getD [] = [] := by rw [h.items, if_neg hnew]
    rw [items_observe hnone, h.items]
    by_cases hx : a.target = x
    · rw [if_pos hx, if_pos ((hmem x).mpr (.inr hx.symm)), ← hx, Program.items, hdefinition]
      rfl
    · rw [if_neg hx]
      simp only [hmem, Ne.symm hx, or_false]

end Symbols

/-! ### Settled variables -/

namespace Program

/-- The variable has a type, and nothing that follows the assignments in `done` assigns it. -/
def Settled (p : Program) (types : Types) (done : List Assign) (x : Var) : Prop :=
  types.contains x = true ∧ (x ∈ done.map Assign.target ∨ x ∉ p.assigns.map Assign.target)

variable {p : Program} {types : Types} {done rest : List Assign} {a : Assign} {x : Var}

theorem Settled.mono {done' : List Assign} (h : p.Settled types done x) (hsub : done ⊆ done') :
    p.Settled types done' x :=
  ⟨h.1, h.2.imp_left fun hx => List.map_subset _ hsub hx⟩

theorem DefinedBeforeUse.notMem (hp : p.DefinedBeforeUse) (h : p.assigns = done ++ a :: rest) :
    a.target ∉ done.map Assign.target := by
  have honce := hp.once
  rw [h, List.map_append, List.map_cons] at honce
  exact fun hmem => List.disjoint_of_nodup_append honce hmem List.mem_cons_self

/-- What an assignment mentions, the assignments before it have assigned if any does. -/
theorem DefinedBeforeUse.assigned_or_never (hp : p.DefinedBeforeUse) (h : p.assigns = done ++ a :: rest)
    (hx : x ∈ a.value.mentions) :
    x ∈ done.map Assign.target ∨ x ∉ p.assigns.map Assign.target := by
  have hlt : done.length < p.assigns.length := by simp [h]
  have hget : p.assigns[done.length] = a := by simp [h]
  have htake : p.assigns.take done.length = done := by simp [h]
  have hdefined := hp.defined done.length hlt x (hget.symm ▸ hx)
  rwa [htake] at hdefined

/-- What an assignment mentions is settled by the assignments before it. -/
theorem Ordered.settled (hp : p.Ordered) (htyped : p.Typed types)
    (h : p.assigns = done ++ a :: rest) (hx : x ∈ a.value.mentions) : p.Settled types done x := by
  have ha : a ∈ p.assigns := h ▸ List.mem_append_right _ List.mem_cons_self
  exact ⟨(htyped.assign ha).2 x (Expr.mem_mentions.mp hx).1,
    hp.definedBeforeUse.assigned_or_never h hx⟩

theorem Ordered.settled_of_mem (hp : p.Ordered) (htyped : p.Typed types)
    (h : p.assigns = done ++ rest) (ha : a ∈ done) (hx : x ∈ a.value.mentions) :
    p.Settled types done x := by
  obtain ⟨before, after, rfl⟩ := List.append_of_mem ha
  rw [List.append_assoc, List.cons_append] at h
  exact (hp.settled htyped h hx).mono (List.subset_append_left _ _)

end Program

/-- The receiver of a method is settled when the method is. -/
theorem Program.Ordered.receiver_settled {p : Program} {types : Types} {done rest : List Assign}
    (hp : p.Ordered) (htyped : p.Typed types) (hsplit : p.assigns = done ++ rest) {func x : Var}
    {name : String} (hfunc : p.Settled types done func)
    (h : p.callee? types.isArray func = some (.named name (some x))) : p.Settled types done x := by
  rw [Program.callee?_eq, Option.bind_eq_some_iff] at h
  obtain ⟨e, hdefinition, hcallee⟩ := h
  obtain ⟨b, hb, rfl, rfl⟩ := Program.exists_of_definition? hdefinition
  have hmem := hfunc.2.resolve_right fun hnever => hnever (List.mem_map_of_mem hb)
  obtain ⟨b', hb', htarget⟩ := List.mem_map.mp hmem
  have hsub : b' ∈ p.assigns := hsplit ▸ List.mem_append_left _ hb'
  obtain rfl := List.inj_on_of_nodup_map hp.once hsub hb htarget
  exact hp.settled_of_mem htyped hsplit hb' (Expr.mem_mentions_of_callee? hcallee)

/-- On settled variables the tables give what the definitions of the whole program give. -/
theorem Symbols.Tells.agrees {p : Program} {types types' : Types} {done rest : List Assign}
    {t : Symbols} (h : t.Tells p types.isArray done) (hp : p.Ordered) (htyped : p.Typed types)
    (hsplit : p.assigns = done ++ rest)
    (hkept : ∀ x type, types.find? x = some type → types'.find? x = some type) (options : Options) :
    Reading.Agrees (p.Settled types done) (p.reading options types)
      (Scope.reading ⟨types', t, options⟩) := by
  have hnever : ∀ {x}, x ∉ p.assigns.map Assign.target → x ∉ done.map Assign.target :=
    fun hx hmem => hx (hsplit ▸ List.map_subset _ (List.subset_append_left _ _) hmem)
  refine ⟨rfl, fun x hx => ?_, fun x hx => ?_,
    fun func name x hfunc hcallee => hp.receiver_settled htyped hsplit hfunc hcallee,
    fun x hx => ?_⟩
  · obtain ⟨type, htype⟩ := Option.isSome_iff_exists.mp hx.1
    exact (hkept x type htype).trans htype.symm
  · refine (h.callees x).trans ?_
    change _ = p.callee? types.isArray x
    rcases hx.2 with hmem | hx
    · rw [if_pos hmem]
    · rw [if_neg (hnever hx), Program.callee?_eq, Program.definition?_eq_none hx]
      rfl
  · refine (h.items x).trans ?_
    change _ = p.items x
    rcases hx.2 with hmem | hx
    · rw [if_pos hmem]
    · rw [if_neg (hnever hx), Program.items, Program.definition?_eq_none hx]
      rfl

end DimEquiv
