import DimEquiv.Proofs.TableAgreement
import DimEquiv.Proofs.VariableRoles

/-!
# Transposing twice

An array is transposed by an attribute of it, by a function of the array module or by a method of it. Each
way its shape is reversed as it is recorded by then. From there on every union renames both shapes alike,
and neither array is assigned again, so the shapes remain the reverse of each other whatever follows.
-/

namespace DimEquiv

namespace Assign

/-- The assignment at place `k` is the only one to `x`, and its value is `e`. -/
structure SoleAt (as : List Assign) (k : Nat) (x : Var) (e : Expr) : Prop where
  value : ∃ a, as[k]? = some a ∧ a.target = x ∧ a.value = e
  once : (as.map Assign.target).count x = 1

variable {as : List Assign} {k : Nat} {x : Var} {e : Expr}

theorem SoleAt.exists_split (h : SoleAt as k x e) :
    ∃ a after, as = as.take k ++ a :: after ∧ a.target = x ∧ a.value = e ∧
      x ∉ (as.take k).map Assign.target ∧ x ∉ after.map Assign.target := by
  obtain ⟨a, ha, hx, he⟩ := h.value
  obtain ⟨hlt, ha⟩ := List.getElem?_eq_some_iff.mp ha
  have hsplit : as = as.take k ++ a :: as.drop (k + 1) := by
    rw [← ha, List.getElem_cons_drop, List.take_append_drop]
  have hcount : (as.map Assign.target).count x = ((as.take k).map Assign.target).count x +
      (((as.drop (k + 1)).map Assign.target).count x + 1) := by
    conv_lhs => rw [hsplit]
    rw [List.map_append, List.count_append, List.map_cons, hx, List.count_cons_self]
  rw [h.once] at hcount
  refine ⟨a, as.drop (k + 1), hsplit, hx, he, ?_, ?_⟩
  · exact List.count_eq_zero.mp (by omega)
  · exact List.count_eq_zero.mp (by omega)

theorem SoleAt.value_eq (h : SoleAt as k x e) {a : Assign} (ha : a ∈ as) (hx : a.target = x) :
    a.value = e := by
  obtain ⟨b, after, hsplit, -, hvalue, hbefore, hafter⟩ := h.exists_split
  rw [hsplit, List.mem_append, List.mem_cons] at ha
  rcases ha with ha | rfl | ha
  · exact absurd (hx ▸ List.mem_map_of_mem ha) hbefore
  · exact hvalue
  · exact absurd (hx ▸ List.mem_map_of_mem ha) hafter

theorem SoleAt.notMem_right {before after : List Assign} (h : SoleAt (before ++ after) k x e)
    (hx : x ∈ before.map Assign.target) : x ∉ after.map Assign.target := by
  have honce := h.once
  have hpos := List.count_pos_iff.mpr hx
  rw [List.map_append, List.count_append] at honce
  exact List.count_eq_zero.mp (by omega)

/-- The sole assignment is that of every part of the list that reaches behind it. -/
theorem SoleAt.take (h : SoleAt as k x e) {j : Nat} (hk : k < j) : SoleAt (as.take j) k x e := by
  obtain ⟨a, ha, hx, he⟩ := h.value
  have ha' : (as.take j)[k]? = some a := by rwa [List.getElem?_take_of_lt hk]
  refine ⟨⟨a, ha', hx, he⟩, ?_⟩
  have hle : ((as.take j).map Assign.target).count x ≤ (as.map Assign.target).count x :=
    ((List.take_sublist j as).map Assign.target).count_le x
  have hpos : 0 < ((as.take j).map Assign.target).count x :=
    List.count_pos_iff.mpr (hx ▸ List.mem_map_of_mem (List.mem_of_getElem? ha'))
  have honce := h.once
  omega

end Assign

open Assign

/-! ### The symbol tables and a sole assignment -/

namespace Symbols

variable {isArray : Var → Bool} {t : Symbols} {as : List Assign} {k : Nat} {x : Var} {e : Expr}

theorem holds_observe_of_ne {a : Assign} (h : a.target ≠ x) (role : Role) :
    (t.observe isArray a).Holds x role ↔ t.Holds x role := by
  rcases t.observe_cases isArray a with ⟨hsame, -⟩ | ⟨entered, henter, -⟩
  · rw [hsame]
  · rw [henter, holds_enter, if_neg fun hplace => h hplace.1]

/-- Assignments to other variables tell nothing of a variable. -/
theorem holds_foldl_of_notMem (h : x ∉ as.map Assign.target) (role : Role) :
    (as.foldl (observe isArray) t).Holds x role ↔ t.Holds x role := by
  induction as generalizing t with
  | nil => rfl
  | cons a as ih =>
    obtain ⟨hne, hrest⟩ := List.ne_and_not_mem_of_not_mem_cons h
    rw [List.foldl_cons, ih hrest, holds_observe_of_ne (Ne.symm hne)]

/-- The tables tell of a variable what its sole assignment gives. -/
theorem holds_foldl_of_soleAt (h : SoleAt as k x e) (hnone : ∀ role, ¬ t.Holds x role) (role : Role) :
    (as.foldl (observe isArray) t).Holds x role ↔
      e.role? (fun y => y ∈ ((as.take k).foldl (observe isArray) t).arrayModules) isArray =
        some role := by
  obtain ⟨a, after, hsplit, rfl, rfl, hbefore, hafter⟩ := h.exists_split
  have hfold : as.foldl (observe isArray) t =
      after.foldl (observe isArray) (((as.take k).foldl (observe isArray) t).observe isArray a) := by
    conv_lhs => rw [hsplit]
    rw [List.foldl_append, List.foldl_cons]
  have hfresh : ∀ role, ¬ ((as.take k).foldl (observe isArray) t).Holds a.target role :=
    fun role hheld => hnone role ((holds_foldl_of_notMem hbefore role).mp hheld)
  rw [hfold, holds_foldl_of_notMem hafter]
  generalize (as.take k).foldl (observe isArray) t = u at hfresh ⊢
  rw [observe_eq]
  cases a.value.role? (fun y => y ∈ u.arrayModules) isArray with
  | none => exact iff_of_false (hfresh role) nofun
  | some entered =>
    rw [Option.map_some, Option.getD_some, holds_enter, Option.some.injEq]
    split
    · rfl
    · rename_i hkind
      exact iff_of_false (hfresh role) fun heq => hkind ⟨rfl, congrArg Role.kind heq⟩

/-- A call of a variable that is assigned once is resolved by that assignment. -/
theorem callee?_foldl_of_soleAt (h : SoleAt as k x e) (hnone : ∀ role, ¬ t.Holds x role) :
    (as.foldl (observe isArray) t).callee? x =
      e.callee? (fun y => y ∈ ((as.take k).foldl (observe isArray) t).arrayModules) isArray := by
  rw [Expr.callee?_eq_role?]
  exact callee?_eq_of_holds (holds_foldl_of_soleAt h hnone)

/-- A variable that is assigned no global holds no module. -/
theorem notMem_arrayModules_foldl (ht : x ∉ t.arrayModules)
    (h : ∀ a ∈ as, a.target = x → ∀ name value, a.value ≠ .global name value) :
    x ∉ (as.foldl (observe isArray) t).arrayModules := by
  induction as generalizing t with
  | nil => exact ht
  | cons a as ih =>
    obtain ⟨hhead, htail⟩ := List.forall_mem_cons.mp h
    refine ih (fun hmem => ?_) htail
    rcases t.observe_cases isArray a with ⟨hsame, -⟩ | ⟨entered, henter, hgives⟩
    · exact ht (hsame ▸ hmem)
    · rcases holds_of_enter .arrayModule (henter ▸ hmem) with ⟨htarget, rfl⟩ | hheld
      · generalize hvalue : a.value = e at hgives
        cases hgives
        exact hhead htarget _ _ hvalue
      · exact ht hheld

theorem not_holds_scan (p : Program) (x : Var) (role : Role) : ¬ (empty.scan p).Holds x role := by
  rw [scan_eq]
  exact holds_empty x role

end Symbols

/-- What is told after a run is told by the assignments that it has visited. -/
theorem Pass.Emits.symbols_eq {options : Options} {s t : State} {as out : List Assign}
    (h : Emits options s as out t) :
    t.symbols = as.foldl (Symbols.observe s.types.isArray) s.symbols := by
  induction h with
  | nil => rfl
  | cons ha _ ih =>
    have hassigned := assigned_of_run ha
    rw [ih, hassigned.symbols_eq, State.isArray_eq_of_rank?_eq hassigned.declared.rank?_eq,
      List.foldl_cons]

/-! ### The rule of a transpose -/

/-- The value of the assignment at place `k` is a transpose of `x`: an attribute, or a call of a function
or of a method that was fetched before. -/
inductive Program.TransposesAt (p : Program) (k : Nat) (x : Var) : Expr → Prop
  | attr : TransposesAt p k x (.getattr x Operators.transposeAttr)
  | function {i j : Nat} {name : String} {module func : Var} (args : List Var)
    (kws : List (String × Var))
    (hmodule : SoleAt p.assigns i module (.global name ⟨.moduleRef, Operators.arrayModule⟩))
    (hij : i < j) (hfunc : SoleAt p.assigns j func (.getattr module "transpose")) (hjk : j < k) :
    TransposesAt p k x (.call func (x :: args) kws)
  | method {j : Nat} {func : Var} (args : List Var) (kws : List (String × Var))
    (hfunc : SoleAt p.assigns j func (.getattr x "transpose")) (hjk : j < k) :
    TransposesAt p k x (.call func args kws)

/-- A call follows the rule of the name that its function has in the tables. -/
theorem Scope.ruleOf_call (scope : Scope) {func : Var} {name : String} {receiver : Option Var}
    (h : scope.symbols.callee? func = some (.named name receiver)) (target : Var) (args : List Var)
    (kws : List (String × Var)) : scope.reading.ruleOf target (.call func args kws) =
      scope.reading.ruleOfNamedCall name (receiver.toList ++ args) := by
  have hcallee : scope.reading.callee? func = some (.named name receiver) := h
  rw [Reading.ruleOf, Reading.ruleOfCall, hcallee]

namespace Program.TransposesAt

variable {p : Program} {k : Nat} {x : Var}

theorem ne_global {e : Expr} (h : p.TransposesAt k x e) (name : String) (value : GlobalValue) :
    e ≠ .global name value := by
  cases h <;> nofun

/-- Behind the assignments before it, each transpose has the rule that reverses a shape. -/
theorem ruleOf_eq {a : Assign} (h : p.TransposesAt k x a.value) {s : State} {isArray : Var → Bool}
    (hisArray : s.types.isArray = isArray) (hx : isArray x = true)
    (hsymbols : s.symbols =
      (p.assigns.take k).foldl (Symbols.observe isArray) (Symbols.empty.scan p))
    (hglobal : ∀ b ∈ p.assigns, b.target = x → ∀ name value, b.value ≠ .global name value)
    (options : Options) :
    ((s.observe a).scope options).reading.ruleOf a.target a.value = .reverse x := by
  have hnone := Symbols.not_holds_scan p
  obtain ⟨target, value, loc, site⟩ := a
  cases h with
  | attr => exact if_pos ⟨rfl, (congrFun hisArray x).trans hx⟩
  | @function i j name module func args kws hmodule hij hfunc hjk =>
    have hmodule : module ∈ (((p.assigns.take k).take j).foldl (Symbols.observe isArray)
        (Symbols.empty.scan p)).arrayModules :=
      (Symbols.holds_foldl_of_soleAt ((hmodule.take (Nat.lt_trans hij hjk)).take hij) (hnone module)
        .arrayModule).mpr (Expr.role?_eq_some_iff.mpr (.arrayModule name))
    have hcallee : (s.observe ⟨target, .call func (x :: args) kws, loc, site⟩).symbols.callee? func =
        some (.named "transpose" none) := by
      -- A call tells nothing of its target, so the tables are still those of the assignments before it.
      change s.symbols.callee? func = _
      rw [hsymbols, Symbols.callee?_foldl_of_soleAt (hfunc.take hjk) (hnone func)]
      exact if_pos (decide_eq_true hmodule)
    exact Scope.ruleOf_call (State.scope _ options) hcallee target (x :: args) kws
  | @method j func args kws hfunc hjk =>
    have hmodule : x ∉ (((p.assigns.take k).take j).foldl (Symbols.observe isArray)
        (Symbols.empty.scan p)).arrayModules :=
      Symbols.notMem_arrayModules_foldl (hnone x .arrayModule) fun b hb =>
        hglobal b (List.mem_of_mem_take (List.mem_of_mem_take hb))
    have hcallee : (s.observe ⟨target, .call func args kws, loc, site⟩).symbols.callee? func =
        some (.named "transpose" (some x)) := by
      change s.symbols.callee? func = _
      rw [hsymbols, Symbols.callee?_foldl_of_soleAt (hfunc.take hjk) (hnone func)]
      exact (if_neg (by simpa using hmodule)).trans (if_pos hx)
    exact Scope.ruleOf_call (State.scope _ options) hcallee target args kws

end Program.TransposesAt

/-! ### Shapes that are the reverse of each other -/

/-- The shapes recorded for `x` and `y` are the reverse of each other. -/
def Store.Reversed (s : Store) (x y : Var) : Prop :=
  ∃ shape, s.shapes.find? x = some shape ∧ s.shapes.find? y = some shape.reverse

namespace Pass

variable {options : Options} {a : Assign} {s t : State} {reads done as out : List Assign} {x y : Var}

/-- An assignment to another array renames classes in both shapes. -/
theorem Assigned.reversed (h : Assigned options a s reads t) (hs : s.store.Bounded)
    (hxy : s.store.Reversed x y) (hx : a.target ≠ x) (hy : a.target ≠ y) : t.store.Reversed x y := by
  obtain ⟨shape, hshape, hshape'⟩ := hxy
  obtain ⟨rep, -, hrename⟩ := h.exists_rename hs
  refine ⟨shape.map rep, ?_, ?_⟩
  · rw [hrename x hx, hshape, Option.map_some]
  · rw [hrename y hy, hshape', Option.map_some, List.map_reverse]

theorem Emits.reversed (h : Emits options s as out t) (hs : s.Consistent done)
    (hxy : s.store.Reversed x y) (hx : x ∉ as.map Assign.target) (hy : y ∉ as.map Assign.target) :
    t.store.Reversed x y := by
  induction h generalizing done with
  | nil => exact hxy
  | cons ha _ ih =>
    have hassigned := assigned_of_run ha
    obtain ⟨hxa, hxas⟩ := List.ne_and_not_mem_of_not_mem_cons hx
    obtain ⟨hya, hyas⟩ := List.ne_and_not_mem_of_not_mem_cons hy
    exact ih (hs.assigned hassigned)
      (hassigned.reversed hs.agreeing.toBounded hxy (Ne.symm hxa) (Ne.symm hya)) hxas hyas

/-- An array that is new gets the reverse of a recorded shape, if the numbers of dimensions agree. -/
theorem Assigned.reversed_of_reverse {rank : Nat} (h : Assigned options a s reads t)
    (hs : s.Consistent done) (htarget : a.target ∉ done.map Assign.target)
    (hrule : ((s.observe a).scope options).reading.ruleOf a.target a.value = .reverse x)
    (hx : s.rank? x = some rank) (hy : s.rank? a.target = some rank) :
    x ∈ done.map Assign.target ∧ t.store.Reversed x a.target := by
  have hinferred : inferred options a s = ((s.store.lookup x).map List.reverse, s.store) := by
    rw [inferred, ← Scope.apply_ruleOf, hrule, ShapeRule.run_apply_reverse]
  cases h with
  | scalar hscalar => cases hscalar.symm.trans hy
  | @array rank' shape' ds reads' t' harray hsettle hrecorded =>
    obtain rfl : rank' = rank := Option.some.inj (harray.symm.trans hy)
    have hstore : (behind options a ds s).store = s.store := congrArg Prod.snd hinferred
    rw [hinferred] at hsettle
    cases hlookup : s.store.lookup x with
    | error e =>
      obtain ⟨-, rfl⟩ := (Store.lookup_eq_error_iff s.store x e).mp hlookup
      rw [hlookup] at hsettle
      cases hsettle
    | ok shape =>
      have hshape := (Store.lookup_eq_ok_iff s.store x shape).mp hlookup
      have hlength : shape.length = rank' :=
        Option.some.inj ((hs.ranked x shape hshape).symm.trans hx)
      rw [hlookup, Except.map, settle, if_pos (by rw [List.length_reverse, hlength])] at hsettle
      obtain ⟨rfl, -⟩ := Prod.mk.inj (Except.ok.inj hsettle)
      have hxdone := hs.mem_targets hshape
      have hne : a.target ≠ x := fun heq => htarget (heq ▸ hxdone)
      have hnew : s.store.shapes.find? a.target = none :=
        Option.eq_none_iff_forall_ne_some.mpr fun _ hknown => htarget (hs.mem_targets hknown)
      refine ⟨hxdone, shape, ?_, ?_⟩
      · rw [hrecorded.find?_shapes_of_ne hne, hstore, hshape]
      · rw [hrecorded.find?_shapes, Store.find?_shapes_record, if_pos rfl, hstore, hnew]

/-- A run over an array and a transpose of it leaves shapes that are the reverse of each other. -/
theorem Emits.reversed_of_transposesAt {p : Program} {types : Types} {callTypes : CallTypes}
    {i k rank : Nat} {e e' : Expr} (h : Emits options (.start p types callTypes) p.assigns out t)
    (hx : SoleAt p.assigns i x e) (hglobal : ∀ name value, e ≠ .global name value)
    (hy : SoleAt p.assigns k y e') (htranspose : p.TransposesAt k x e')
    (hxrank : (types.find? x).bind StaticType.rank? = some rank)
    (hyrank : (types.find? y).bind StaticType.rank? = some rank) : t.store.Reversed x y := by
  -- The run is cut at the transpose: what the tables tell there comes from the part before it, the relation
  -- is made by the transpose itself and carried through the part behind it.
  obtain ⟨a, after, hsplit, rfl, rfl, hbefore, hafter⟩ := hy.exists_split
  rw [hsplit] at h
  obtain ⟨s, out₁, out₂, hrun, hrest, -⟩ := h.append_inv
  have hs := (State.Consistent.start p types callTypes).emits hrun
  rw [List.nil_append] at hs
  have hrank : ∀ z, s.rank? z = (types.find? z).bind StaticType.rank? := hrun.rank?_eq
  have hisArray : s.types.isArray = types.isArray := State.isArray_eq_of_rank?_eq hrank
  have hxarray : types.isArray x = true := (types.isArray_iff_rank? x).mpr ⟨rank, hxrank⟩
  have hrule := htranspose.ruleOf_eq hisArray hxarray hrun.symbols_eq
    (fun b hb hbx => hx.value_eq hb hbx ▸ hglobal) options
  cases hrest with
  | @cons _ u _ _ reads as _ ha hrest =>
    have hassigned := assigned_of_run ha
    obtain ⟨hxbefore, hreversed⟩ := hassigned.reversed_of_reverse hs hbefore hrule
      ((hrank x).trans hxrank) ((hrank a.target).trans hyrank)
    rw [hsplit] at hx
    have hxafter := (List.ne_and_not_mem_of_not_mem_cons (hx.notMem_right hxbefore)).2
    exact hrest.reversed (hs.assigned hassigned) hreversed hxafter hafter

end Pass

/-- Transposing an array twice gives its shape again, by whatever way each transpose is written and
whatever the program does before, in between and behind. -/
theorem analyze_transpose_involutive {options : Options} {p : Program} {types : Types}
    {callTypes : CallTypes} {f : Findings} (h : (analyze options p types callTypes).findings = .ok f)
    {rank : Nat} {a t₁ t₂ : Var}
    (hrank : ∀ x ∈ [a, t₁, t₂], (types.find? x).bind StaticType.rank? = some rank)
    {i j k : Nat} {e e₁ e₂ : Expr} (ha : SoleAt p.assigns i a e)
    (hglobal : ∀ name value, e ≠ .global name value)
    (h₁ : SoleAt p.assigns j t₁ e₁) (htranspose₁ : p.TransposesAt j a e₁)
    (h₂ : SoleAt p.assigns k t₂ e₂) (htranspose₂ : p.TransposesAt k t₁ e₂) :
    ∃ shape, f.shapeOf? a = some shape ∧ f.shapeOf? t₁ = some shape.reverse ∧
      f.shapeOf? t₂ = some shape := by
  obtain ⟨rfl, hrun⟩ := emits_of_findings h
  have harank := hrank a (by simp)
  have hrank₁ := hrank t₁ (by simp)
  have hrank₂ := hrank t₂ (by simp)
  obtain ⟨shape, hshape, hshape₁⟩ :=
    hrun.reversed_of_transposesAt ha hglobal h₁ htranspose₁ harank hrank₁
  obtain ⟨shape', hshape', hshape₂⟩ :=
    hrun.reversed_of_transposesAt h₁ htranspose₁.ne_global h₂ htranspose₂ hrank₁ hrank₂
  obtain rfl : shape.reverse = shape' := Option.some.inj (hshape₁.symm.trans hshape')
  rw [List.reverse_reverse] at hshape₂
  exact ⟨shape, hshape, hshape₁, hshape₂⟩

/-- A partly unknown array is transposed by a function and then by a method. Around it an array loses its
shape, and dimensions of the transposes are united with others. -/
def transposeProgram : Program where
  name := "transposes"
  argNames := ["b", "w", "u", "v"]
  blocks := [
    ⟨0, [
      .assign ⟨"b", .arg 0 "b", none, 0⟩,
      .assign ⟨"w", .arg 1 "w", none, 1⟩,
      .assign ⟨"u", .arg 2 "u", none, 2⟩,
      .assign ⟨"u", .arg 3 "v", none, 3⟩,
      .assign ⟨"np", .global "np" ⟨.moduleRef, "numpy"⟩, none, 4⟩,
      .jump 1]⟩,
    ⟨1, [
      .assign ⟨"a", .binop "+" "u" "b", none, 5⟩,
      .assign ⟨"f", .getattr "np" "transpose", none, 6⟩,
      .assign ⟨"t1", .call "f" ["a"] [], none, 7⟩,
      .assign ⟨"m", .getattr "t1" "transpose", none, 8⟩,
      .jump 2]⟩,
    ⟨2, [
      .assign ⟨"c", .binop "+" "b" "w", none, 9⟩,
      .assign ⟨"t2", .call "m" [] [], none, 10⟩,
      .assign ⟨"c", .binop "*" "t1" "w", none, 11⟩,
      .ret "t2" none]⟩]

def transposeTypes : Types :=
  .ofList [("b", .arrayOf 2), ("w", .arrayOf 2), ("u", .arrayOf 1), ("v", .arrayOf 1),
    ("np", .moduleRef "numpy"), ("a", .arrayOf 2), ("f", .functionRef "transpose"), ("t1", .arrayOf 2),
    ("m", .functionRef "transpose"), ("c", .arrayOf 2), ("t2", .arrayOf 2)]

theorem analyze_transpose_involutive_transposes :
    ∃ f, (analyze .standard transposeProgram transposeTypes (.empty 12)).findings = .ok f ∧
      f.shapeOf? "a" = some [9, -1] ∧ f.shapeOf? "t1" = some [-1, 9] ∧
      f.shapeOf? "t2" = some [9, -1] := by
  have hrun : (analyze .standard transposeProgram transposeTypes (.empty 12)).findings =
      .ok (.ofState (analyze .standard transposeProgram transposeTypes (.empty 12)).state) :=
    Run.findings_of_isOk (by decide +kernel)
  have hrank : ∀ x ∈ ["a", "t1", "t2"],
      (transposeTypes.find? x).bind StaticType.rank? = some 2 := by decide
  have ha : SoleAt transposeProgram.assigns 5 "a" (.binop "+" "u" "b") :=
    ⟨⟨_, rfl, rfl, rfl⟩, by decide⟩
  have hmodule : SoleAt transposeProgram.assigns 4 "np"
      (.global "np" ⟨.moduleRef, Operators.arrayModule⟩) := ⟨⟨_, rfl, rfl, rfl⟩, by decide⟩
  have hfunc : SoleAt transposeProgram.assigns 6 "f" (.getattr "np" "transpose") :=
    ⟨⟨_, rfl, rfl, rfl⟩, by decide⟩
  have h₁ : SoleAt transposeProgram.assigns 7 "t1" (.call "f" ["a"] []) :=
    ⟨⟨_, rfl, rfl, rfl⟩, by decide⟩
  have hmethod : SoleAt transposeProgram.assigns 8 "m" (.getattr "t1" "transpose") :=
    ⟨⟨_, rfl, rfl, rfl⟩, by decide⟩
  have h₂ : SoleAt transposeProgram.assigns 10 "t2" (.call "m" [] []) :=
    ⟨⟨_, rfl, rfl, rfl⟩, by decide⟩
  obtain ⟨shape, hshape, hshape₁, hshape₂⟩ := analyze_transpose_involutive hrun hrank ha nofun
    h₁ (.function [] [] hmodule (by decide) hfunc (by decide)) h₂ (.method [] [] hmethod (by decide))
  have hfound : (Findings.ofState
      (analyze .standard transposeProgram transposeTypes (.empty 12)).state).shapeOf? "a" =
        some [9, -1] := by decide +kernel
  obtain rfl : shape = [9, -1] := Option.some.inj (hshape.symm.trans hfound)
  exact ⟨_, hrun, hshape, hshape₁, hshape₂⟩

end DimEquiv
