import DimEquiv.Proofs.PlannedClasses
import DimEquiv.Proofs.SpecialClasses
import DimEquiv.Proofs.ToldDefinitions

/-!
# The order of instructions

In a program that assigns variables once, and before it mentions them, the order of the instructions
decides which classes are united when and which ids they get, but not which dimensions are equal. The
analysis of such a program finds what its plan says, and the plan of a program has no order.
-/

namespace DimEquiv

open Store

variable {options : Options} {p : Program} {types : Types} {done rest : List Assign} {a : Assign}

namespace Program.Ordered

/-- A rule reads arrays that are settled by the assignments before it. -/
theorem settled_of_mem_reads (hp : p.Ordered) (htyped : p.Typed types)
    (hsplit : p.assigns = done ++ a :: rest) {x : Var}
    (hx : x ∈ ((p.reading options types).ruleOf a.target a.value).reads types.isArray) :
    p.Settled types done x :=
  Reading.settled_of_mem_reads
    (fun _ _ _ hfunc hcallee => hp.receiver_settled htyped hsplit hfunc hcallee) a.target
    (fun _ => hp.settled htyped hsplit) hx

/-- An assignment derives dimensions from those of arrays assigned before it. -/
theorem mem_of_source (hp : p.Ordered) (htyped : p.Typed types)
    (hsplit : p.assigns = done ++ a :: rest) {group : List Dimension}
    (h : group ∈ ((p.plan options types).derivation a).sources) {d : Dimension} (hd : d ∈ group) :
    d.array ∈ done.map Assign.target := by
  simp only [plan] at h
  split at h
  · obtain ⟨hreads, hrank⟩ := ShapeRule.mem_reads_of_source h hd
    refine (hp.settled_of_mem_reads htyped hsplit hreads).2.resolve_right fun hnever => ?_
    rw [rank?, if_neg hnever] at hrank
    cases hrank
  · cases h

/-- The variables of an assignment are settled when the assignment itself is counted. -/
theorem settled_vars (hp : p.Ordered) (htyped : p.Typed types)
    (hsplit : p.assigns = done ++ a :: rest) {x : Var} (hx : x ∈ a.value.vars) :
    p.Settled types (done ++ [a]) x := by
  have ha : a ∈ p.assigns := hsplit ▸ List.mem_append_right _ List.mem_cons_self
  by_cases harg : ∃ index name, a.value = .arg index name
  · obtain ⟨index, name, hvalue⟩ := harg
    have htarget := hp.parameters a ha index name hvalue
    rw [hvalue] at hx
    rw [List.mem_singleton.mp hx, ← htarget]
    exact ⟨(htyped.assign ha).1, .inl (by simp)⟩
  · push Not at harg
    have hmentions := Expr.mem_mentions.mpr ⟨hx, harg⟩
    exact (hp.settled htyped hsplit hmentions).mono (List.subset_append_left _ _)

end Program.Ordered

/-! ### The steps of a run -/

/-- A run over the assignments in `done` has found what the plan of the program says of them. -/
structure State.Follows (options : Options) (p : Program) (types : Types) (done : List Assign)
    (s : State) : Prop where
  symbols : s.symbols.Tells p types.isArray done
  kept : ∀ x type, types.find? x = some type → s.types.find? x = some type
  rank?_eq : ∀ x, s.rank? x = (types.find? x).bind StaticType.rank?
  reserved : s.store.Reserved
  solves : s.store.Solves (p.plan options types) done

namespace State.Follows

variable {s t : State} {reads : List Assign}

theorem start (options : Options) (p : Program) (types : Types) (callTypes : CallTypes) :
    Follows options p types [] (.start p types callTypes) where
  symbols := Symbols.tells_scan_empty p p types.isArray
  kept := fun _ _ hx => hx
  rank?_eq := fun _ => rfl
  reserved := .empty
  solves := solves_empty _

theorem isArray_eq (h : s.Follows options p types done) : s.types.isArray = types.isArray :=
  isArray_eq_of_rank?_eq h.rank?_eq

theorem symbols_observe (h : s.Follows options p types done) (hp : p.Ordered)
    (htyped : p.Typed types) (hsplit : p.assigns = done ++ a :: rest) :
    (s.observe a).symbols.Tells p types.isArray (done ++ [a]) := by
  have ha : a ∈ p.assigns := hsplit ▸ List.mem_append_right _ List.mem_cons_self
  change (s.symbols.observe s.types.isArray a).Tells p types.isArray (done ++ [a])
  rw [h.isArray_eq]
  refine h.symbols.observe (Program.definition?_of_mem hp.once ha)
    (hp.definedBeforeUse.notMem hsplit) fun y hy => ?_
  exact (hp.settled htyped hsplit hy).2.imp_right Program.definition?_eq_none

/-- The inference for an array does what the plan derives. -/
theorem followed (h : s.Follows options p types done) (hp : p.Ordered) (htyped : p.Typed types)
    (hsplit : p.assigns = done ++ a :: rest) (harray : types.isArray a.target = true) :
    s.store.Followed ((p.plan options types).derivation a) (Pass.inferred options a s).1
      (Pass.inferred options a s).2 := by
  have hsplit' : p.assigns = (done ++ [a]) ++ rest := by rw [hsplit, List.append_cons]
  have ha : a ∈ p.assigns := hsplit ▸ List.mem_append_right _ List.mem_cons_self
  have hagrees := (h.symbols_observe hp htyped hsplit).agrees hp htyped hsplit' h.kept options
  have hrule : ((s.observe a).scope options).reading.ruleOf a.target a.value =
      (p.reading options types).ruleOf a.target a.value :=
    hagrees.ruleOf_eq a.target fun _ => hp.settled_vars htyped hsplit
  have hisArray : ((s.observe a).scope options).isArray = types.isArray := h.isArray_eq
  have hrun : Pass.inferred options a s =
      (((p.reading options types).ruleOf a.target a.value).apply types.isArray).run s.store := by
    rw [← hrule, ← hisArray, Scope.apply_ruleOf]
    rfl
  rw [hrun]
  simp only [Program.plan, harray, if_true]
  refine ShapeRule.followed h.reserved _ (fun x hx => ?_) fun name rank hparameter => ?_
  · rw [h.solves.recorded]
    rcases (hp.settled_of_mem_reads htyped hsplit hx).2 with hmem | hnever
    · rw [if_pos hmem]
      rfl
    · have hnone : p.rank? types x = none := if_neg hnever
      rw [hnone]
      split
      · exact hnone.symm
      · rfl
  · obtain ⟨index, hvalue⟩ := Reading.exists_arg_of_ruleOf hparameter
    have hrecorded := h.solves.recorded a.target
    rw [if_neg (hp.definedBeforeUse.notMem hsplit), Option.map_eq_none_iff] at hrecorded
    rw [← hp.parameters a ha index name hvalue, hrecorded]

theorem rank?_plan (ha : a ∈ p.assigns) :
    (p.plan options types).rank? a.target = (types.find? a.target).bind StaticType.rank? :=
  if_pos (List.mem_map_of_mem ha)

theorem assigned (h : s.Follows options p types done) (hp : p.Ordered) (htyped : p.Typed types)
    (hsplit : p.assigns = done ++ a :: rest) (hassigned : Pass.Assigned options a s reads t) :
    t.Follows options p types (done ++ [a]) ∧ (p.plan options types).derivation a ≠ .failure := by
  have ha : a ∈ p.assigns := hsplit ▸ List.mem_append_right _ List.mem_cons_self
  have hnew := hp.definedBeforeUse.notMem hsplit
  have hdeclared := hassigned.declared
  have hkept : ∀ x type, types.find? x = some type → t.types.find? x = some type :=
    fun x type hx => hdeclared.kept x type (h.kept x type hx)
  have hrank?_eq : ∀ x, t.rank? x = (types.find? x).bind StaticType.rank? :=
    fun x => (hdeclared.rank?_eq x).trans (h.rank?_eq x)
  have hreserved := (hassigned.evolution h.reserved).reserved h.reserved
  have hsymbols := h.symbols_observe hp htyped hsplit
  cases hassigned with
  | scalar hscalar =>
    rw [h.rank?_eq] at hscalar
    have harray : types.isArray a.target = false := by
      rw [Bool.eq_false_iff, Ne, types.isArray_iff_rank?, hscalar]
      simp
    have hderivation : (p.plan options types).derivation a = .unknown := by
      simp only [Program.plan, harray]
      rfl
    refine ⟨⟨hsymbols, hkept, hrank?_eq, hreserved, ?_⟩, by simp [hderivation]⟩
    exact h.solves.append_scalar hnew ((rank?_plan ha).trans hscalar) hderivation
  | @array rank shape ds _ _ hrank hsettle hrecorded =>
    rw [h.rank?_eq] at hrank
    have harray : types.isArray a.target = true := (types.isArray_iff_rank? _).mpr ⟨rank, hrank⟩
    have hfollowed := h.followed hp htyped hsplit harray
    have hfitted := hfollowed.fitted hsettle
    refine ⟨⟨?_, hkept, hrank?_eq, hreserved, ?_⟩, fun hfailure => ?_⟩
    · rw [hrecorded.symbols_eq]
      exact hsymbols
    · have hnone : (Pass.inferred options a s).2.shapes.find? a.target = none := by
        have hbefore := hfitted.rank_eq a.target
        rwa [h.solves.recorded, if_neg hnew, Option.map_eq_none_iff] at hbefore
      have hextended : Extended (p.plan options types) done a rank shape s.store
          (Pass.inferred options a s).2 t.store := by
        refine ⟨h.solves, hnew, (rank?_plan ha).trans hrank,
          fun _ hgroup _ => hp.mem_of_source htyped hsplit hgroup, hfitted, fun x => ?_⟩
        have hbehind : (Pass.behind options a ds s).store = (Pass.inferred options a s).2 := rfl
        rw [hrecorded.find?_shapes, find?_shapes_record, hbehind]
        split
        · rw [hnone]
        · rfl
      exact hextended.solves_append
    · obtain ⟨e, he⟩ := (hfollowed.settle_eq_error_iff rank a).mpr hfailure
      rw [hsettle] at he
      cases he

/-- An assignment that fails has a derivation that does. -/
theorem derivation_of_error (h : s.Follows options p types done) (hp : p.Ordered)
    (htyped : p.Typed types) (hsplit : p.assigns = done ++ a :: rest) {e : ShapeError}
    (hfail : (Pass.assign options a).run s = (.error e, t)) :
    (p.plan options types).derivation a = .failure := by
  cases hrank : s.rank? a.target with
  | none =>
    rw [Pass.run_assign_of_scalar options a hrank] at hfail
    cases hfail
  | some rank =>
    rw [Pass.run_assign_of_array options a hrank] at hfail
    rw [h.rank?_eq] at hrank
    have harray : types.isArray a.target = true := (types.isArray_iff_rank? _).mpr ⟨rank, hrank⟩
    refine ((h.followed hp htyped hsplit harray).settle_eq_error_iff rank a).mp ?_
    split at hfail
    · exact ⟨_, by assumption⟩
    · cases hfail

theorem emits {as out : List Assign} (h : s.Follows options p types done) (hp : p.Ordered)
    (htyped : p.Typed types) (hsplit : p.assigns = done ++ (as ++ rest))
    (hrun : Pass.Emits options s as out t) :
    t.Follows options p types (done ++ as) ∧
      ∀ a ∈ as, (p.plan options types).derivation a ≠ .failure := by
  induction hrun generalizing done with
  | nil => exact ⟨by rwa [List.append_nil], nofun⟩
  | @cons s t u a reads as out ha hrest ih =>
    obtain ⟨hstep, hderivation⟩ := h.assigned hp htyped hsplit (Pass.assigned_of_run ha)
    rw [List.cons_append, List.append_cons] at hsplit
    obtain ⟨hfollows, hall⟩ := ih hstep hsplit
    rw [← List.append_cons] at hfollows
    exact ⟨hfollows, List.forall_mem_cons.mpr ⟨hderivation, hall⟩⟩

end State.Follows

/-! ### The analysis finds what the plan says -/

theorem Program.assigns_eq_filterMap (p : Program) :
    p.assigns = p.instructions.filterMap Instruction.assign? := by
  rw [assigns, instructions, List.filterMap_flatMap]
  rfl

/-- The analysis ends without failure, and has solved the plan, exactly when no derivation fails. -/
theorem analyze_follows (options : Options) (hp : p.Ordered) (htyped : p.Typed types)
    (callTypes : CallTypes) :
    ((analyze options p types callTypes).outcome.isOk = true ∧
      (analyze options p types callTypes).state.Follows options p types p.assigns ∧
        ∀ a ∈ p.assigns, (p.plan options types).derivation a ≠ .failure) ∨
      (analyze options p types callTypes).outcome.isOk = false ∧
        ∃ a ∈ p.assigns, (p.plan options types).derivation a = .failure := by
  have hstart := State.Follows.start options p types callTypes
  have hassigns := p.assigns_eq_filterMap
  rcases analyze_reaches options p types callTypes with
    ⟨hok, hreaches⟩ | ⟨before, i, after, e, t, hsplit, hreaches, hfail, herror⟩
  · obtain ⟨out, hrun⟩ := hreaches.run
    have hall : p.assigns = [] ++ (p.instructions.filterMap Instruction.assign? ++ []) := by
      rw [List.nil_append, List.append_nil, hassigns]
    have hfollows := hstart.emits hp htyped hall (Pass.emits_body hrun)
    rw [List.nil_append, ← hassigns] at hfollows
    exact .inl ⟨by rw [hok]; rfl, hfollows⟩
  · obtain ⟨out, hrun⟩ := hreaches.run
    cases i with
    | assign a =>
      rw [hsplit, List.filterMap_append, Pass.filterMap_assign?_cons] at hassigns
      obtain ⟨hfollows, -⟩ := hstart.emits hp htyped hassigns (Pass.emits_body hrun)
      rw [Pass.instruction, Attempt.run_bind] at hfail
      split at hfail
      · cases hfail
      · rename_i e' t' hassign
        refine .inr ⟨by rw [herror]; rfl, a, ?_, ?_⟩
        · rw [hassigns]
          exact List.mem_append_right _ List.mem_cons_self
        · exact hfollows.derivation_of_error hp htyped hassigns hassign
    | _ => cases hfail

/-- Dimension `i` of the array is unknown. -/
def Findings.Unknown (f : Findings) (x : Var) (i : Int) : Prop :=
  (f.shapeOf? x).bind (fun shape => shape.dim? i) = some Shape.noClass

theorem Findings.dim?_ofState (s : State) (x : Var) (i : Int) :
    ((ofState s).shapeOf? x).bind (fun shape => shape.dim? i) =
      if 0 ≤ i then s.store.classAt? ⟨x, i.toNat⟩ else none := by
  simp only [ofState, shapeOf?, Shape.dim?, classAt?]
  cases s.store.shapes.find? x <;> simp

theorem Findings.classOf?_ofState (s : State) (x : Var) (i : Int) :
    (ofState s).classOf? x i = if 0 ≤ i then s.store.known? ⟨x, i.toNat⟩ else none := by
  rw [classOf?, dim?_ofState]
  split <;> rfl

theorem Findings.equivalentDims_ofState (s : State) (x : Var) (i : Int) (y : Var) (j : Int) :
    (ofState s).equivalentDims x i y j = true ↔
      0 ≤ i ∧ 0 ≤ j ∧ s.store.Same ⟨x, i.toNat⟩ ⟨y, j.toNat⟩ := by
  rw [equivalentDims_iff, classOf?_ofState, classOf?_ofState]
  by_cases hi : 0 ≤ i
  · by_cases hj : 0 ≤ j
    · simp [hi, hj, Same]
    · simp [hj]
  · simp [hi]

/-- The analysis of a program finds no more and no fewer equal dimensions than its plan gives. -/
theorem findings_of_plan {callTypes : CallTypes} {f : Findings} (hp : p.Ordered)
    (htyped : p.Typed types) (h : (analyze options p types callTypes).findings = .ok f) :
    (∀ x i, f.Unknown x i ↔ 0 ≤ i ∧ (p.plan options types).Hidden p.assigns ⟨x, i.toNat⟩) ∧
      ∀ x i y j, f.equivalentDims x i y j = true ↔ 0 ≤ i ∧ 0 ≤ j ∧
        (p.plan options types).Equal p.assigns ⟨x, i.toNat⟩ ⟨y, j.toNat⟩ := by
  have hsolves : (analyze options p types callTypes).state.store.Solves (p.plan options types)
      p.assigns := by
    rcases analyze_follows options hp htyped callTypes with ⟨-, hfollows, -⟩ | ⟨herror, -⟩
    · exact hfollows.solves
    · unfold Run.findings at h
      cases ho : (analyze options p types callTypes).outcome with
      | ok u =>
        rw [ho] at herror
        cases herror
      | error e =>
        rw [ho] at h
        cases h
  obtain ⟨rfl, -⟩ := emits_of_findings h
  refine ⟨fun x i => ?_, fun x i y j => ?_⟩
  · rw [Findings.Unknown, Findings.dim?_ofState, ← hsolves.hidden_iff]
    by_cases hi : 0 ≤ i <;> simp [hi]
  · rw [Findings.equivalentDims_ofState, hsolves.same_iff]

theorem isOk_iff_of_plan (options : Options) (hp : p.Ordered) (htyped : p.Typed types)
    (callTypes : CallTypes) : (analyze options p types callTypes).outcome.isOk = true ↔
      ∀ a ∈ p.assigns, (p.plan options types).derivation a ≠ .failure := by
  rcases analyze_follows options hp htyped callTypes with ⟨hok, -, hall⟩ | ⟨herror, a, ha, hfailure⟩
  · exact iff_of_true hok hall
  · refine iff_of_false (fun hok => ?_) fun hall => hall a ha hfailure
    rw [herror] at hok
    cases hok

/-- The order of the instructions makes no difference, as long as variables are assigned once and
before they are mentioned: either both analyses fail, or both end and find the same dimensions equal
and the same dimensions unknown. -/
theorem analyze_perm {q : Program} (options : Options) (hp : p.Ordered) (hq : q.Ordered)
    (hptyped : p.Typed types) (hqtyped : q.Typed types)
    (hperm : p.instructions.Perm q.instructions) (callTypes callTypes' : CallTypes) :
    (analyze options p types callTypes).outcome.isOk =
        (analyze options q types callTypes').outcome.isOk ∧
      ∀ f g, (analyze options p types callTypes).findings = .ok f →
        (analyze options q types callTypes').findings = .ok g →
        (∀ x i y j, f.equivalentDims x i y j = g.equivalentDims x i y j) ∧
          ∀ x i, f.Unknown x i ↔ g.Unknown x i := by
  have hassigns : p.assigns.Perm q.assigns := by
    rw [p.assigns_eq_filterMap, q.assigns_eq_filterMap]
    exact hperm.filterMap _
  have hplan := Program.plan_perm hp.once hassigns options types
  obtain ⟨hhidden, hequal⟩ := (p.plan options types).equal_perm hassigns
  constructor
  · rw [Bool.eq_iff_iff, isOk_iff_of_plan options hp hptyped, isOk_iff_of_plan options hq hqtyped,
      hplan]
    simp only [hassigns.mem_iff]
  · intro f g hf hg
    obtain ⟨hpunknown, hpequal⟩ := findings_of_plan hp hptyped hf
    obtain ⟨hqunknown, hqequal⟩ := findings_of_plan hq hqtyped hg
    refine ⟨fun x i y j => ?_, fun x i => ?_⟩
    · rw [Bool.eq_iff_iff, hpequal, hqequal, hequal, hplan]
    · rw [hpunknown, hqunknown, hhidden, hplan]

/-- Two sums that share an operand, an array apart from them, and one of which nothing is known. -/
def chainProgram : Program where
  name := "chain"
  argNames := ["a", "b", "c", "d"]
  blocks := [⟨0, [
    .assign ⟨"d", .arg 3 "d", none, 0⟩,
    .assign ⟨"a", .arg 0 "a", none, 1⟩,
    .assign ⟨"b", .arg 1 "b", none, 2⟩,
    .assign ⟨"c", .arg 2 "c", none, 3⟩,
    .assign ⟨"s", .binop "+" "a" "b", none, 4⟩,
    .assign ⟨"t", .binop "+" "b" "c", none, 5⟩,
    .assign ⟨"v", .getattr "t" "real", none, 6⟩,
    .ret "v" none]⟩]

/-- The same instructions, with two parameters and the two sums in the other order. -/
def swappedProgram : Program where
  name := "chain"
  argNames := ["a", "b", "c", "d"]
  blocks := [⟨0, [
    .assign ⟨"a", .arg 0 "a", none, 1⟩,
    .assign ⟨"d", .arg 3 "d", none, 0⟩,
    .assign ⟨"b", .arg 1 "b", none, 2⟩,
    .assign ⟨"c", .arg 2 "c", none, 3⟩,
    .assign ⟨"t", .binop "+" "b" "c", none, 5⟩,
    .assign ⟨"s", .binop "+" "a" "b", none, 4⟩,
    .assign ⟨"v", .getattr "t" "real", none, 6⟩,
    .ret "v" none]⟩]

def chainTypes : Types :=
  .ofList [("a", .arrayOf 1), ("b", .arrayOf 1), ("c", .arrayOf 1), ("d", .arrayOf 1),
    ("s", .arrayOf 1), ("t", .arrayOf 1), ("v", .arrayOf 1)]

theorem analyze_perm_swapped :
    chainProgram.Ordered ∧ swappedProgram.Ordered ∧ chainProgram.Typed chainTypes ∧
      swappedProgram.Typed chainTypes ∧
      chainProgram.instructions.Perm swappedProgram.instructions ∧
      ∃ f g, (analyze .standard chainProgram chainTypes (.empty 7)).findings = .ok f ∧
        (analyze .standard swappedProgram chainTypes (.empty 7)).findings = .ok g ∧
        (∀ x i y j, f.equivalentDims x i y j = g.equivalentDims x i y j) ∧
        (∀ x i, f.Unknown x i ↔ g.Unknown x i) ∧ f.equivalentDims "a" 0 "c" 0 = true ∧
        f.Unknown "v" 0 ∧ f.shapeOf? "d" = some [1] ∧ g.shapeOf? "d" = some [2] := by
  have hordered : chainProgram.Ordered :=
    ⟨by decide, by simp [chainProgram, Program.assigns, Block.assigns, Instruction.assign?],
      by decide +kernel⟩
  have hswapped : swappedProgram.Ordered :=
    ⟨by decide, by simp [swappedProgram, Program.assigns, Block.assigns, Instruction.assign?],
      by decide +kernel⟩
  have hperm : chainProgram.instructions.Perm swappedProgram.instructions :=
    (List.Perm.swap _ _ _).trans (.cons _ (.cons _ (.cons _ (.cons _ (.swap _ _ _)))))
  have hf : (analyze .standard chainProgram chainTypes (.empty 7)).findings =
      .ok (.ofState (analyze .standard chainProgram chainTypes (.empty 7)).state) :=
    Run.findings_of_isOk (by decide +kernel)
  have hg : (analyze .standard swappedProgram chainTypes (.empty 7)).findings =
      .ok (.ofState (analyze .standard swappedProgram chainTypes (.empty 7)).state) :=
    Run.findings_of_isOk (by decide +kernel)
  have htyped : chainProgram.Typed chainTypes := by decide
  have htyped' : swappedProgram.Typed chainTypes := by decide
  obtain ⟨-, hsame⟩ :=
    analyze_perm .standard hordered hswapped htyped htyped' hperm (.empty 7) (.empty 7)
  obtain ⟨hequal, hunknown⟩ := hsame _ _ hf hg
  refine ⟨hordered, hswapped, htyped, htyped', hperm, _, _, hf, hg, hequal, hunknown, ?_⟩
  simp only [Findings.Unknown]
  decide +kernel

end DimEquiv
