import DimEquiv.Analysis
import DimEquiv.Proofs.InferenceOutcome
import DimEquiv.Proofs.SizeReads
import DimEquiv.Role

/-!
# The steps of a run

An analysis without failure visits the assignments of a program one by one. What one assignment does
is written as one equation, and facts about whole runs follow by induction over the assignments,
wherever the borders of the blocks lie.
-/

namespace DimEquiv

theorem Symbols.fetches_observe (isArray : Var → Bool) (t : Symbols) (a : Assign) :
    (t.observe isArray a).fetches = t.fetches := by
  rcases t.observe_cases isArray a with ⟨hsame, -⟩ | ⟨role, henter, -⟩
  · rw [hsame]
  · rw [henter, fetches_enter]

namespace Pass

/-- What the answer of an inference is worth for a target of the declared rank: a shape of that rank
and what is reported about it, or a failure. -/
def settle (rank : Nat) (a : Assign) :
    Except ShapeError Shape → Except ShapeError (Shape × List Diagnostic)
  | .ok shape =>
    if shape.length = rank then .ok (shape, [])
    else .ok (.unknown rank,
      [.unsupportedOperation a.target a.value.op (rankMessage shape.length rank)])
  | .error (.unsupported cause) => .ok (.unknown rank, [cause.diagnostic a.target])
  | .error e => .error e

theorem length_of_settle {rank : Nat} {a : Assign} {answer : Except ShapeError Shape} {shape : Shape}
    {ds : List Diagnostic} (h : settle rank a answer = .ok (shape, ds)) : shape.length = rank := by
  unfold settle at h
  split at h
  · split at h
    · cases h
      assumption
    · cases h
      exact Shape.length_unknown rank
  · cases h
    exact Shape.length_unknown rank
  · cases h

/-- A settled shape was inferred, or nothing is known of it, which is reported of the target. -/
theorem settle_cases {rank : Nat} {a : Assign} {answer : Except ShapeError Shape} {shape : Shape}
    {ds : List Diagnostic} (h : settle rank a answer = .ok (shape, ds)) :
    (answer = .ok shape ∧ ds = []) ∨
      (shape = .unknown rank ∧ ∃ d, ds = [d] ∧ d.target = a.target) := by
  unfold settle at h
  split at h
  · split at h
    · cases h
      exact .inl ⟨rfl, rfl⟩
    · cases h
      exact .inr ⟨rfl, _, rfl, rfl⟩
  · rename_i cause
    cases h
    exact .inr ⟨rfl, _, rfl, cause.target_diagnostic a.target⟩
  · cases h

theorem eq_of_settle {rank : Nat} {a : Assign} {answer : Except ShapeError Shape} {shape : Shape}
    {ds : List Diagnostic} (h : settle rank a answer = .ok (shape, ds)) :
    answer = .ok shape ∨ shape = .unknown rank :=
  (settle_cases h).imp And.left And.left

theorem target_of_settle {rank : Nat} {a : Assign} {answer : Except ShapeError Shape}
    {shape : Shape} {ds : List Diagnostic} (h : settle rank a answer = .ok (shape, ds)) :
    ∀ d ∈ ds, d.target = a.target := by
  rcases settle_cases h with ⟨-, rfl⟩ | ⟨-, d, rfl, htarget⟩
  · exact nofun
  · exact List.forall_mem_singleton.mpr htarget

/-- The failures that end the analysis are passed on, and no others. -/
theorem settle_eq_error_iff {rank : Nat} {a : Assign} {answer : Except ShapeError Shape}
    {e : ShapeError} : settle rank a answer = .error e ↔ answer = .error e ∧ e.isFatal = true := by
  constructor
  · intro h
    unfold settle at h
    split at h
    · split at h <;> cases h
    · cases h
    · rename_i e' hsupported
      cases h
      refine ⟨rfl, ?_⟩
      rw [← Bool.not_eq_false, e.isFatal_eq_false_iff]
      rintro ⟨cause, rfl⟩
      exact hsupported cause rfl
  · rintro ⟨rfl, hfatal⟩
    cases e with
    | unsupported => cases hfatal
    | _ => rfl

/-- The answer and the store of the inference for an assignment, once it was observed. -/
def inferred (options : Options) (a : Assign) (s : State) : Except ShapeError Shape × Store :=
  (((s.observe a).scope options).infer a.target a.value).run s.store

/-- The state behind an inference about which `ds` was reported. -/
def behind (options : Options) (a : Assign) (ds : List Diagnostic) (s : State) : State :=
  { s.observe a with store := (inferred options a s).2, diagnostics := s.diagnostics ++ ds }

theorem run_assign_of_scalar (options : Options) (a : Assign) {s : State}
    (h : s.rank? a.target = none) : (assign options a).run s = (.ok [], s.observe a) := by
  unfold State.rank? at h
  simp only [assign, Attempt.run_bind, Attempt.run_ofState, State.observe, h]
  rfl

theorem run_inferOrReport (options : Options) (rank : Nat) (a : Assign) (s : State) :
    (inferOrReport options rank a).run s =
      let r := ((s.scope options).infer a.target a.value).run s.store
      match r.1 with
      | .error (.unsupported cause) =>
        (.ok (.unknown rank), { s with store := r.2 }.report (cause.diagnostic a.target))
      | answer => (answer, { s with store := r.2 }) := by
  have hrun (r : Except ShapeError Shape × Store)
      (h : ((s.scope options).infer a.target a.value) s.store = r) :
      inferOrReport options rank a s =
        match r.1 with
        | .error (.unsupported cause) =>
          (.ok (.unknown rank), { s with store := r.2 }.report (cause.diagnostic a.target))
        | answer => (answer, { s with store := r.2 }) := by
    simp only [inferOrReport, Attempt.run, State.onStore, h]
    rcases r with ⟨e | _, _⟩
    · cases e <;> rfl
    · rfl
  exact hrun _ rfl

theorem run_assign_of_array (options : Options) (a : Assign) {s : State} {rank : Nat}
    (h : s.rank? a.target = some rank) :
    (assign options a).run s =
      match settle rank a (inferred options a s).1 with
      | .error e => (.error e, { s.observe a with store := (inferred options a s).2 })
      | .ok (shape, ds) =>
        let r := record a shape (behind options a ds s)
        (.ok r.1, r.2) := by
  have hobs : ((s.observe a).types.find? a.target).bind StaticType.rank? = some rank := h
  have hinfer : (((s.observe a).scope options).infer a.target a.value).run (s.observe a).store =
      inferred options a s := rfl
  have hdiags : (s.observe a).diagnostics = s.diagnostics := rfl
  simp only [assign, behind, Attempt.run_bind, Attempt.run_ofState, hobs]
  generalize inferred options a s = r at hinfer ⊢
  generalize s.observe a = s' at hinfer hdiags ⊢
  rw [run_inferOrReport, hinfer, ← hdiags]
  obtain ⟨answer, store⟩ := r
  cases answer with
  | ok shape =>
    by_cases hlen : shape.length = rank
    · simp [settle, fitRank, hlen]
    · simp [settle, fitRank, hlen, State.report]
  | error e =>
    cases e with
    | unsupported cause => simp [settle, fitRank, State.report, Shape.length_unknown]
    | _ => rfl

theorem record_of_conflict (a : Assign) {shape previous : Shape} {s : State}
    (h : s.store.shapes.find? a.target = some previous) (hne : previous ≠ shape) :
    record a shape s = ([], { s with store := (s.store.record a.target shape).2 }.report
      (.conflict a.target previous shape)) := by
  have hout : (s.store.record a.target shape).1 = .conflict previous shape := by
    simp only [Store.record, h, if_neg hne]
  simp only [record]
  generalize s.store.record a.target shape = r at hout ⊢
  obtain ⟨outcome, store⟩ := r
  cases hout
  rfl

theorem record_of_compatible (a : Assign) {shape : Shape} {s : State}
    (h : ∀ previous, s.store.shapes.find? a.target = some previous → previous = shape) :
    record a shape s =
      let r := (SizeRead.ofShape a.target shape a.loc).run
        { s with store := (s.store.record a.target shape).2 }
      (r.1.instructions, { r.2 with store := r.2.store.setSizeVars a.target r.1.sizes }) := by
  have hout : (s.store.record a.target shape).1 = .recorded ∨
      (s.store.record a.target shape).1 = .unchanged := by
    cases hf : s.store.shapes.find? a.target with
    | none => simp [Store.record, hf]
    | some previous => simp [Store.record, hf, h previous hf]
  simp only [record]
  generalize s.store.record a.target shape = r at hout ⊢
  obtain ⟨outcome, store⟩ := r
  rcases hout with rfl | rfl <;> rfl

/-- What recording the shape of a target can lead to. -/
inductive Recorded (a : Assign) (shape : Shape) (s : State) : List Assign → State → Prop
  | conflict {previous : Shape} (h : s.store.shapes.find? a.target = some previous)
    (hne : previous ≠ shape) :
    Recorded a shape s [] ({ s with store := (s.store.record a.target shape).2 }.report
      (.conflict a.target previous shape))
  | sized {r : SizeReads} {t : State}
    (h : ∀ previous, s.store.shapes.find? a.target = some previous → previous = shape)
    (hvisited : SizeRead.VisitedAll a.target 0 shape
      { s with store := (s.store.record a.target shape).2 } r t) :
    Recorded a shape s r.instructions { t with store := t.store.setSizeVars a.target r.sizes }

theorem recorded_record (a : Assign) (shape : Shape) (s : State) :
    Recorded a shape s (record a shape s).1 (record a shape s).2 := by
  by_cases h : ∀ previous, s.store.shapes.find? a.target = some previous → previous = shape
  · rw [record_of_compatible a h]
    exact .sized h (SizeRead.visitedAll_dimensions ..)
  · push Not at h
    obtain ⟨previous, h, hne⟩ := h
    rw [record_of_conflict a h hne]
    exact .conflict h hne

/-- What an assignment that does not fail can lead to. -/
inductive Assigned (options : Options) (a : Assign) (s : State) : List Assign → State → Prop
  | scalar (h : s.rank? a.target = none) : Assigned options a s [] (s.observe a)
  | array {rank : Nat} {shape : Shape} {ds : List Diagnostic} {reads : List Assign} {t : State}
    (h : s.rank? a.target = some rank)
    (hsettle : settle rank a (inferred options a s).1 = .ok (shape, ds))
    (hrecorded : Recorded a shape (behind options a ds s) reads t) : Assigned options a s reads t

theorem assigned_of_run {options : Options} {a : Assign} {s t : State} {reads : List Assign}
    (h : (assign options a).run s = (.ok reads, t)) : Assigned options a s reads t := by
  cases hrank : s.rank? a.target with
  | none =>
    rw [run_assign_of_scalar options a hrank] at h
    cases h
    exact .scalar hrank
  | some rank =>
    rw [run_assign_of_array options a hrank] at h
    cases hsettle : settle rank a (inferred options a s).1 with
    | error e => simp [hsettle] at h
    | ok r =>
      obtain ⟨shape, ds⟩ := r
      simp only [hsettle, Prod.mk.injEq, Except.ok.injEq] at h
      obtain ⟨rfl, rfl⟩ := h
      exact .array hrank hsettle (recorded_record ..)

theorem Recorded.declared {a : Assign} {shape : Shape} {s t : State} {reads : List Assign}
    (h : Recorded a shape s reads t) : s.Declared reads t := by
  cases h with
  | conflict h hne => exact .of_types_eq rfl
  | sized h hvisited =>
    have hbefore : s.Declared [] { s with store := (s.store.record a.target shape).2 } :=
      .of_types_eq rfl
    exact (hbefore.append hvisited.declared).congr rfl

theorem Assigned.declared {options : Options} {a : Assign} {s t : State} {reads : List Assign}
    (h : Assigned options a s reads t) : s.Declared reads t := by
  cases h with
  | scalar h => exact .of_types_eq rfl
  | array h hsettle hrecorded =>
    have hbefore : ∀ ds, s.Declared [] (behind options a ds s) := fun ds => .of_types_eq rfl
    exact (hbefore _).append hrecorded.declared

theorem Recorded.symbols_eq {a : Assign} {shape : Shape} {s t : State} {reads : List Assign}
    (h : Recorded a shape s reads t) : t.symbols = s.symbols := by
  cases h with
  | conflict h hne => rfl
  | sized h hvisited => exact hvisited.symbols_eq

/-- An assignment is observed, and nothing else changes the symbol tables. -/
theorem Assigned.symbols_eq {options : Options} {a : Assign} {s t : State} {reads : List Assign}
    (h : Assigned options a s reads t) : t.symbols = s.symbols.observe s.types.isArray a := by
  cases h with
  | scalar h => rfl
  | array h hsettle hrecorded => exact hrecorded.symbols_eq

/-- The reads that were listed beforehand stay listed. -/
theorem Assigned.fetches_eq {options : Options} {a : Assign} {s t : State} {reads : List Assign}
    (h : Assigned options a s reads t) : t.symbols.fetches = s.symbols.fetches := by
  rw [h.symbols_eq, Symbols.fetches_observe]

/-- The new reads behind an assignment are reads of its target. -/
theorem Assigned.readValue {options : Options} {a b : Assign} {s t : State}
    {reads : List Assign} (h : Assigned options a s reads t) (hb : b ∈ reads) :
    SizeRead.ReadValue a.target b.value := by
  cases h with
  | scalar h => cases hb
  | array h hsettle hrecorded =>
    cases hrecorded with
    | conflict h hne => cases hb
    | sized h hvisited => exact hvisited.readValue hb

/-- A new read is one of the target, of a dimension that the program does not read yet. -/
theorem Assigned.of_staticGetitem {options : Options} {a b : Assign} {s t : State}
    {reads : List Assign} (h : Assigned options a s reads t) (hb : b ∈ reads) {tuple : Var}
    {index : Int} {indexVar : Option Var} (hvalue : b.value = .staticGetitem tuple index indexVar) :
    s.symbols.fetch? a.target index = none ∧ (∃ rank, s.rank? a.target = some rank) ∧
      ∃ b' ∈ reads, b'.target = tuple ∧ b'.value = .getattr a.target Operators.shapeAttr := by
  cases h with
  | scalar h => cases hb
  | array h hsettle hrecorded =>
    cases hrecorded with
    | conflict _ _ => cases hb
    | sized _ hvisited =>
      obtain ⟨-, -, -, -, hfetch, -, htuple⟩ := hvisited.of_staticGetitem hb hvalue
      refine ⟨?_, ⟨_, h⟩, htuple⟩
      rw [Symbols.fetch?, ← Symbols.fetches_observe s.types.isArray s.symbols a]
      exact hfetch

/-- A run without failure over a list of assignments, and the list with the new reads. -/
inductive Emits (options : Options) : State → List Assign → List Assign → State → Prop
  | nil (s : State) : Emits options s [] [] s
  | cons {s t u : State} {a : Assign} {reads as out : List Assign}
    (h : (assign options a).run s = (.ok reads, t)) (hrest : Emits options t as out u) :
    Emits options s (a :: as) (a :: (reads ++ out)) u

/-- A run without failure that adds no read. -/
inductive Silent (options : Options) : State → List Assign → State → Prop
  | nil (s : State) : Silent options s [] s
  | cons {s t u : State} {a : Assign} {as : List Assign}
    (h : (assign options a).run s = (.ok [], t)) (hrest : Silent options t as u) :
    Silent options s (a :: as) u

theorem Emits.append {options : Options} {s t u : State} {as bs out out' : List Assign}
    (h : Emits options s as out t) (h' : Emits options t bs out' u) :
    Emits options s (as ++ bs) (out ++ out') u := by
  induction h with
  | nil => exact h'
  | cons h _ ih =>
    rw [List.cons_append, List.cons_append, List.append_assoc]
    exact .cons h (ih h')

theorem Emits.append_inv {options : Options} {s u : State} {as bs out : List Assign}
    (h : Emits options s (as ++ bs) out u) :
    ∃ t out₁ out₂, Emits options s as out₁ t ∧ Emits options t bs out₂ u ∧ out = out₁ ++ out₂ := by
  induction as generalizing s out with
  | nil => exact ⟨s, [], out, .nil s, h, rfl⟩
  | cons a as ih =>
    cases h with
    | cons h hrest =>
      obtain ⟨t, out₁, out₂, has, hbs, rfl⟩ := ih hrest
      exact ⟨t, _, out₂, .cons h has, hbs, by simp⟩

theorem Silent.append {options : Options} {s t u : State} {as bs : List Assign}
    (h : Silent options s as t) (h' : Silent options t bs u) : Silent options s (as ++ bs) u := by
  induction h with
  | nil => exact h'
  | cons h _ ih => exact .cons h (ih h')

theorem Silent.append_inv {options : Options} {s u : State} {as bs : List Assign}
    (h : Silent options s (as ++ bs) u) : ∃ t, Silent options s as t ∧ Silent options t bs u := by
  induction as generalizing s with
  | nil => exact ⟨s, .nil s, h⟩
  | cons a as ih =>
    cases h with
    | cons h hrest =>
      obtain ⟨t, has, hbs⟩ := ih hrest
      exact ⟨t, .cons h has, hbs⟩

theorem filterMap_assign?_cons (a : Assign) (is : List Instruction) :
    (Instruction.assign a :: is).filterMap Instruction.assign? =
      a :: is.filterMap Instruction.assign? := rfl

theorem emits_instruction {options : Options} {i : Instruction} {is : List Instruction}
    {s t : State} (h : (instruction options i).run s = (.ok is, t)) :
    Emits options s (i.assign?.toList) (is.filterMap Instruction.assign?) t := by
  cases i with
  | assign a =>
    simp only [instruction, Attempt.run_bind] at h
    split at h
    · rename_i reads t' ha
      cases h
      have hmap : (reads.map Instruction.assign).filterMap Instruction.assign? = reads := by
        rw [List.filterMap_map]
        exact List.filterMap_some
      have hone := Emits.cons ha (.nil t)
      rw [List.append_nil] at hone
      rw [filterMap_assign?_cons, hmap]
      exact hone
    · cases h
  | ret => cases h; exact .nil s
  | jump => cases h; exact .nil s
  | branch => cases h; exact .nil s
  | del => cases h; exact .nil s

theorem emits_body {options : Options} {is is' : List Instruction} {s t : State}
    (h : (body options is).run s = (.ok is', t)) :
    Emits options s (is.filterMap Instruction.assign?) (is'.filterMap Instruction.assign?) t := by
  induction is generalizing is' s with
  | nil =>
    cases h
    exact .nil _
  | cons i is ih =>
    simp only [body, Attempt.run_bind] at h
    split at h
    · rename_i first s₁ hfirst
      split at h
      · rename_i rest s₂ hrest
        cases h
        rw [List.filterMap_append]
        have hcons : (i :: is).filterMap Instruction.assign? =
            i.assign?.toList ++ is.filterMap Instruction.assign? := by
          cases hi : i.assign? <;> simp [hi]
        rw [hcons]
        exact (emits_instruction hfirst).append (ih hrest)
      · cases h
    · cases h

theorem emits_blocks {options : Options} {bs bs' : List Block} {s t : State}
    (h : blocks options bs s = (.ok (), t, bs')) :
    Emits options s (bs.flatMap Block.assigns) (bs'.flatMap Block.assigns) t := by
  induction bs generalizing bs' s with
  | nil =>
    cases h
    exact .nil _
  | cons b bs ih =>
    simp only [blocks] at h
    split at h
    · cases h
    · rename_i is s₁ hbody
      obtain ⟨rest, hrest⟩ : ∃ rest, blocks options bs s₁ = (.ok (), t, rest) := by
        generalize blocks options bs s₁ = r at h
        obtain ⟨outcome, s₂, rest⟩ := r
        cases h
        exact ⟨rest, rfl⟩
      rw [hrest] at h
      cases h
      rw [List.flatMap_cons, List.flatMap_cons]
      exact (emits_body hbody).append (ih hrest)

theorem body_of_silent {options : Options} {is : List Instruction} {s t : State}
    (h : Silent options s (is.filterMap Instruction.assign?) t) :
    (body options is).run s = (.ok is, t) := by
  induction is generalizing s with
  | nil =>
    cases h
    rfl
  | cons i is ih =>
    cases i with
    | assign a =>
      rw [filterMap_assign?_cons] at h
      cases h with
      | cons ha hrest =>
        simp only [body, instruction, Attempt.run_bind, Attempt.run_pure, ha, ih hrest]
        rfl
    | _ =>
      rw [List.filterMap_cons_none rfl] at h
      simp only [body, instruction, Attempt.run_bind, Attempt.run_pure, ih h]
      rfl

theorem blocks_of_silent {options : Options} {bs : List Block} {s t : State}
    (h : Silent options s (bs.flatMap Block.assigns) t) :
    blocks options bs s = (.ok (), t, bs) := by
  induction bs generalizing s with
  | nil =>
    cases h
    rfl
  | cons b bs ih =>
    rw [List.flatMap_cons] at h
    obtain ⟨s₁, hbody, hrest⟩ := h.append_inv
    simp only [blocks, body_of_silent hbody, ih hrest]

end Pass

theorem Run.findings_of_isOk {r : Run} (h : r.outcome.isOk = true) :
    r.findings = .ok (.ofState r.state) := by
  unfold Run.findings
  cases ho : r.outcome with
  | ok u => rfl
  | error e =>
    rw [ho] at h
    cases h

/-- A finished analysis has visited all blocks. -/
theorem blocks_of_findings {options : Options} {p : Program} {types : Types}
    {callTypes : CallTypes} {f : Findings}
    (h : (analyze options p types callTypes).findings = .ok f) :
    Pass.blocks options p.blocks (.start p types callTypes) =
        (.ok (), (analyze options p types callTypes).state,
          (analyze options p types callTypes).program.blocks) ∧
      f = .ofState (analyze options p types callTypes).state := by
  have hrun : (Pass.blocks options p.blocks (.start p types callTypes)).1 =
      (analyze options p types callTypes).outcome := rfl
  unfold Run.findings at h
  cases ho : (analyze options p types callTypes).outcome with
  | error e =>
    rw [ho] at h
    cases h
  | ok u =>
    rw [ho] at h hrun
    cases h
    exact ⟨Prod.ext hrun rfl, rfl⟩

/-- A finished analysis is a run over the assignments of the program, and what it found is read off
the last state. -/
theorem emits_of_findings {options : Options} {p : Program} {types : Types}
    {callTypes : CallTypes} {f : Findings}
    (h : (analyze options p types callTypes).findings = .ok f) :
    f = .ofState (analyze options p types callTypes).state ∧
      Pass.Emits options (.start p types callTypes) p.assigns
        (analyze options p types callTypes).program.assigns
        (analyze options p types callTypes).state := by
  obtain ⟨hblocks, hstate⟩ := blocks_of_findings h
  exact ⟨hstate, Pass.emits_blocks hblocks⟩

/-- A run over the assignments that adds no read is an analysis that leaves everything as it is. -/
theorem analyze_of_silent {options : Options} {p : Program} {types : Types}
    {callTypes : CallTypes} {t : State}
    (h : Pass.Silent options (.start p types callTypes) p.assigns t) :
    (analyze options p types callTypes).findings = .ok (.ofState t) ∧
      (analyze options p types callTypes).program = p ∧
      (analyze options p types callTypes).state = t := by
  have hblocks := Pass.blocks_of_silent h
  simp only [analyze, Run.findings, hblocks]
  exact ⟨rfl, trivial, trivial⟩

/-! ### Points of a run -/

/-- The instructions of a program, blocks in stored order. -/
def Program.instructions (p : Program) : List Instruction := p.blocks.flatMap Block.body

/-- An analysis comes to the state `t` when it has the instructions `before` behind it. What follows
them may fail. -/
structure Reaches (options : Options) (p : Program) (types : Types) (callTypes : CallTypes)
    (before : List Instruction) (t : State) : Prop where
  initial : before <+: p.instructions
  run : ∃ out, (Pass.body options before).run (.start p types callTypes) = (.ok out, t)

namespace Pass

theorem run_instruction_assign (options : Options) (a : Assign) (s : State) :
    (instruction options (.assign a)).run s =
      (((assign options a).run s).1.map fun reads => .assign a :: reads.map .assign,
        ((assign options a).run s).2) := by
  rw [instruction, Attempt.run_bind]
  rcases (assign options a).run s with ⟨_ | reads, t⟩ <;> rfl

theorem run_body_cons_of_ok {options : Options} {i : Instruction} {first : List Instruction}
    {s t : State} (h : (instruction options i).run s = (.ok first, t)) (is : List Instruction) :
    (body options (i :: is)).run s =
      (((body options is).run t).1.map (first ++ ·), ((body options is).run t).2) := by
  rw [body, Attempt.run_bind_of_ok h, Attempt.run_bind]
  rcases (body options is).run t with ⟨_ | rest, u⟩ <;> rfl

theorem run_body_cons_of_error {options : Options} {i : Instruction} {e : ShapeError}
    {s t : State} (h : (instruction options i).run s = (.error e, t)) (is : List Instruction) :
    (body options (i :: is)).run s = (.error e, t) := by
  rw [body, Attempt.run_bind_of_error h]

/-- The instructions are all behind a run, or one of them has ended it. -/
theorem run_body_cases (options : Options) (is : List Instruction) (s : State) :
    (∃ out t, (body options is).run s = (.ok out, t)) ∨
      ∃ before i after out e t u, is = before ++ i :: after ∧
        (body options before).run s = (.ok out, t) ∧
        (instruction options i).run t = (.error e, u) ∧ (body options is).run s = (.error e, u) := by
  induction is generalizing s with
  | nil => exact .inl ⟨[], s, rfl⟩
  | cons i is ih =>
    rcases hi : (instruction options i).run s with ⟨e | first, t⟩
    · exact .inr ⟨[], i, is, [], e, s, t, rfl, rfl, hi, run_body_cons_of_error hi is⟩
    · rcases ih t with ⟨out, u, hrun⟩ | ⟨before, j, after, out, e, u, v, rfl, hrun, hj, hfail⟩
      · exact .inl ⟨first ++ out, u, by rw [run_body_cons_of_ok hi, hrun]; rfl⟩
      · refine .inr ⟨i :: before, j, after, first ++ out, e, u, v, rfl, ?_, hj, ?_⟩
        · rw [run_body_cons_of_ok hi, hrun]
          rfl
        · rw [run_body_cons_of_ok hi, hfail]
          rfl

theorem run_body_append_of_ok {options : Options} {is first : List Instruction} {s t : State}
    (h : (body options is).run s = (.ok first, t)) (js : List Instruction) :
    (body options (is ++ js)).run s =
      (((body options js).run t).1.map (first ++ ·), ((body options js).run t).2) := by
  induction is generalizing first s with
  | nil =>
    obtain ⟨hfirst, rfl⟩ := Prod.mk.inj h
    obtain rfl := Except.ok.inj hfirst
    rcases hjs : (body options js).run s with ⟨_ | rest, u⟩ <;> exact hjs
  | cons i is ih =>
    rcases hi : (instruction options i).run s with ⟨e | out, u⟩
    · rw [run_body_cons_of_error hi] at h
      cases h
    · rw [run_body_cons_of_ok hi] at h
      rcases hrest : (body options is).run u with ⟨e | rest, v⟩
      · rw [hrest] at h
        cases h
      · rw [hrest] at h
        obtain ⟨hfirst, rfl⟩ := Prod.mk.inj h
        obtain rfl := Except.ok.inj hfirst
        rw [List.cons_append, run_body_cons_of_ok hi, ih hrest]
        rcases (body options js).run v with ⟨_ | last, w⟩
        · rfl
        · simp [Except.map]

theorem run_body_append_of_error {options : Options} {is : List Instruction} {e : ShapeError}
    {s t : State} (h : (body options is).run s = (.error e, t)) (js : List Instruction) :
    (body options (is ++ js)).run s = (.error e, t) := by
  induction is generalizing s with
  | nil => cases h
  | cons i is ih =>
    rcases hi : (instruction options i).run s with ⟨e' | out, u⟩
    · rw [run_body_cons_of_error hi] at h
      rw [List.cons_append, run_body_cons_of_error hi, h]
    · rw [run_body_cons_of_ok hi] at h
      rcases hrest : (body options is).run u with ⟨e' | rest, v⟩
      · rw [hrest] at h
        cases h
        rw [List.cons_append, run_body_cons_of_ok hi, ih hrest]
        rfl
      · rw [hrest] at h
        cases h

theorem blocks_cons_of_ok {options : Options} {b : Block} {is : List Instruction} {s t : State}
    (h : (body options b.body).run s = (.ok is, t)) (bs : List Block) :
    blocks options (b :: bs) s =
      ((blocks options bs t).1, (blocks options bs t).2.1,
        { b with body := is } :: (blocks options bs t).2.2) := by
  rw [blocks, h]

theorem blocks_cons_of_error {options : Options} {b : Block} {e : ShapeError} {s t : State}
    (h : (body options b.body).run s = (.error e, t)) (bs : List Block) :
    blocks options (b :: bs) s = (.error e, t, b :: bs) := by
  rw [blocks, h]

/-- The borders of the blocks make no difference to a run. -/
theorem blocks_eq_body (options : Options) (bs : List Block) (s : State) :
    (blocks options bs s).1 = ((body options (bs.flatMap Block.body)).run s).1.map (fun _ => ()) ∧
      (blocks options bs s).2.1 = ((body options (bs.flatMap Block.body)).run s).2 := by
  induction bs generalizing s with
  | nil => exact ⟨rfl, rfl⟩
  | cons b bs ih =>
    rw [List.flatMap_cons, blocks]
    rcases hb : (body options b.body).run s with ⟨e | first, t⟩
    · rw [run_body_append_of_error hb]
      exact ⟨rfl, rfl⟩
    · obtain ⟨houtcome, hstate⟩ := ih t
      rw [run_body_append_of_ok hb]
      refine ⟨houtcome.trans ?_, hstate⟩
      cases ((body options (bs.flatMap Block.body)).run t).1 <;> rfl

end Pass

theorem reaches_of_isOk {options : Options} {p : Program} {types : Types} {callTypes : CallTypes}
    {before : List Instruction} (hbefore : before <+: p.instructions)
    (h : ((Pass.body options before).run (.start p types callTypes)).1.isOk = true) :
    Reaches options p types callTypes before
      ((Pass.body options before).run (.start p types callTypes)).2 := by
  refine ⟨hbefore, ?_⟩
  generalize (Pass.body options before).run (.start p types callTypes) = r at h ⊢
  obtain ⟨_ | out, t⟩ := r
  · cases h
  · exact ⟨out, rfl⟩

/-- A run comes to the end of the program, or an instruction that it reaches ends it. -/
theorem analyze_reaches (options : Options) (p : Program) (types : Types) (callTypes : CallTypes) :
    ((analyze options p types callTypes).outcome = .ok () ∧
      Reaches options p types callTypes p.instructions (analyze options p types callTypes).state) ∨
    ∃ before i after e t, p.instructions = before ++ i :: after ∧
      Reaches options p types callTypes before t ∧
      (Pass.instruction options i).run t = (.error e, (analyze options p types callTypes).state) ∧
      (analyze options p types callTypes).outcome = .error e := by
  obtain ⟨houtcome, hstate⟩ := Pass.blocks_eq_body options p.blocks (.start p types callTypes)
  change (analyze options p types callTypes).outcome = _ at houtcome
  change (analyze options p types callTypes).state = _ at hstate
  change _ = ((Pass.body options p.instructions).run _).1.map _ at houtcome
  change _ = ((Pass.body options p.instructions).run _).2 at hstate
  rcases Pass.run_body_cases options p.instructions (.start p types callTypes) with
    ⟨out, t, hrun⟩ | ⟨before, i, after, out, e, t, u, hsplit, hbefore, hi, hrun⟩
  · rw [hrun] at houtcome hstate
    rw [houtcome, hstate]
    exact .inl ⟨rfl, List.prefix_refl _, out, hrun⟩
  · rw [hrun] at houtcome hstate
    rw [houtcome, hstate]
    exact .inr ⟨before, i, after, e, t, hsplit, ⟨⟨i :: after, hsplit.symm⟩, out, hbefore⟩, hi, rfl⟩

end DimEquiv
