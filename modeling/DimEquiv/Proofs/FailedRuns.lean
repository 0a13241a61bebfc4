import DimEquiv.Proofs.Reanalysis
import DimEquiv.Proofs.SizeBlindness
import DimEquiv.Proofs.SplicedReads

/-!
# Runs that fail

A failure keeps the blocks before the failing one with their reads, and the failing block and all
later ones as they were. The types and call signatures of reads for the failing block stay behind
without their assignments. A second run finds the reads of the earlier blocks in the program. In the
failing block it may read dimensions under other names, which inference never sees, and so it comes
to the same failure.
-/

namespace DimEquiv

namespace Store.SameShapes

variable {s t u : Store}

theorem symm (h : s.SameShapes t) : t.SameShapes s := ⟨h.shapes.symm, h.nextClass.symm⟩

theorem trans (h : s.SameShapes t) (h' : t.SameShapes u) : s.SameShapes u :=
  ⟨h'.shapes.trans h.shapes, h'.nextClass.trans h.nextClass⟩

theorem record (h : s.SameShapes t) (x : Var) (shape : Shape) :
    (s.record x shape).2.SameShapes (t.record x shape).2 := by
  unfold Store.record
  rw [h.shapes]
  split
  · exact ⟨rfl, h.nextClass⟩
  · split
    · exact h
    · exact ⟨rfl, h.nextClass⟩

end Store.SameShapes

namespace State

/-- The two states tell the same of the variables in `known` and record the same shapes. They may
differ in the size values and in what was reported. -/
structure Alike (known : Var → Prop) (s t : State) : Prop where
  store : s.store.SameShapes t.store
  symbols : s.symbols.Similar known t.symbols
  typed : ∀ x, known x → ∃ type, s.types.find? x = some type
  types : ∀ x, known x → t.types.find? x = s.types.find? x

variable {known : Var → Prop} {s s' t t' : State}

theorem Similar.alike (h : Similar known s t) : Alike known s t where
  store := by
    rw [h.store]
    exact ⟨rfl, rfl⟩
  symbols := h.symbols
  typed := h.typed
  types := h.types

/-- With the same store and the same reports the two would be similar. -/
theorem Alike.similar (h : Alike known s t) :
    Similar known s { t with store := s.store, diagnostics := s.diagnostics } :=
  ⟨rfl, h.symbols, rfl, h.typed, h.types⟩

/-- Both states go on in the same way, and the variables that they declare are not known. -/
theorem Alike.step (h : Alike known s t) {a : Assign} {reads reads' : List Assign}
    (hvars : ∀ x ∈ a.value.vars, known x) (hstore : s'.store.SameShapes t'.store)
    (hsymbols : s'.symbols = (s.observe a).symbols) (hsymbols' : t'.symbols = (t.observe a).symbols)
    (hdeclared : s.Declared reads s') (hdeclared' : t.Declared reads' t') : Alike known s' t' := by
  obtain ⟨htyped, htypes⟩ := h.similar.types_of_declared hdeclared
  refine ⟨hstore, ?_, htyped, fun x hx => ?_⟩
  · rw [hsymbols, hsymbols']
    exact (h.similar.observe hvars).symbols
  · obtain ⟨type, htype⟩ := htyped x hx
    have hold := (htypes x hx).trans htype
    rw [htype]
    exact hdeclared'.kept x type hold

end State

namespace Pass

open State

variable {known : Var → Prop} {options : Options} {a : Assign} {s s' t : State}

/-! ### States alike fail alike -/

theorem inferred_of_alike (options : Options) (h : Alike known s t)
    (hvars : ∀ x ∈ a.value.vars, known x) :
    (inferred options a t).1 = (inferred options a s).1 ∧
      (inferred options a s).2.SameShapes (inferred options a t).2 := by
  have hscope := (h.similar.observe hvars).agrees options
  have hinfer : ((t.observe a).scope options).infer a.target a.value =
      ((s.observe a).scope options).infer a.target a.value :=
    Scope.infer_eq_of_agrees hscope a.target hvars
  rw [inferred, inferred, hinfer]
  exact Scope.blind_infer _ a.target a.value s.store t.store h.store

/-- Recording a shape changes the recorded shapes in one way, whatever reads are needed. -/
theorem Recorded.sameShapes {shape : Shape} {reads : List Assign} (h : Recorded a shape s reads t) :
    (s.store.record a.target shape).2.SameShapes t.store := by
  cases h with
  | conflict h hne => exact .refl _
  | sized h hvisited => exact ⟨hvisited.gains.shapes, hvisited.gains.nextClass⟩

theorem assign_of_alike (h : Alike known s t) (htarget : known a.target)
    (hvars : ∀ x ∈ a.value.vars, known x) {reads : List Assign}
    (hrun : (assign options a).run s = (.ok reads, s')) :
    ∃ reads' t', (assign options a).run t = (.ok reads', t') ∧ Alike known s' t' := by
  have hassigned := assigned_of_run hrun
  have hrank : t.rank? a.target = s.rank? a.target := h.similar.rank?_eq htarget
  cases hassigned with
  | scalar hscalar =>
    have hscalar' : t.rank? a.target = none := hrank.trans hscalar
    have hdeclared : ∀ u : State, u.Declared [] (u.observe a) := fun u => .of_types_eq rfl
    exact ⟨[], t.observe a, run_assign_of_scalar options a hscalar',
      h.step hvars h.store rfl rfl (hdeclared s) (hdeclared t)⟩
  | @array rank shape ds _ _ harray hsettle hrecorded =>
    have harray' : t.rank? a.target = some rank := hrank.trans harray
    obtain ⟨hanswer, hstore⟩ := inferred_of_alike options h hvars
    have hsettle' : settle rank a (inferred options a t).1 = .ok (shape, ds) := by
      rw [hanswer, hsettle]
    have hrecorded' := recorded_record a shape (behind options a ds t)
    have hbehind : (behind options a ds s).store.SameShapes (behind options a ds t).store := hstore
    have hrun' : (assign options a).run t = (.ok (record a shape (behind options a ds t)).1,
        (record a shape (behind options a ds t)).2) := by
      rw [run_assign_of_array options a harray', hsettle']
    refine ⟨_, _, hrun', h.step hvars ?_ hrecorded.symbols_eq hrecorded'.symbols_eq
      (Assigned.array harray hsettle hrecorded).declared
      (Assigned.array harray' hsettle' hrecorded').declared⟩
    exact hrecorded.sameShapes.symm.trans
      ((hbehind.record a.target shape).trans hrecorded'.sameShapes)

theorem assign_error_of_alike (h : Alike known s t) (htarget : known a.target)
    (hvars : ∀ x ∈ a.value.vars, known x) {e : ShapeError}
    (hrun : (assign options a).run s = (.error e, s')) :
    ∃ t', (assign options a).run t = (.error e, t') := by
  have hrank : t.rank? a.target = s.rank? a.target := h.similar.rank?_eq htarget
  cases hscalar : s.rank? a.target with
  | none =>
    rw [run_assign_of_scalar options a hscalar] at hrun
    cases hrun
  | some rank =>
    rw [run_assign_of_array options a hscalar] at hrun
    rw [run_assign_of_array options a (hrank.trans hscalar), (inferred_of_alike options h hvars).1]
    cases hsettle : settle rank a (inferred options a s).1 with
    | ok r =>
      rw [hsettle] at hrun
      cases hrun
    | error e' =>
      rw [hsettle] at hrun
      obtain ⟨he, -⟩ := Prod.mk.inj hrun
      obtain rfl := Except.error.inj he
      exact ⟨_, rfl⟩

/-- The variables of an instruction are known. -/
def Known (known : Var → Prop) (i : Instruction) : Prop :=
  ∀ a, i = .assign a → known a.target ∧ ∀ x ∈ a.value.vars, known x

theorem instruction_of_alike {i : Instruction} {out : List Instruction} (h : Alike known s t)
    (hknown : Known known i) (hrun : (instruction options i).run s = (.ok out, s')) :
    ∃ out' t', (instruction options i).run t = (.ok out', t') ∧ Alike known s' t' := by
  cases i with
  | assign a =>
    obtain ⟨htarget, hvars⟩ := hknown a rfl
    rw [run_instruction_assign] at hrun
    rcases ha : (assign options a).run s with ⟨e | reads, u⟩
    · rw [ha] at hrun
      cases hrun
    · rw [ha] at hrun
      obtain ⟨reads', t', ha', halike⟩ := assign_of_alike h htarget hvars ha
      obtain ⟨-, rfl⟩ := Prod.mk.inj hrun
      refine ⟨.assign a :: reads'.map .assign, t', ?_, halike⟩
      rw [run_instruction_assign, ha']
      rfl
  | _ =>
    obtain ⟨-, rfl⟩ := Prod.mk.inj hrun
    exact ⟨[_], t, rfl, h⟩

theorem body_of_alike {is out : List Instruction} (h : Alike known s t)
    (hknown : ∀ i ∈ is, Known known i) (hrun : (body options is).run s = (.ok out, s')) :
    ∃ out' t', (body options is).run t = (.ok out', t') ∧ Alike known s' t' := by
  induction is generalizing out s t with
  | nil =>
    cases hrun
    exact ⟨[], t, rfl, h⟩
  | cons i is ih =>
    rcases hi : (instruction options i).run s with ⟨e | first, u⟩
    · rw [run_body_cons_of_error hi] at hrun
      cases hrun
    rw [run_body_cons_of_ok hi] at hrun
    obtain ⟨first', v, hi', halike⟩ := instruction_of_alike h (hknown i List.mem_cons_self) hi
    rcases hbody : (body options is).run u with ⟨e | rest, w⟩
    · rw [hbody] at hrun
      cases hrun
    rw [hbody] at hrun
    obtain ⟨-, rfl⟩ := Prod.mk.inj hrun
    obtain ⟨rest', t', hbody', halike'⟩ :=
      ih halike (fun j hj => hknown j (List.mem_cons_of_mem i hj)) hbody
    refine ⟨first' ++ rest', t', ?_, halike'⟩
    rw [run_body_cons_of_ok hi', hbody']
    rfl

/-- Only an assignment can fail. -/
theorem assign_of_instruction_error {i : Instruction} {e : ShapeError}
    (h : (instruction options i).run s = (.error e, t)) :
    ∃ a, i = .assign a ∧ (assign options a).run s = (.error e, t) := by
  cases i with
  | assign a =>
    refine ⟨a, rfl, ?_⟩
    rw [run_instruction_assign] at h
    rcases ha : (assign options a).run s with ⟨e' | reads, u⟩
    · rw [ha] at h
      obtain ⟨he, rfl⟩ := Prod.mk.inj h
      obtain rfl := Except.error.inj he
      rfl
    · rw [ha] at h
      cases h
  | _ => cases h

theorem body_error_of_alike {is : List Instruction} {e : ShapeError} (h : Alike known s t)
    (hknown : ∀ i ∈ is, Known known i) (hrun : (body options is).run s = (.error e, s')) :
    ∃ t', (body options is).run t = (.error e, t') := by
  rcases run_body_cases options is s with
    ⟨out, u, hok⟩ | ⟨before, i, after, out, e', u, v, rfl, hbefore, hi, herror⟩
  · rw [hrun] at hok
    cases hok
  · rw [hrun] at herror
    obtain ⟨he, rfl⟩ := Prod.mk.inj herror
    obtain rfl := Except.error.inj he
    obtain ⟨a, rfl, ha⟩ := assign_of_instruction_error hi
    obtain ⟨out', w, hbefore', halike⟩ :=
      body_of_alike h (fun j hj => hknown j (List.mem_append_left _ hj)) hbefore
    obtain ⟨htarget, hvars⟩ := hknown (.assign a)
      (List.mem_append_right _ List.mem_cons_self) a rfl
    obtain ⟨t', ha'⟩ := assign_error_of_alike halike htarget hvars ha
    have hi' : (instruction options (.assign a)).run w = (.error e, t') := by
      rw [run_instruction_assign, ha']
      rfl
    refine ⟨t', ?_⟩
    rw [run_body_append_of_ok hbefore', run_body_cons_of_error hi']
    rfl

/-! ### The blocks of a failed run -/

/-- A run over blocks fails in one of them, and leaves it and those behind it alone. -/
theorem blocks_of_error {bs bs' : List Block} {e : ShapeError}
    (h : blocks options bs s = (.error e, s', bs')) :
    ∃ done b rest done' t, bs = done ++ b :: rest ∧ blocks options done s = (.ok (), t, done') ∧
      (body options b.body).run t = (.error e, s') ∧ bs' = done' ++ b :: rest := by
  induction bs generalizing bs' s with
  | nil => cases h
  | cons b bs ih =>
    rcases hb : (body options b.body).run s with ⟨e' | out, t⟩
    · rw [blocks_cons_of_error hb] at h
      cases h
      exact ⟨[], b, bs, [], s, rfl, rfl, hb, rfl⟩
    · rw [blocks_cons_of_ok hb] at h
      rcases hrest : blocks options bs t with ⟨outcome, u, last⟩
      rw [hrest] at h
      cases h
      obtain ⟨done, c, rest, done', v, rfl, hdone, hc, rfl⟩ := ih hrest
      refine ⟨b :: done, c, rest, { b with body := out } :: done', v, rfl, ?_, hc, rfl⟩
      rw [blocks_cons_of_ok hb, hdone]

theorem blocks_append_of_ok {bs bs' : List Block} (h : blocks options bs s = (.ok (), t, bs'))
    (cs : List Block) :
    blocks options (bs ++ cs) s =
      ((blocks options cs t).1, (blocks options cs t).2.1, bs' ++ (blocks options cs t).2.2) := by
  induction bs generalizing bs' s with
  | nil =>
    cases h
    rfl
  | cons b bs ih =>
    rcases hb : (body options b.body).run s with ⟨e | out, u⟩
    · rw [blocks_cons_of_error hb] at h
      cases h
    · rw [blocks_cons_of_ok hb] at h
      rcases hrest : blocks options bs u with ⟨outcome, v, last⟩
      rw [hrest] at h
      cases h
      rw [List.cons_append, blocks_cons_of_ok hb, ih hrest]
      rfl

theorem kept_of_assign_error {e : ShapeError} (h : (assign options a).run s = (.error e, t)) :
    Kept s t := by
  cases hrank : s.rank? a.target with
  | none =>
    rw [run_assign_of_scalar options a hrank] at h
    cases h
  | some rank =>
    rw [run_assign_of_array options a hrank] at h
    cases hsettle : settle rank a (inferred options a s).1 with
    | ok r =>
      rw [hsettle] at h
      cases h
    | error e' =>
      rw [hsettle] at h
      obtain ⟨-, rfl⟩ := Prod.mk.inj h
      exact ⟨rfl, rfl, (kept_observe s a).fetches⟩

/-- What a failing block leaves behind are entries for reads. -/
theorem adds_of_body_error {types : Types} {is : List Instruction} {e : ShapeError}
    (hrank : ∀ x, s.rank? x = (types.find? x).bind StaticType.rank?)
    (h : (body options is).run s = (.error e, t)) :
    ∃ declared sites resolved, s.Adds declared sites resolved t := by
  rcases run_body_cases options is s with
    ⟨out, u, hok⟩ | ⟨before, i, after, out, e', u, v, rfl, hbefore, hi, herror⟩
  · rw [h] at hok
    cases hok
  · rw [h] at herror
    obtain ⟨-, rfl⟩ := Prod.mk.inj herror
    obtain ⟨ss, -, hadds, -⟩ := spliced_body hrank hbefore
    obtain ⟨a, rfl, ha⟩ := assign_of_instruction_error hi
    have hkept := kept_of_assign_error ha
    exact ⟨_, _, _, hadds.congr hkept.types hkept.callTypes⟩

end Pass

theorem State.Adds.kept {s t : State} {declared : List (Var × StaticType)} {sites resolved : List Nat}
    (h : s.Adds declared sites resolved t) (x : Var) (type : StaticType)
    (hx : s.types.find? x = some type) : t.types.find? x = some type := by
  rw [Table.find?_eq_some_iff] at hx ⊢
  rw [h.types]
  exact List.mem_append_left _ hx

theorem Program.Typed.known {p : Program} {types : Types} (h : p.Typed types) {b : Block}
    (hb : b ∈ p.blocks) {i : Instruction} (hi : i ∈ b.body) :
    Pass.Known (fun x => types.contains x = true) i := by
  rintro a rfl
  exact h.assign (Program.mem_assigns.mpr ⟨b, hb, hi⟩)

/-- Where a run ended with the failure `e`: the blocks in `done` were finished, and the block `b`
failed. -/
structure Run.StopsAt (options : Options) (p : Program) (types : Types) (callTypes : CallTypes)
    (e : ShapeError) (done : List Block) (b : Block) (rest done' : List Block)
    (splices : List (Splice types)) (r : Run) : Prop where
  blocks_eq : p.blocks = done ++ b :: rest
  stops : ∃ s, Pass.blocks options done (.start p types callTypes) = (.ok (), s, done') ∧
    (Pass.body options b.body).run s = (.error e, r.state)
  program_eq : r.program = { p with blocks := done' ++ b :: rest }
  spliced : SplicedBlocks types done splices done'
  /-- The variables that the reads assign are new, each another one. -/
  targets_nodup : ((splices.flatMap Splice.inserted).map Assign.target).Nodup
  targets_new : ∀ a ∈ splices.flatMap Splice.inserted, types.contains a.target = false

/-- A run that ends with a failure stops at a block. -/
theorem exists_stopsAt {options : Options} {p : Program} {types : Types} {callTypes : CallTypes}
    {e : ShapeError} (h : (analyze options p types callTypes).outcome = .error e) :
    ∃ done b rest done' splices,
      (analyze options p types callTypes).StopsAt options p types callTypes e done b rest done'
        splices := by
  have hblocks : Pass.blocks options p.blocks (.start p types callTypes) =
      (.error e, (analyze options p types callTypes).state,
        (analyze options p types callTypes).program.blocks) := Prod.ext h rfl
  have hprogram : (analyze options p types callTypes).program =
      { p with blocks := (analyze options p types callTypes).program.blocks } := rfl
  generalize analyze options p types callTypes = r at hblocks hprogram ⊢
  obtain ⟨done, b, rest, done', s, hp, hdone, hb, hp'⟩ := Pass.blocks_of_error hblocks
  rw [hp'] at hprogram
  obtain ⟨splices, hspliced, hadds⟩ := Pass.spliced_blocks (State.start_rank? p types callTypes) hdone
  obtain ⟨hnodup, hnew⟩ := hadds.fresh
  have htargets : (splices.flatMap Splice.inserted).map Assign.target =
      (splices.flatMap Splice.declared).map Prod.fst := by
    simp only [List.map_flatMap, Splice.map_target_inserted]
  refine ⟨done, b, rest, done', splices, hp, ⟨s, hdone, hb⟩, hprogram, hspliced, ?_, fun a ha => ?_⟩
  · rw [htargets]
    exact hnodup
  · apply hnew a.target
    rw [← htargets]
    exact List.mem_map_of_mem ha

namespace Run.StopsAt

variable {options : Options} {p : Program} {types : Types} {callTypes : CallTypes} {e : ShapeError}
  {done rest done' : List Block} {b : Block} {splices : List (Splice types)} {r : Run}

/-- The finished blocks add entries for reads, and so does the failing one. -/
theorem adds (h : r.StopsAt options p types callTypes e done b rest done' splices) :
    ∃ s, Pass.blocks options done (.start p types callTypes) = (.ok (), s, done') ∧
      (Pass.body options b.body).run s = (.error e, r.state) ∧
      (∃ declared sites resolved,
        (State.start p types callTypes).Adds declared sites resolved s) ∧
      ∃ declared sites resolved, s.Adds declared sites resolved r.state := by
  obtain ⟨s, hdone, hb⟩ := h.stops
  have hrank := State.start_rank? p types callTypes
  obtain ⟨_, _, hadds⟩ := Pass.spliced_blocks hrank hdone
  have hrank' : ∀ x, s.rank? x = (types.find? x).bind StaticType.rank? :=
    fun x => ((Pass.emits_blocks hdone).rank?_eq x).trans (hrank x)
  exact ⟨s, hdone, hb, ⟨_, _, _, hadds⟩, Pass.adds_of_body_error hrank' hb⟩

/-- A second run finds the reads of the finished blocks, adds none there, and fails where the first
one did. -/
theorem blocks_again (h : r.StopsAt options p types callTypes e done b rest done' splices)
    (htyped : p.Typed types) :
    ∃ t, Pass.blocks options r.program.blocks (.start r.program r.types r.callTypes) =
      (.error e, t, r.program.blocks) := by
  obtain ⟨s, hdone, hb, ⟨_, _, _, hadds⟩, ⟨_, _, _, hadds'⟩⟩ := h.adds
  have hemits := Pass.emits_blocks hdone
  have hblocks : r.program.blocks = done' ++ b :: rest := by rw [h.program_eq]
  have hassigns : p.assigns = done.flatMap Block.assigns ++ (b :: rest).flatMap Block.assigns := by
    rw [Program.assigns, h.blocks_eq, List.flatMap_append]
  have hassigns' : r.program.assigns =
      done'.flatMap Block.assigns ++ (b :: rest).flatMap Block.assigns := by
    rw [Program.assigns, hblocks, List.flatMap_append]
  have hkept : ∀ x type, types.find? x = some type → r.types.find? x = some type :=
    (hadds.append hadds').kept
  obtain ⟨tuples, hreading, hreads, htuples⟩ :=
    rereading_of_emits r.callTypes htyped hassigns hassigns' hemits hkept
  obtain ⟨t, hsilent, hsim, -⟩ := hreading.run_part hemits (.start p types callTypes) hassigns'
    hadds'.kept (fun a ha => htyped.assign (hassigns ▸ List.mem_append_left _ ha)) hreads htuples
  have hagain := Pass.blocks_of_silent hsilent
  have hknown : ∀ i ∈ b.body, Pass.Known (fun x => types.contains x = true) i := by
    intro i hi
    refine htyped.known ?_ hi
    rw [h.blocks_eq]
    exact List.mem_append_right _ List.mem_cons_self
  obtain ⟨t', hb'⟩ := Pass.body_error_of_alike hsim.alike hknown hb
  exact ⟨t', by rw [hblocks, Pass.blocks_append_of_ok hagain, Pass.blocks_cons_of_error hb']⟩

end Run.StopsAt

/-- A failure leaves the failing block and those behind it as they were, adds nothing but reads to the
blocks before, keeps all entries of the types and of the call signatures, and comes again in a second
run, which changes no block. -/
theorem analyze_failure_repeats {options : Options} {p : Program} {types : Types}
    {callTypes : CallTypes} {e : ShapeError} (htyped : p.Typed types)
    (h : (analyze options p types callTypes).outcome = .error e) :
    let r := analyze options p types callTypes
    let again := analyze options r.program r.types r.callTypes
    (∃ done b rest done' splices, r.StopsAt options p types callTypes e done b rest done' splices) ∧
      types.toList <+: r.types.toList ∧
      callTypes.entries.toList <+: r.callTypes.entries.toList ∧
      again.outcome = .error e ∧ again.program = r.program := by
  obtain ⟨done, b, rest, done', splices, hstops⟩ := exists_stopsAt h
  generalize analyze options p types callTypes = r at hstops ⊢
  obtain ⟨s, -, -, ⟨_, _, _, hadds⟩, ⟨_, _, _, hadds'⟩⟩ := hstops.adds
  have hadds'' := hadds.append hadds'
  obtain ⟨t, hagain⟩ := hstops.blocks_again htyped
  refine ⟨⟨done, b, rest, done', splices, hstops⟩, ⟨_, hadds''.types.symm⟩,
    ⟨_, hadds''.callTypes.symm⟩, congrArg Prod.fst hagain, ?_⟩
  simp only [analyze, hagain]

/-- A parameter is read in the first block. The second block reads another one and then copies an array
that was never assigned. -/
def haltedProgram : Program where
  name := "halted"
  argNames := ["a", "b"]
  blocks := [
    ⟨0, [.assign ⟨"a", .arg 0 "a", none, 0⟩, .jump 1]⟩,
    ⟨1, [
      .assign ⟨"b", .arg 1 "b", none, 1⟩,
      .assign ⟨"c", .var "z", none, 2⟩,
      .ret "c" none]⟩]

def haltedTypes : Types :=
  .ofList [("a", .arrayOf 1), ("b", .arrayOf 1), ("c", .arrayOf 1), ("z", .arrayOf 1)]

theorem analyze_failure_repeats_halted :
    haltedProgram.Typed haltedTypes ∧
      let r := analyze .standard haltedProgram haltedTypes (.empty 3)
      let again := analyze .standard r.program r.types r.callTypes
      r.outcome = .error (.unknownVariable "z") ∧ again.outcome = .error (.unknownVariable "z") ∧
        again.program = r.program ∧
        r.types.keys = ["a", "b", "c", "z", "a_sh_attr0.1", "$consta0.2", "asize0.3",
          "b_sh_attr0.4", "$constb0.5", "bsize0.6"] := by
  have htyped : haltedProgram.Typed haltedTypes := by decide
  have hrun : (analyze .standard haltedProgram haltedTypes (.empty 3)).outcome =
      .error (.unknownVariable "z") := by decide +kernel
  obtain ⟨-, -, -, hagain, hprogram⟩ := analyze_failure_repeats htyped hrun
  exact ⟨htyped, hrun, hagain, hprogram, by decide +kernel⟩

end DimEquiv
