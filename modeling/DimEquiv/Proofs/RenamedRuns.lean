import DimEquiv.Proofs.RenamedSymbols
import DimEquiv.Proofs.SpecialClasses
import Mathlib.Data.Fintype.EquivFin
import Mathlib.SetTheory.Cardinal.Arithmetic

/-!
# Runs under other names

The analyses of a program and of its renamed form go side by side. Their new variables may be called
anything, since fresh names depend on the names that are taken, but no class and no decision to read a
dimension depends on what a variable is called.
-/

namespace DimEquiv

variable {known : Var → Prop} {σ : Var → Var}

namespace State

/-- The second state tells of renamed variables what the first tells of the variables. All that was
reported was reported of known variables. -/
structure Renamed (known : Var → Prop) (σ : Var → Var) (s t : State) : Prop where
  store : s.store.VarsRenamed σ t.store
  symbols : s.symbols.Renamed known σ t.symbols
  diagnostics : List.Forall₂ (Diagnostic.Renamed σ) s.diagnostics t.diagnostics
  reported : ∀ d ∈ s.diagnostics, known d.target
  typed : ∀ x, known x → ∃ type, s.types.find? x = some type
  types : ∀ x, known x → t.types.find? (σ x) = s.types.find? x
  rank?_eq : ∀ x, t.rank? (σ x) = s.rank? x

namespace Renamed

variable {s s' t t' : State} {reads reads' : List Assign}

theorem isArray_eq (h : s.Renamed known σ t) (x : Var) :
    t.types.isArray (σ x) = s.types.isArray x := by
  rw [Bool.eq_iff_iff, Types.isArray_iff_rank?, Types.isArray_iff_rank?]
  exact exists_congr fun rank => by rw [← State.rank?, ← State.rank?, h.rank?_eq]

theorem observe (hσ : Function.Injective σ) (h : s.Renamed known σ t) {a : Assign}
    (hvars : ∀ x ∈ a.value.vars, known x) :
    (s.observe a).Renamed known σ (t.observe (a.rename σ)) :=
  { h with symbols := h.symbols.observe hσ hvars h.isArray_eq }

theorem reading (h : s.Renamed known σ t) (options : Options) :
    Reading.Renamed known σ (s.scope options).reading (t.scope options).reading where
  options := rfl
  types := h.types
  arrays := h.isArray_eq
  callees := h.symbols.callee?_eq
  receivers := fun func name x hcallee => by
    obtain ⟨call, hcall, rfl⟩ := Symbols.methodCall_of_callee? hcallee
    exact h.symbols.receivers func call hcall
  items := fun x => by
    have htuples := h.symbols.tuples x
    simp only [Scope.reading, scope, htuples]
    cases s.symbols.tuples.find? x <;> rfl

/-- More reports of corresponding targets. -/
theorem report (h : s.Renamed known σ t) {ds ds' : List Diagnostic}
    (hds : List.Forall₂ (Diagnostic.Renamed σ) ds ds') (hknown : ∀ d ∈ ds, known d.target) :
    Renamed known σ { s with diagnostics := s.diagnostics ++ ds }
      { t with diagnostics := t.diagnostics ++ ds' } :=
  { h with
    diagnostics := List.rel_append h.diagnostics hds
    reported := List.forall_mem_append.mpr ⟨h.reported, hknown⟩ }

/-- New variables on both sides, whatever their names. -/
theorem of_declared (h : s.Renamed known σ t) (hs : s.Declared reads s') (ht : t.Declared reads' t')
    (hstore : s'.store.VarsRenamed σ t'.store) (hsymbols : s'.symbols = s.symbols)
    (hsymbols' : t'.symbols = t.symbols) (hdiagnostics : s'.diagnostics = s.diagnostics)
    (hdiagnostics' : t'.diagnostics = t.diagnostics) : s'.Renamed known σ t' := by
  have hkept : ∀ x, known x →
      ∃ type, s'.types.find? x = some type ∧ t'.types.find? (σ x) = some type := by
    intro x hx
    obtain ⟨type, htype⟩ := h.typed x hx
    exact ⟨type, hs.kept x type htype, ht.kept _ type ((h.types x hx).trans htype)⟩
  refine ⟨hstore, ?_, ?_, ?_, fun x hx => ?_, fun x hx => ?_, fun x => ?_⟩
  · rw [hsymbols, hsymbols']
    exact h.symbols
  · rw [hdiagnostics, hdiagnostics']
    exact h.diagnostics
  · rw [hdiagnostics]
    exact h.reported
  · obtain ⟨type, htype, -⟩ := hkept x hx
    exact ⟨type, htype⟩
  · obtain ⟨type, htype, htype'⟩ := hkept x hx
    rw [htype, htype']
  · rw [ht.rank?_eq, hs.rank?_eq, h.rank?_eq]

end Renamed

end State

theorem Types.keysRenamed_rename (hσ : Function.Injective σ) (types : Types) :
    types.KeysRenamed σ (types.rename σ) := by
  refine Table.toList_ofList ?_
  rw [List.map_map]
  have hkeys := types.nodup.map hσ
  rwa [List.map_map] at hkeys

theorem State.renamed_start (hσ : Function.Injective σ) (p : Program) (types : Types)
    (callTypes callTypes' : CallTypes) :
    (State.start p types callTypes).Renamed (fun x => types.contains x = true) σ
      (.start (p.rename σ) (types.rename σ) callTypes') where
  store := ⟨rfl, rfl, fun _ => Iff.rfl⟩
  symbols := Symbols.renamed_scan _ hσ p
  diagnostics := .nil
  reported := nofun
  typed := fun _ hx => Option.isSome_iff_exists.mp hx
  types := fun x _ => (types.keysRenamed_rename hσ).find?_eq hσ x
  rank?_eq := fun x =>
    congrArg (·.bind StaticType.rank?) ((types.keysRenamed_rename hσ).find?_eq hσ x)

/-! ### Reads -/

namespace SizeRead

variable {array : Var} {dim : Nat} {s s' t t' : State}

/-- A new read takes three assignments. -/
theorem Visited.length_reads {c : Int} {reads : List Assign} {size : SizeValue}
    (h : Visited array dim c s reads size s') :
    reads.length = if standing? c s = none ∧ s.symbols.fetch? array dim = none then 3 else 0 := by
  cases h with
  | standing h => simp [h]
  | fetched h hx => simp [hx]
  | generated h hx hgroup =>
    cases hgroup
    simp [h, hx]

theorem standing?_renamed (h : s.store.VarsRenamed σ t.store) (c : Int) :
    standing? c t = none ↔ standing? c s = none := by
  simp only [standing?, Store.representative?, ite_eq_left_iff, List.head?_eq_none_iff, h.sized]

/-- Corresponding dimensions need new reads alike. -/
theorem Visited.renamed {c : Int} {reads reads' : List Assign} {size size' : SizeValue}
    (hstore : s.store.VarsRenamed σ t.store)
    (hfetch : t.symbols.fetch? (σ array) dim = (s.symbols.fetch? array dim).map σ)
    (h : Visited array dim c s reads size s') (h' : Visited (σ array) dim c t reads' size' t') :
    reads'.length = reads.length ∧ s'.store.VarsRenamed σ t'.store := by
  have hstanding := standing?_renamed hstore c
  refine ⟨?_, ?_⟩
  · simp only [h.length_reads, h'.length_reads, hstanding, hfetch, Option.map_eq_none_iff]
  · rcases h.store_eq with ⟨hs, hstore₁⟩ | ⟨hs, hstore₁⟩ <;>
      rcases h'.store_eq with ⟨ht, hstore₂⟩ | ⟨ht, hstore₂⟩
    · rw [hstore₁, hstore₂]
      exact hstore
    · rw [hstanding.mp ht] at hs
      cases hs
    · rw [hstanding.mpr hs] at ht
      cases ht
    · rw [hstore₁, hstore₂]
      exact hstore.represent c size size'

theorem VisitedAll.store_renamed {cs : Shape} {r r' : SizeReads}
    (hstore : s.store.VarsRenamed σ t.store)
    (hfetch : ∀ dim : Int, t.symbols.fetch? (σ array) dim = (s.symbols.fetch? array dim).map σ)
    (h : VisitedAll array dim cs s r s') (h' : VisitedAll (σ array) dim cs t r' t') :
    r'.instructions.length = r.instructions.length ∧ s'.store.VarsRenamed σ t'.store := by
  induction h generalizing t r' t' with
  | nil =>
    cases h'
    exact ⟨rfl, hstore⟩
  | cons h hrest ih =>
    cases h' with
    | cons h' hrest' =>
      obtain ⟨hlength, hstore'⟩ := h.renamed hstore (hfetch _) h'
      rw [← h.symbols_eq, ← h'.symbols_eq] at hfetch
      obtain ⟨hlength', hstore''⟩ := ih hstore' hfetch hrest'
      refine ⟨?_, hstore''⟩
      rw [List.length_append, List.length_append, hlength, hlength']

/-- Corresponding arrays of one shape need equally many reads. -/
theorem VisitedAll.renamed {cs : Shape} {r r' : SizeReads} (hs : s.Renamed known σ t)
    (h : VisitedAll array dim cs s r s') (h' : VisitedAll (σ array) dim cs t r' t') :
    r'.instructions.length = r.instructions.length ∧ s'.Renamed known σ t' := by
  obtain ⟨hlength, hstore⟩ := h.store_renamed hs.store (hs.symbols.fetches array) h'
  exact ⟨hlength, hs.of_declared h.declared h'.declared hstore h.symbols_eq h'.symbols_eq
    h.diagnostics_eq h'.diagnostics_eq⟩

end SizeRead

namespace Pass

variable {a : Assign} {s s' t t' : State} {reads reads' : List Assign}

/-! ### One assignment -/

/-- What is reported about an inferred shape is reported about the renamed target. -/
theorem answered_settle (rank : Nat) (a : Assign) {answer answer' : Except ShapeError Shape}
    (h : Answered σ Eq answer answer') :
    Answered σ (fun r r' => r'.1 = r.1 ∧ List.Forall₂ (Diagnostic.Renamed σ) r.2 r'.2)
      (settle rank a answer) (settle rank (a.rename σ) answer') := by
  cases h with
  | @ok shape _ heq =>
    subst heq
    have hop : (a.rename σ).value.op = a.value.op := Expr.op_rename σ a.value
    simp only [settle, hop]
    split
    · exact .ok ⟨rfl, .nil⟩
    · exact .ok ⟨rfl, .cons (.unsupportedOperation ..) .nil⟩
  | error h =>
    cases h with
    | unsupported cause => exact .ok ⟨rfl, .cons (cause.diagnostic_rename σ a.target) .nil⟩
    | fatal h h' =>
      rw [settle_eq_error_iff.mpr ⟨rfl, h⟩, settle_eq_error_iff.mpr ⟨rfl, h'⟩]
      exact .error (.fatal h h')

theorem answered_inferred (hσ : Function.Injective σ) (options : Options)
    (hs : s.Renamed known σ t) (hvars : ∀ x ∈ a.value.vars, known x) :
    Answered σ Eq (inferred options a s).1 (inferred options (a.rename σ) t).1 ∧
      (inferred options a s).2.VarsRenamed σ (inferred options (a.rename σ) t).2 := by
  have hobserve := hs.observe hσ hvars
  have hrule := (hobserve.reading options).ruleOf hσ a.target hvars
  rw [inferred_eq_apply, inferred_eq_apply]
  exact hrule.apply hσ hobserve.isArray_eq hs.store

theorem renamed_behind (hσ : Function.Injective σ) (options : Options) (hs : s.Renamed known σ t)
    (htarget : known a.target) (hvars : ∀ x ∈ a.value.vars, known x) {ds ds' : List Diagnostic}
    (hds : List.Forall₂ (Diagnostic.Renamed σ) ds ds') (hreported : ∀ d ∈ ds, d.target = a.target) :
    (behind options a ds s).Renamed known σ (behind options (a.rename σ) ds' t) := by
  have hknown : ∀ d ∈ ds, known d.target := by
    intro d hd
    rwa [hreported d hd]
  have hreport := (hs.observe hσ hvars).report hds hknown
  exact { hreport with store := (answered_inferred hσ options hs hvars).2 }

/-- Recording one shape for corresponding targets needs equally many reads. -/
theorem Recorded.renamed (hσ : Function.Injective σ) {shape : Shape} (hs : s.Renamed known σ t)
    (htarget : known a.target) (h : Recorded a shape s reads s')
    (h' : Recorded (a.rename σ) shape t reads' t') :
    reads'.length = reads.length ∧ s'.Renamed known σ t' := by
  have hfind := hs.store.find?_eq hσ a.target
  have hrecord : State.Renamed known σ { s with store := (s.store.record a.target shape).2 }
      { t with store := (t.store.record (σ a.target) shape).2 } :=
    { hs with store := (hs.store.record hσ a.target shape).2 }
  cases h with
  | @conflict previous hprevious hne =>
    cases h' with
    | @conflict previous' hprevious' hne' =>
      cases (hfind.trans hprevious).symm.trans hprevious'
      have hreport : List.Forall₂ (Diagnostic.Renamed σ) [.conflict a.target previous shape]
          [.conflict (σ a.target) previous shape] := .cons (.conflict ..) .nil
      exact ⟨rfl, hrecord.report hreport (List.forall_mem_singleton.mpr htarget)⟩
    | sized hprevious' _ => exact absurd (hprevious' _ (hfind.trans hprevious)) hne
  | sized hprevious hvisited =>
    cases h' with
    | conflict hprevious' hne' => exact absurd (hprevious _ (hfind.symm.trans hprevious')) hne'
    | sized hprevious' hvisited' =>
      obtain ⟨hlength, hsized⟩ := hvisited.renamed hrecord hvisited'
      have hstore := hsized.store
      exact ⟨hlength, { hsized with store := ⟨hstore.shapes, hstore.nextClass, hstore.sized⟩ }⟩

/-! ### Steps side by side -/

/-- Both steps fail, or both answer, with related answers and in states that correspond. -/
inductive Alike (known : Var → Prop) (σ : Var → Var) {α : Type} (related : α → α → Prop) :
    Except ShapeError α × State → Except ShapeError α × State → Prop
  | ok {x y : α} {s t : State} (h : related x y) (hs : s.Renamed known σ t) :
    Alike known σ related (.ok x, s) (.ok y, t)
  | error (e e' : ShapeError) (s t : State) : Alike known σ related (.error e, s) (.error e', t)

theorem Alike.map {α β : Type} {related : α → α → Prop} {related' : β → β → Prop}
    {r r' : Except ShapeError α × State} {f g : α → β} (h : Alike known σ related r r')
    (hfg : ∀ x y, related x y → related' (f x) (g y)) :
    Alike known σ related' (r.1.map f, r.2) (r'.1.map g, r'.2) := by
  cases h with
  | ok h hs => exact .ok (hfg _ _ h) hs
  | error e e' s t => exact .error e e' s t

/-- Equally many reads, with targets that are neither known nor the new name of a known variable. -/
structure ReadsAlike (known : Var → Prop) (σ : Var → Var) (reads reads' : List Assign) : Prop where
  length_eq : reads'.length = reads.length
  new : ∀ b ∈ reads, ¬ known b.target
  new_renamed : ∀ b ∈ reads', ∀ x, known x → σ x ≠ b.target

theorem ReadsAlike.of_declared (hs : s.Renamed known σ t) (hlength : reads'.length = reads.length)
    (h : s.Declared reads s') (h' : t.Declared reads' t') : ReadsAlike known σ reads reads' where
  length_eq := hlength
  new := fun _ hb => h.not_known hs.typed hb
  new_renamed := fun b hb x hx he => by
    obtain ⟨type, htype⟩ := hs.typed x hx
    exact h'.ne_of_typed hb ((hs.types x hx).trans htype) he.symm

theorem readsAlike_record (hσ : Function.Injective σ) (hs : s.Renamed known σ t)
    (htarget : known a.target) (shape : Shape) :
    ReadsAlike known σ (record a shape s).1 (record (a.rename σ) shape t).1 ∧
      (record a shape s).2.Renamed known σ (record (a.rename σ) shape t).2 := by
  have h := recorded_record a shape s
  have h' := recorded_record (a.rename σ) shape t
  obtain ⟨hlength, hs'⟩ := h.renamed hσ hs htarget h'
  exact ⟨.of_declared hs hlength h.declared h'.declared, hs'⟩

/-- An assignment and the renamed one. -/
theorem alike_assign (hσ : Function.Injective σ) (options : Options) (hs : s.Renamed known σ t)
    (htarget : known a.target) (hvars : ∀ x ∈ a.value.vars, known x) :
    Alike known σ (ReadsAlike known σ) ((assign options a).run s)
      ((assign options (a.rename σ)).run t) := by
  have hrank := hs.rank?_eq a.target
  cases h : s.rank? a.target with
  | none =>
    rw [run_assign_of_scalar options a h, run_assign_of_scalar options _ (hrank.trans h)]
    exact .ok ⟨rfl, nofun, nofun⟩ (hs.observe hσ hvars)
  | some rank =>
    have hsettle := answered_settle rank a (answered_inferred hσ options hs hvars).1
    rw [run_assign_of_array options a h, run_assign_of_array options _ (hrank.trans h)]
    generalize hr : settle rank a (inferred options a s).1 = r at hsettle ⊢
    generalize settle rank (a.rename σ) (inferred options (a.rename σ) t).1 = r' at hsettle ⊢
    cases hsettle with
    | error => exact .error ..
    | @ok r r' hreported =>
      obtain ⟨shape, ds⟩ := r
      obtain ⟨shape', ds'⟩ := r'
      obtain ⟨hshape, hds⟩ := hreported
      obtain rfl : shape = shape' := hshape.symm
      have hbehind := renamed_behind hσ options hs htarget hvars hds (target_of_settle hr)
      obtain ⟨hreads, hs'⟩ := readsAlike_record hσ hbehind htarget shape
      exact .ok hreads hs'

/-- An instruction and the renamed one, each with its reads behind it. -/
inductive Followed (known : Var → Prop) (σ : Var → Var) (i : Instruction) :
    List Instruction → List Instruction → Prop
  | mk {reads reads' : List Assign} (h : ReadsAlike known σ reads reads') :
    Followed known σ i (i :: reads.map .assign) (i.rename σ :: reads'.map .assign)

theorem alike_instruction (hσ : Function.Injective σ) (options : Options)
    (hs : s.Renamed known σ t) {i : Instruction} (hvars : ∀ x ∈ i.vars, known x) :
    Alike known σ (Followed known σ i) ((instruction options i).run s)
      ((instruction options (i.rename σ)).run t) := by
  have hnone : ReadsAlike known σ [] [] := ⟨rfl, nofun, nofun⟩
  cases i with
  | assign a =>
    obtain ⟨htarget, hvalue⟩ := List.forall_mem_cons.mp hvars
    rw [Instruction.rename, run_instruction_assign, run_instruction_assign]
    exact (alike_assign hσ options hs htarget hvalue).map fun _ _ h => .mk h
  | _ => exact .ok (.mk hnone) hs

variable {types types' : Types}

/-- A block and the renamed one. -/
theorem alike_body (hσ : Function.Injective σ) (options : Options)
    (htypes : ∀ x, types.contains x = true → known x)
    (htypes' : ∀ y, types'.contains y = true → ∃ x, known x ∧ σ x = y) (hs : s.Renamed known σ t)
    {is : List Instruction} (hvars : ∀ i ∈ is, ∀ x ∈ i.vars, known x) :
    Alike known σ (SplicedAlike types types' is (is.map (Instruction.rename σ)))
      ((body options is).run s) ((body options (is.map (Instruction.rename σ))).run t) := by
  induction is generalizing s t with
  | nil => exact .ok .nil hs
  | cons i is ih =>
    obtain ⟨hi, hrest⟩ := List.forall_mem_cons.mp hvars
    have hfirst := alike_instruction hσ options hs hi
    generalize hr : (instruction options i).run s = r at hfirst
    generalize hr' : (instruction options (i.rename σ)).run t = r' at hfirst
    rw [List.map_cons]
    cases hfirst with
    | error e e' s t =>
      rw [run_body_cons_of_error hr, run_body_cons_of_error hr']
      exact .error e e' s t
    | ok h hs =>
      rw [run_body_cons_of_ok hr, run_body_cons_of_ok hr']
      refine (ih hs hrest).map fun out out' hout => ?_
      obtain ⟨hreads⟩ := h
      refine .cons i (i.rename σ) hreads.length_eq (fun b hb => ?_) (fun b hb => ?_) hout
      · exact Bool.eq_false_of_not_eq_true fun hb' => hreads.new b hb (htypes _ hb')
      · refine Bool.eq_false_of_not_eq_true fun hb' => ?_
        obtain ⟨x, hx, he⟩ := htypes' _ hb'
        exact hreads.new_renamed b hb x hx he

/-- The blocks of a program and of the renamed one. -/
theorem alike_blocks (hσ : Function.Injective σ) (options : Options)
    (htypes : ∀ x, types.contains x = true → known x)
    (htypes' : ∀ y, types'.contains y = true → ∃ x, known x ∧ σ x = y) (hs : s.Renamed known σ t)
    {bs : List Block} (hvars : ∀ b ∈ bs, ∀ i ∈ b.body, ∀ x ∈ i.vars, known x) :
    Alike known σ (SplicedBlocksAlike types types' bs (bs.map (Block.rename σ)))
      ((blocks options bs s).1.map fun _ => (blocks options bs s).2.2, (blocks options bs s).2.1)
      ((blocks options (bs.map (Block.rename σ)) t).1.map fun _ =>
          (blocks options (bs.map (Block.rename σ)) t).2.2,
        (blocks options (bs.map (Block.rename σ)) t).2.1) := by
  induction bs generalizing s t with
  | nil => exact .ok .nil hs
  | cons b bs ih =>
    obtain ⟨hb, hrest⟩ := List.forall_mem_cons.mp hvars
    have hfirst := alike_body hσ options htypes htypes' hs hb
    generalize hr : (body options b.body).run s = r at hfirst
    generalize hr' : (body options (b.body.map (Instruction.rename σ))).run t = r' at hfirst
    rw [List.map_cons]
    cases hfirst with
    | error e e' s t =>
      rw [blocks_cons_of_error hr, blocks_cons_of_error (b := b.rename σ) hr']
      exact .error e e' s t
    | @ok body body' s t h hs =>
      rw [blocks_cons_of_ok hr, blocks_cons_of_ok (b := b.rename σ) hr']
      have hcons : ∀ out out', SplicedBlocksAlike types types' bs (bs.map (Block.rename σ)) out out' →
          SplicedBlocksAlike types types' (b :: bs) (b.rename σ :: bs.map (Block.rename σ))
            ({ b with body } :: out) ({ b.rename σ with body := body' } :: out') :=
        fun _ _ hout => .cons h hout
      have hall := (ih hs hrest).map hcons
      generalize blocks options bs s = rest at hall ⊢
      generalize blocks options (bs.map (Block.rename σ)) t = rest' at hall ⊢
      rcases rest with ⟨_ | _, u, out⟩ <;> rcases rest' with ⟨_ | _, u', out'⟩ <;> exact hall

end Pass

/-! ### Whole analyses -/

theorem Types.exists_of_contains_rename (hσ : Function.Injective σ) {types : Types} {y : Var}
    (h : (types.rename σ).contains y = true) : ∃ x, types.contains x = true ∧ σ x = y := by
  rw [Table.contains_iff_mem_keys, Table.keys, types.keysRenamed_rename hσ] at h
  simp only [List.map_map, List.mem_map] at h
  obtain ⟨entry, hentry, he⟩ := h
  exact ⟨entry.1, (types.contains_iff_mem_keys _).mpr (List.mem_map_of_mem hentry), he⟩

/-- A renaming that keeps the typed variables apart can be continued to one that keeps all apart. -/
theorem Types.exists_injective (types : Types) {ρ : Var → Var}
    (hρ : Set.InjOn ρ {x | types.contains x = true}) :
    ∃ σ : Var → Var, Function.Injective σ ∧ ∀ x, types.contains x = true → ρ x = σ x := by
  have hfinite : {x | types.contains x = true}.Finite :=
    (List.finite_toSet types.keys).subset fun x hx => (types.contains_iff_mem_keys x).mp hx
  have hlt := (Cardinal.lt_aleph0_iff_set_finite.mpr hfinite).trans_le (Cardinal.aleph0_le_mk Var)
  obtain ⟨g, hg⟩ := Cardinal.extend_function_of_lt ⟨_, Set.injOn_iff_injective.mp hρ⟩ hlt
    ⟨Equiv.refl Var⟩
  exact ⟨g, g.injective, fun x hx => (hg ⟨x, hx⟩).symm⟩

/-- The analyses of a program and of the renamed one go side by side. -/
theorem alike_analyze (hσ : Function.Injective σ) (options : Options) {p : Program} {types : Types}
    (htyped : p.Typed types) (callTypes callTypes' : CallTypes) :
    let r := analyze options p types callTypes
    let r' := analyze options (p.rename σ) (types.rename σ) callTypes'
    r'.outcome.isOk = r.outcome.isOk ∧ (r.outcome.isOk = true →
      r.state.Renamed (fun x => types.contains x = true) σ r'.state ∧
        SplicedBlocksAlike types (types.rename σ) p.blocks (p.rename σ).blocks r.program.blocks
          r'.program.blocks) := by
  intro r r'
  have hvars : ∀ b ∈ p.blocks, ∀ i ∈ b.body, ∀ x ∈ i.vars, types.contains x = true :=
    fun b hb i hi x hx => htyped x <| List.mem_append_right _ <|
      List.mem_flatMap.mpr ⟨b, hb, List.mem_flatMap.mpr ⟨i, hi, hx⟩⟩
  have hblocks : Pass.Alike (fun x => types.contains x = true) σ
      (SplicedBlocksAlike types (types.rename σ) p.blocks (p.rename σ).blocks)
      (r.outcome.map fun _ => r.program.blocks, r.state)
      (r'.outcome.map fun _ => r'.program.blocks, r'.state) :=
    Pass.alike_blocks hσ options (fun _ hx => hx)
      (fun _ hy => Types.exists_of_contains_rename hσ hy)
      (State.renamed_start hσ p types callTypes callTypes') hvars
  generalize r.outcome = outcome at hblocks ⊢
  generalize r'.outcome = outcome' at hblocks ⊢
  rcases outcome with _ | _ <;> rcases outcome' with _ | _ <;> cases hblocks
  · exact ⟨rfl, nofun⟩
  · rename_i hspliced hs
    exact ⟨rfl, fun _ => ⟨hs, hspliced⟩⟩

theorem Findings.Agree.contains {p : Program} {types : Types} {f : Findings} (h : f.Agree p types) :
    ∀ x ∈ f.shapes.keys, types.contains x = true := by
  intro x hx
  obtain ⟨shape, hshape⟩ := Option.isSome_iff_exists.mp ((f.shapes.contains_iff_mem_keys x).mpr hx)
  exact Types.contains_of_isArray ((h.recorded x).mp ⟨shape, hshape⟩).1

/-- The names of variables do not matter. Under a renaming that keeps the typed variables apart, and
whatever expressions are numbered with, an analysis finishes or fails as before. If it finishes, renamed
variables have the same shapes, the reports are the same of renamed targets, and as many reads stand behind
each instruction. -/
theorem analyze_rename (options : Options) {p : Program} {types : Types}
    (callTypes callTypes' : CallTypes) {ρ : Var → Var} (htyped : p.Typed types)
    (hρ : Set.InjOn ρ {x | types.contains x = true}) :
    let r := analyze options p types callTypes
    let r' := analyze options (p.rename ρ) (types.rename ρ) callTypes'
    r'.outcome.isOk = r.outcome.isOk ∧
      ∀ f, r.findings = .ok f → ∃ f', r'.findings = .ok f' ∧
        (∀ x, types.contains x = true → f'.shapeOf? (ρ x) = f.shapeOf? x) ∧
        f.shapes.KeysRenamed ρ f'.shapes ∧
        List.Forall₂ (Diagnostic.Renamed ρ) f.diagnostics f'.diagnostics ∧
        SplicedBlocksAlike types (types.rename ρ) p.blocks (p.rename ρ).blocks r.program.blocks
          r'.program.blocks := by
  intro r r'
  obtain ⟨σ, hσ, heq⟩ := types.exists_injective hρ
  have hprogram : p.rename ρ = p.rename σ := Program.rename_congr fun x hx => heq x (htyped x hx)
  have htypes : types.rename ρ = types.rename σ := Types.rename_congr heq
  obtain ⟨houtcome, hfinished⟩ := alike_analyze hσ options htyped callTypes callTypes'
  rw [← hprogram, ← htypes] at houtcome hfinished
  refine ⟨houtcome, fun f hf => ?_⟩
  have hkeys := (analyze_tables_agree hf).contains
  obtain ⟨hblocks, rfl⟩ := blocks_of_findings hf
  have hok : r.outcome.isOk = true := congrArg (fun run => run.1.isOk) hblocks
  obtain ⟨hs, hspliced⟩ := hfinished hok
  refine ⟨.ofState r'.state, Run.findings_of_isOk (houtcome.trans hok), fun x hx => ?_, ?_, ?_,
    hspliced⟩
  · rw [heq x hx]
    exact hs.store.find?_eq hσ x
  · refine hs.store.shapes.trans (List.map_congr_left fun entry hentry => ?_)
    rw [heq entry.1 (hkeys _ (List.mem_map_of_mem hentry))]
  · have hreported := (List.forall₂_and_left _ _).mpr ⟨hs.reported, hs.diagnostics⟩
    exact hreported.imp fun d d' hd => hd.2.congr (heq _ hd.1)

/-- Gives a variable the name of a new one and another variable the name that this one had. -/
def lookalike : Var → Var
  | "a" => "asize0.3"
  | "b" => "a"
  | x => x

theorem analyze_rename_sum :
    ∃ f f', (analyze .standard sumProgram sumTypes (.empty 4)).findings = .ok f ∧
      (analyze .standard (sumProgram.rename lookalike) (sumTypes.rename lookalike)
        (.empty 4)).findings = .ok f' ∧
      f'.shapeOf? "asize0.3" = f.shapeOf? "a" ∧ f.shapes.KeysRenamed lookalike f'.shapes := by
  have hkeys : ∀ x ∈ sumTypes.keys, ∀ y ∈ sumTypes.keys, lookalike x = lookalike y → x = y := by
    decide
  have hlookalike : Set.InjOn lookalike {x | sumTypes.contains x = true} := fun x hx y hy =>
    hkeys x ((sumTypes.contains_iff_mem_keys x).mp hx) y ((sumTypes.contains_iff_mem_keys y).mp hy)
  have hrun : (analyze .standard sumProgram sumTypes (.empty 4)).findings =
      .ok (.ofState (analyze .standard sumProgram sumTypes (.empty 4)).state) :=
    Run.findings_of_isOk (by decide +kernel)
  obtain ⟨-, hfindings⟩ :=
    analyze_rename .standard (p := sumProgram) (.empty 4) (.empty 4) (by decide) hlookalike
  obtain ⟨f', hf', hshapes, hkeysRenamed, -⟩ := hfindings _ hrun
  exact ⟨_, f', hrun, hf', hshapes "a" (by decide), hkeysRenamed⟩

end DimEquiv
