import DimEquiv.Proofs.Reanalysis
import DimEquiv.Proofs.SizeSources
import DimEquiv.Proofs.TableAgreement
import DimEquiv.Proofs.ToldDefinitions

/-!
# Where size values are assigned

In a block that assigns variables once, and before it mentions them, a size value of an array is assigned
before the array or by the reads behind it. Only a read that the program contains can stand later: the
analysis lists such reads beforehand and adopts the first of each dimension, wherever it stands.
-/

namespace DimEquiv

namespace Program

variable (p : Program) (array : Var) (dim : Int)

/-- The assignment reads a dimension of an array off its shape tuple. -/
def ReadsDimension (d : Assign) : Prop :=
  ∃ tuple indexVar, d.value = .staticGetitem tuple dim indexVar ∧
    p.definition? tuple = some (.getattr array Operators.shapeAttr)

/-- The assignment reads the dimension, and none before it does. -/
def FirstRead (d : Assign) : Prop :=
  p.ReadsDimension array dim d ∧ ∃ done rest, p.assigns = done ++ d :: rest ∧
    ∀ e ∈ done, ¬ p.ReadsDimension array dim e

end Program

/-- A run that starts in `s` makes `before'` of the instructions before an assignment, puts `reads`
behind the assignment, and makes `after'` of the instructions after it. -/
def Pass.Around (options : Options) (s : State) (before : List Instruction) (a : Assign)
    (after before' : List Instruction) (reads : List Assign) (after' : List Instruction) : Prop :=
  ∃ t u v, (body options before).run s = (.ok before', t) ∧
    (assign options a).run t = (.ok reads, u) ∧ (body options after).run u = (.ok after', v)

/-! ### What is mentioned -/

namespace Program

variable {p : Program} {done rest : List Assign} {a b : Assign} {x array : Var} {dim : Int}

/-- Nothing assigns a variable at or after a place in front of which it is mentioned. -/
theorem DefinedBeforeUse.notMem_of_mentioned (hp : p.DefinedBeforeUse)
    (h : p.assigns = done ++ a :: rest) (hx : Mentioned (done ++ [a]) x) :
    x ∉ (a :: rest).map Assign.target := by
  obtain ⟨b, hb, hmention⟩ := hx
  have hearlier : x ∈ done.map Assign.target ∨ x ∉ p.assigns.map Assign.target := by
    rcases List.mem_append.mp hb with hb | hb
    · obtain ⟨done₁, done₂, rfl⟩ := List.append_of_mem hb
      rw [List.append_assoc, List.cons_append] at h
      refine (hp.assigned_or_never h hmention).imp_left fun hmem => ?_
      rw [List.map_append]
      exact List.mem_append_left _ hmem
    · cases List.mem_singleton.mp hb
      exact hp.assigned_or_never h hmention
  have honce := hp.once
  rw [h, List.map_append] at honce hearlier
  intro hlater
  rcases hearlier with hmem | hnever
  · exact List.disjoint_of_nodup_append honce hmem hlater
  · exact hnever (List.mem_append_right _ hlater)

/-- What the scan takes for a read is one by the definitions of the program. -/
theorem DefinedBeforeUse.read?_eq_some_iff (hp : p.DefinedBeforeUse) :
    a.read? (Symbols.shapeTuples p.assigns) array dim = some x ↔
      p.ReadsDimension array dim a ∧ a.target = x := by
  rw [Assign.read?_eq_some_iff]
  refine and_congr_left fun _ => exists_congr fun tuple => exists_congr fun indexVar =>
    and_congr_right fun _ => ⟨fun h => ?_, fun h => ?_⟩
  · rw [Symbols.find?_shapeTuples] at h
    obtain ⟨e, he, htuple⟩ := List.exists_of_findSome?_eq_some h
    obtain ⟨hshape, rfl⟩ := Assign.shapeTuple?_eq_some_iff.mp htuple
    rw [definition?_of_mem hp.once (List.mem_reverse.mp he), hshape]
  · obtain ⟨e, he, rfl, hshape⟩ := exists_of_definition? h
    exact Symbols.find?_shapeTuples_of_unique he hshape
      fun e' he' htarget => List.inj_on_of_nodup_map hp.once he' he htarget

/-- A listed read is the first one of its dimension. -/
theorem DefinedBeforeUse.exists_of_fetch? (hp : p.DefinedBeforeUse)
    (h : (Symbols.empty.scan p).fetch? array dim = some x) :
    ∃ d ∈ p.assigns, d.target = x ∧ p.FirstRead array dim d := by
  rw [Symbols.fetch?_scan_empty, List.findSome?_eq_some_iff] at h
  obtain ⟨done, d, rest, hsplit, hread, hnone⟩ := h
  obtain ⟨hreads, htarget⟩ := hp.read?_eq_some_iff.mp hread
  refine ⟨d, hsplit ▸ List.mem_append_right _ List.mem_cons_self, htarget, hreads, done, rest, hsplit,
    fun e he hearlier => ?_⟩
  have hsome := hp.read?_eq_some_iff.mpr ⟨hearlier, rfl⟩
  rw [hnone e he] at hsome
  cases hsome

/-- No array is the size of one of its own dimensions. -/
theorem DefinedBeforeUse.not_readsDimension_self (hp : p.DefinedBeforeUse)
    (h : p.assigns = done ++ a :: rest) : ¬ p.ReadsDimension a.target dim a := by
  rintro ⟨tuple, indexVar, hvalue, htuple⟩
  obtain ⟨e, he, rfl, hshape⟩ := exists_of_definition? htuple
  have hmentions : e.target ∈ a.value.mentions := by
    rw [hvalue]
    exact List.mem_cons_self
  have hbefore := (hp.assigned_or_never h hmentions).resolve_right
    fun hnever => hnever (List.mem_map_of_mem he)
  obtain ⟨e', he', htarget⟩ := List.mem_map.mp hbefore
  have hsub : e' ∈ p.assigns := h ▸ List.mem_append_left _ he'
  obtain rfl := List.inj_on_of_nodup_map hp.once hsub he htarget
  refine hp.notMem_of_mentioned h ⟨e', List.mem_append_left _ he', ?_⟩ List.mem_cons_self
  rw [hshape]
  exact List.mem_cons_self

end Program

/-! ### Sources -/

/-- How a variable comes to be a size value while the assignments in `done` are analyzed. -/
inductive Program.Source (p : Program) (types types' : Types) (done : List Assign) (x : Var) : Prop
  /-- A shape is given by it. -/
  | mentioned (h : Mentioned done x)
  /-- It is the target of a new read. -/
  | declared (hnew : types.contains x = false) (hdeclared : types'.contains x = true)
  /-- It is the target of a read that the program contains. -/
  | adopted {array : Var} {dim : Int} (harray : types.isArray array = true)
    (hmem : array ∈ done.map Assign.target)
    (h : (Symbols.empty.scan p).fetch? array dim = some x)

theorem Program.Source.mono {p : Program} {types types' types'' : Types} {done done' : List Assign}
    {x : Var} (h : p.Source types types' done x) (hsub : done ⊆ done')
    (hkept : ∀ y, types'.contains y = true → types''.contains y = true) :
    p.Source types types'' done' x := by
  cases h with
  | mentioned h => exact .mentioned (h.mono hsub)
  | declared hnew hdeclared => exact .declared hnew (hkept x hdeclared)
  | adopted harray hmem h => exact .adopted harray (List.map_subset _ hsub hmem) h

/-- Recording a shape gives size values to the recorded array only. -/
theorem Pass.Recorded.find?_sizeVars {a : Assign} {shape : Shape} {s t : State}
    {reads : List Assign} (h : Recorded a shape s reads t) {x : Var} (hx : a.target ≠ x) :
    t.store.sizeVars.find? x = s.store.sizeVars.find? x := by
  cases h with
  | conflict hprevious hne =>
    simp only [State.report, Store.record_of_conflict hprevious hne, Table.find?_erase, if_neg hx]
  | @sized r u hcompatible hvisited =>
    change (u.store.sizeVars.insert a.target r.sizes).find? x = _
    rw [Table.find?_insert, if_neg hx, hvisited.gains.sizeVars,
      (Store.frame_record_of_compatible hcompatible).2.1]

theorem State.Declared.contains {s t : State} {as : List Assign} (h : s.Declared as t) {x : Var}
    (hx : s.types.contains x = true) : t.types.contains x = true := by
  obtain ⟨type, htype⟩ := Option.isSome_iff_exists.mp hx
  exact Option.isSome_iff_exists.mpr ⟨type, h.kept x type htype⟩

/-- All size values have come up while the assignments in `done` were analyzed. -/
structure State.Sourced (p : Program) (types : Types) (done : List Assign) (s : State) : Prop where
  fetches : s.symbols.fetches = (Symbols.empty.scan p).fetches
  symbols : s.symbols.Mentions done
  kept : ∀ x, types.contains x = true → s.types.contains x = true
  rank?_eq : ∀ x, s.rank? x = (types.find? x).bind StaticType.rank?
  classes : ∀ c x, .var x ∈ s.store.sizesOf c → p.Source types s.types done x
  arrays : ∀ y sizes x, s.store.sizeVars.find? y = some sizes → .var x ∈ sizes →
    p.Source types s.types done x

namespace State.Sourced

variable {options : Options} {p : Program} {types : Types} {done : List Assign} {s t : State}
  {a : Assign} {reads : List Assign}

theorem start (p : Program) (types : Types) (callTypes : CallTypes) :
    Sourced p types [] (.start p types callTypes) where
  fetches := rfl
  symbols := Symbols.mentions_scan_empty p
  kept := fun _ hx => hx
  rank?_eq := fun _ => rfl
  classes c x hx := by
    simp only [State.start, State.scan, State.initial, Store.empty, Store.sizesOf,
      Table.find?_insert] at hx
    split at hx
    · cases List.mem_singleton.mp hx
    · cases hx
  arrays := nofun

/-- A new read has a target that the program gives no type. -/
theorem source_of_read (h : s.Sourced p types done) (hdeclared : s.Declared reads t) {b : Assign}
    (hb : b ∈ reads) (done' : List Assign) : p.Source types t.types done' b.target := by
  obtain ⟨type, htype, -⟩ := hdeclared.scalar b hb
  refine .declared ?_ (Option.isSome_iff_exists.mpr ⟨type, htype⟩)
  rw [Bool.eq_false_iff]
  intro hold
  have hcontains := h.kept _ hold
  rw [Table.contains, hdeclared.fresh b hb] at hcontains
  cases hcontains

/-- Inference gives new classes the sizes that the program has mentioned. -/
theorem source_of_inferred (h : s.Sourced p types done) (hs : s.store.Bounded) {c : Int} {x : Var}
    (hx : .var x ∈ (Pass.inferred options a s).2.sizesOf c) :
    p.Source types s.types (done ++ [a]) x := by
  rcases Pass.mentioned_of_mem_sizesOf_inferred hs (h.symbols.observe _ a) hx with
    ⟨d, hd⟩ | hmentioned
  · exact (h.classes d x hd).mono (List.subset_append_left _ _) fun _ => id
  · exact .mentioned hmentioned

theorem recorded {rank : Nat} {shape : Shape} {ds : List Diagnostic}
    (h : s.Sourced p types done) (hs : s.store.Bounded) (hrank : s.rank? a.target = some rank)
    (hrecorded : Pass.Recorded a shape (Pass.behind options a ds s) reads t) :
    (∀ c x, .var x ∈ t.store.sizesOf c → p.Source types t.types (done ++ [a]) x) ∧
      ∀ y sizes x, t.store.sizeVars.find? y = some sizes → .var x ∈ sizes →
        p.Source types t.types (done ++ [a]) x := by
  have hbehind : s.Declared [] (Pass.behind options a ds s) := .of_types_eq rfl
  have hdeclared : s.Declared reads t := hbehind.append hrecorded.declared
  have hold : ∀ {x}, p.Source types s.types done x → p.Source types t.types (done ++ [a]) x :=
    fun hx => hx.mono (List.subset_append_left _ _) fun _ => hdeclared.contains
  have hclasses : ∀ c x, .var x ∈ (Pass.inferred options a s).2.sizesOf c →
      p.Source types t.types (done ++ [a]) x := fun c x hx =>
    (h.source_of_inferred hs hx).mono (List.Subset.refl _) fun _ => hdeclared.contains
  have hsizeVars : (Pass.inferred options a s).2.sizeVars = s.store.sizeVars := by
    obtain ⟨rep, hcarries⟩ := (Pass.outcome_inferred options a s).carries hs
    exact hcarries.sizeVars
  have hother : ∀ y sizes x, a.target ≠ y → t.store.sizeVars.find? y = some sizes →
      .var x ∈ sizes → p.Source types t.types (done ++ [a]) x := by
    intro y sizes x hne hy hx
    rw [hrecorded.find?_sizeVars hne] at hy
    exact hold (h.arrays y sizes x (hsizeVars ▸ hy) hx)
  cases hrecorded with
  | conflict hprevious hne =>
    refine ⟨fun c x hx => hclasses c x ?_, fun y sizes x hy hx => hother y sizes x ?_ hy hx⟩
    · simp only [State.report, Store.sizesOf, Store.classSizes_record] at hx
      exact hx
    · rintro rfl
      simp [State.report, Store.record_of_conflict hprevious hne] at hy
  | @sized r u hcompatible hvisited =>
    have hrecord : ∀ c x, .var x ∈ ((Pass.inferred options a s).2.record a.target shape).2.sizesOf c →
        p.Source types u.types (done ++ [a]) x := by
      intro c x hx
      rw [Store.sizesOf, Store.classSizes_record] at hx
      exact hclasses c x hx
    have hfetch : ∀ i x, (s.observe a).symbols.fetch? a.target i = some x →
        p.Source types u.types (done ++ [a]) x := by
      intro i x hx
      rw [Symbols.fetch?, State.observe, Symbols.fetches_observe, h.fetches] at hx
      have harray : types.isArray a.target = true :=
        (types.isArray_iff_rank? a.target).mpr ⟨rank, (h.rank?_eq a.target).symm.trans hrank⟩
      exact .adopted harray (by simp) hx
    obtain ⟨hstore, hsizes⟩ := hvisited.known_of_var hrecord hfetch
      fun b hb => h.source_of_read hdeclared hb (done ++ [a])
    refine ⟨hstore, fun y sizes x hy hx => ?_⟩
    by_cases htarget : a.target = y
    · change (u.store.sizeVars.insert a.target r.sizes).find? y = some sizes at hy
      rw [Table.find?_insert, if_pos htarget] at hy
      cases hy
      exact hsizes x hx
    · exact hother y sizes x htarget hy hx

theorem assigned (h : s.Sourced p types done) (hs : s.store.Bounded)
    (ha : Pass.Assigned options a s reads t) : t.Sourced p types (done ++ [a]) := by
  have hdeclared := ha.declared
  have hold : ∀ {x}, p.Source types s.types done x → p.Source types t.types (done ++ [a]) x :=
    fun hx => hx.mono (List.subset_append_left _ _) fun _ => hdeclared.contains
  have hfetches : t.symbols.fetches = (Symbols.empty.scan p).fetches :=
    ha.fetches_eq.trans h.fetches
  have hkept : ∀ x, types.contains x = true → t.types.contains x = true :=
    fun x hx => hdeclared.contains (h.kept x hx)
  have hrank?_eq : ∀ x, t.rank? x = (types.find? x).bind StaticType.rank? :=
    fun x => (hdeclared.rank?_eq x).trans (h.rank?_eq x)
  have hsymbols : (s.observe a).symbols.Mentions (done ++ [a]) := h.symbols.observe _ a
  cases ha with
  | scalar hscalar =>
    exact ⟨hfetches, hsymbols, hkept, hrank?_eq, fun c x hx => hold (h.classes c x hx),
      fun y sizes x hy hx => hold (h.arrays y sizes x hy hx)⟩
  | array hrank hsettle hrecorded =>
    obtain ⟨hclasses, harrays⟩ := h.recorded hs hrank hrecorded
    refine ⟨hfetches, ?_, hkept, hrank?_eq, hclasses, harrays⟩
    rw [hrecorded.symbols_eq]
    exact hsymbols

theorem emits {as out : List Assign} (h : s.Sourced p types done) (hs : s.Consistent done)
    (hrun : Pass.Emits options s as out t) : t.Sourced p types (done ++ as) := by
  induction hrun generalizing done with
  | nil => rwa [List.append_nil]
  | cons ha _ ih =>
    have hassigned := Pass.assigned_of_run ha
    rw [List.append_cons]
    exact ih (h.assigned hs.agreeing.toBounded hassigned) (hs.assigned hassigned)

end State.Sourced

/-! ### Around an assignment -/

namespace Pass

variable {options : Options} {s t : State} {a : Assign} {reads : List Assign}

/-- An item that is taken off a tuple is no shape that inference knows. -/
theorem eq_unknown_of_staticGetitem {tuple : Var} {index : Int} {indexVar : Option Var} {rank : Nat}
    {shape : Shape} {ds : List Diagnostic} (hvalue : a.value = .staticGetitem tuple index indexVar)
    (h : settle rank a (inferred options a s).1 = .ok (shape, ds)) : shape = .unknown rank := by
  rcases eq_of_settle h with hok | hunknown
  · rw [inferred, hvalue] at hok
    cases hok
  · exact hunknown

/-- An array that is taken off a tuple has no size values but reads of itself, old and new. -/
theorem Assigned.read_of_staticGetitem {tuple x : Var} {index : Int} {indexVar : Option Var}
    {rank : Nat} {sizes : List SizeValue} (h : Assigned options a s reads t)
    (hvalue : a.value = .staticGetitem tuple index indexVar) (hrank : s.rank? a.target = some rank)
    (hsizes : t.store.sizeVars.find? a.target = some sizes) (hx : .var x ∈ sizes) :
    (∃ dim, s.symbols.fetch? a.target dim = some x) ∨ ∃ b ∈ reads, b.target = x := by
  cases h with
  | scalar hscalar =>
    rw [hrank] at hscalar
    cases hscalar
  | array _ hsettle hrecorded =>
    obtain rfl := eq_unknown_of_staticGetitem hvalue hsettle
    cases hrecorded with
    | conflict hprevious hne =>
      simp [State.report, Store.record_of_conflict hprevious hne] at hsizes
    | @sized r u hcompatible hvisited =>
      change (u.store.sizeVars.insert a.target r.sizes).find? a.target = some sizes at hsizes
      rw [Table.find?_insert, if_pos rfl, Option.some.injEq] at hsizes
      rw [← hsizes] at hx
      rcases hvisited.of_unknown (fun c hc => Shape.eq_noClass_of_mem hc) hx with
        ⟨dim, hdim⟩ | hnew
      · have hdim' : (s.observe a).symbols.fetch? a.target dim = some x := hdim
        rw [Symbols.fetch?, State.observe, Symbols.fetches_observe] at hdim'
        exact .inl ⟨dim, hdim'⟩
      · exact .inr hnew

/-- An assignment gives size values to its target only. -/
theorem Assigned.find?_sizeVars (h : Assigned options a s reads t) (hs : s.store.Bounded) {x : Var}
    (hx : a.target ≠ x) : t.store.sizeVars.find? x = s.store.sizeVars.find? x := by
  cases h with
  | scalar hscalar => rfl
  | array hrank hsettle hrecorded =>
    obtain ⟨rep, hcarries⟩ := (outcome_inferred options a s).carries hs
    rw [hrecorded.find?_sizeVars hx, ← hcarries.sizeVars]
    rfl

theorem Emits.find?_sizeVars {as out done : List Assign} (h : Emits options s as out t)
    (hs : s.Consistent done) {x : Var} (hx : x ∉ as.map Assign.target) :
    t.store.sizeVars.find? x = s.store.sizeVars.find? x := by
  induction h generalizing done with
  | nil => rfl
  | cons ha _ ih =>
    rw [List.map_cons, List.mem_cons, not_or] at hx
    have hassigned := assigned_of_run ha
    rw [ih (hs.assigned hassigned) hx.2,
      hassigned.find?_sizeVars hs.agreeing.toBounded (Ne.symm hx.1)]

theorem Emits.subset {as out : List Assign} (h : Emits options s as out t) : as ⊆ out := by
  induction h with
  | nil => exact List.Subset.refl _
  | cons _ _ ih => exact List.cons_subset_cons _ (List.subset_append_of_subset_right _ ih)

/-- A run over a block passes each of its assignments. -/
theorem exists_runs_around {before after out : List Instruction}
    (h : (body options (before ++ .assign a :: after)).run s = (.ok out, t)) :
    ∃ before' u reads v after', (body options before).run s = (.ok before', u) ∧
      (assign options a).run u = (.ok reads, v) ∧ (body options after).run v = (.ok after', t) ∧
      out = before' ++ .assign a :: (reads.map .assign ++ after') := by
  rcases run_body_cases options before s with
    ⟨before', u, hbefore⟩ | ⟨-, -, -, -, e, -, u, -, -, -, hfail⟩
  · rw [run_body_append_of_ok hbefore] at h
    have hinstruction := run_instruction_assign options a u
    rcases ha : (assign options a).run u with ⟨e | reads, v⟩
    · rw [ha] at hinstruction
      rw [run_body_cons_of_error hinstruction] at h
      cases h
    · rw [ha] at hinstruction
      rw [run_body_cons_of_ok hinstruction] at h
      rcases hafter : (body options after).run v with ⟨e | after', w⟩
      · rw [hafter] at h
        cases h
      · rw [hafter] at h
        cases h
        exact ⟨before', u, reads, v, after', hbefore, ha, hafter, rfl⟩
  · rw [run_body_append_of_error hfail] at h
    cases h

end Pass

/-- No array is its own size value. -/
theorem State.Sourced.ne_target {options : Options} {p : Program} {types : Types}
    {done rest : List Assign} {s t : State} {a : Assign} {reads : List Assign}
    {sizes : List SizeValue} {x : Var} (h : s.Sourced p types done) (hp : p.DefinedBeforeUse)
    (hsplit : p.assigns = done ++ a :: rest) (ha : Pass.Assigned options a s reads t)
    (harray : types.isArray a.target = true)
    (hsizes : t.store.sizeVars.find? a.target = some sizes) (hx : .var x ∈ sizes)
    (hsource : p.Source types t.types (done ++ [a]) x) : x ≠ a.target := by
  rintro rfl
  obtain ⟨rank, htype⟩ := (types.isArray_iff_rank? a.target).mp harray
  have hrank : s.rank? a.target = some rank := (h.rank?_eq a.target).trans htype
  have hold : types.contains a.target = true := by
    obtain ⟨type, hfind, -⟩ := Option.bind_eq_some_iff.mp htype
    exact Option.isSome_iff_exists.mpr ⟨type, hfind⟩
  have hmem : a ∈ p.assigns := hsplit ▸ List.mem_append_right _ List.mem_cons_self
  have hself : ∀ array dim, (Symbols.empty.scan p).fetch? array dim = some a.target →
      p.ReadsDimension array dim a := by
    intro array dim hfetch
    obtain ⟨d, hd, htarget, hreads, -⟩ := hp.exists_of_fetch? hfetch
    rwa [← List.inj_on_of_nodup_map hp.once hd hmem htarget]
  cases hsource with
  | mentioned hmentioned => exact hp.notMem_of_mentioned hsplit hmentioned List.mem_cons_self
  | declared hnew =>
    rw [hold] at hnew
    cases hnew
  | adopted _ _ hfetch =>
    -- The array is an item of a shape tuple, so none of its dimensions is known.
    obtain ⟨tuple, indexVar, hvalue, -⟩ := hself _ _ hfetch
    rcases ha.read_of_staticGetitem hvalue hrank hsizes hx with ⟨dim, hdim⟩ | ⟨b, hb, htarget⟩
    · rw [Symbols.fetch?, h.fetches] at hdim
      exact hp.not_readsDimension_self hsplit (hself _ _ hdim)
    · have hcontains := h.kept _ hold
      rw [← htarget, Table.contains, ha.declared.fresh b hb] at hcontains
      cases hcontains

/-- What is emitted later for a size value is a read that the program contains. -/
theorem State.Sourced.adopted_of_emitted {options : Options} {p : Program} {types : Types}
    {done rest out : List Assign} {s t : State} {a d : Assign}
    (h : s.Sourced p types (done ++ [a])) (hp : p.DefinedBeforeUse)
    (hsplit : p.assigns = done ++ a :: rest)
    (htyped : d.target ∈ p.vars → types.contains d.target = true)
    (hsource : p.Source types s.types (done ++ [a]) d.target)
    (hrun : Pass.Emits options s rest out t) (hd : d ∈ out) :
    d ∈ rest ∧ ∃ array dim, types.isArray array = true ∧ p.FirstRead array dim d ∧
      array ∈ (done ++ [a]).map Assign.target := by
  have hsplit' : p.assigns = (done ++ [a]) ++ rest := by rw [hsplit, List.append_cons]
  have hsub : done ++ [a] ⊆ p.assigns := hsplit' ▸ List.subset_append_left _ _
  have hassigned : ∀ e ∈ p.assigns, e.target = d.target → types.contains d.target = true :=
    fun e he htarget => htyped (htarget ▸ Program.vars_subset_of_mem_assigns he List.mem_cons_self)
  rcases hrun.mem_or_fresh hd with hrest | ⟨hnew, -⟩
  · have hmem : d ∈ p.assigns := by
      rw [hsplit]
      exact List.mem_append_right _ (List.mem_cons_of_mem a hrest)
    cases hsource with
    | mentioned hmentioned =>
      refine absurd ?_ (hp.notMem_of_mentioned hsplit hmentioned)
      exact List.mem_cons_of_mem _ (List.mem_map_of_mem hrest)
    | declared hold =>
      rw [hassigned d hmem rfl] at hold
      cases hold
    | adopted harray hdone hfetch =>
      obtain ⟨e, he, htarget, hreads⟩ := hp.exists_of_fetch? hfetch
      rw [List.inj_on_of_nodup_map hp.once he hmem htarget] at hreads
      exact ⟨hrest, _, _, harray, hreads, hdone⟩
  · -- A new read declares its target, which no size value so far is.
    have hundeclared : types.contains d.target = true → False := by
      intro hold
      have hcontains := h.kept _ hold
      rw [Table.contains, hnew] at hcontains
      cases hcontains
    cases hsource with
    | mentioned hmentioned =>
      obtain ⟨e, he, hmention⟩ := hmentioned
      have hvars := Program.vars_subset_of_mem_assigns (hsub he)
      exact (hundeclared (htyped (hvars
        (List.mem_cons_of_mem _ (Expr.mem_mentions.mp hmention).1)))).elim
    | declared _ hdeclared =>
      rw [Table.contains, hnew] at hdeclared
      cases hdeclared
    | adopted _ _ hfetch =>
      obtain ⟨e, he, htarget, -⟩ := hp.exists_of_fetch? hfetch
      exact (hundeclared (hassigned e he htarget)).elim

/-- What is emitted at an array or later for one of its size values is a read that the program
contains. -/
theorem State.Sourced.adopted_of_late {options : Options} {p : Program} {types : Types}
    {done rest reads out : List Assign} {s t last : State} {a d : Assign} {sizes : List SizeValue}
    (h : s.Sourced p types done) (hs : s.Consistent done) (hp : p.DefinedBeforeUse)
    (hsplit : p.assigns = done ++ a :: rest) (ha : Pass.Assigned options a s reads t)
    (harray : types.isArray a.target = true) (hrun : Pass.Emits options t rest out last)
    (hsizes : last.store.sizeVars.find? a.target = some sizes) (hn : .var d.target ∈ sizes)
    (htyped : d.target ∈ p.vars → types.contains d.target = true) (hd : d ∈ a :: out) :
    d ∈ rest ∧ ∃ array dim, types.isArray array = true ∧ p.FirstRead array dim d ∧
      array ∈ (done ++ [a]).map Assign.target := by
  have hnodup := hp.once
  rw [hsplit, List.map_append, List.map_cons] at hnodup
  have hnot : a.target ∉ rest.map Assign.target :=
    (List.nodup_cons.mp (List.Nodup.of_append_right hnodup)).1
  -- The size values at the end are those that the array got when it was assigned.
  rw [hrun.find?_sizeVars (hs.assigned ha) hnot] at hsizes
  have hsourced := h.assigned hs.agreeing.toBounded ha
  have hsource := hsourced.arrays a.target sizes d.target hsizes hn
  rcases List.mem_cons.mp hd with rfl | hd
  · exact absurd rfl (h.ne_target hp hsplit ha harray hsizes hn hsource)
  · exact hsourced.adopted_of_emitted hp hsplit htyped hsource hrun hd

/-- An array with size values was assigned. -/
theorem State.Consistent.exists_of_sizeVars {done : List Assign} {s : State} (h : s.Consistent done)
    {x : Var} {sizes : List SizeValue} (hsizes : s.store.sizeVars.find? x = some sizes) :
    (∃ rank, s.rank? x = some rank) ∧ ∃ a ∈ done, a.target = x := by
  obtain ⟨shape, hshape, -⟩ := h.agreeing.backed x sizes hsizes
  exact (h.recorded x).mp ⟨shape, hshape⟩

/-- A finished analysis of one block is a run over its body. -/
theorem exists_run_body_of_findings {options : Options} {p : Program} {types : Types}
    {callTypes : CallTypes} {f : Findings} {b : Block} (hblock : p.blocks = [b])
    (h : (analyze options p types callTypes).findings = .ok f) :
    ∃ out t, (Pass.body options b.body).run (.start p types callTypes) = (.ok out, t) ∧
      f = .ofState t ∧ (analyze options p types callTypes).program.blocks = [{ b with body := out }] := by
  obtain ⟨hblocks, rfl⟩ := blocks_of_findings h
  rw [hblock] at hblocks
  rcases hbody : (Pass.body options b.body).run (.start p types callTypes) with ⟨e | out, t⟩
  · rw [Pass.blocks_cons_of_error hbody] at hblocks
    cases hblocks
  · rw [Pass.blocks_cons_of_ok hbody] at hblocks
    obtain ⟨-, hrest⟩ := Prod.mk.inj hblocks
    obtain ⟨hstate, hprogram⟩ := Prod.mk.inj hrest
    exact ⟨out, t, rfl, congrArg Findings.ofState hstate.symm, hprogram.symm⟩

/-- Every size value of an array is assigned before the array or by the reads behind it, unless the
assignment is the first read that the block has of a dimension of the array, or of one before it. -/
theorem analyze_sizes_defined {options : Options} {p : Program} {types : Types}
    {callTypes : CallTypes} {f : Findings} {b : Block} {x n : Var} {sizes : List SizeValue}
    (hblock : p.blocks = [b]) (hp : p.DefinedBeforeUse)
    (h : (analyze options p types callTypes).findings = .ok f)
    (hsizes : f.sizeVarsOf? x = some sizes) (hn : .var n ∈ sizes)
    (htyped : n ∈ p.vars → types.contains n = true) :
    ∃ before a after before' reads after', a.target = x ∧ b.body = before ++ .assign a :: after ∧
      Pass.Around options (.start p types callTypes) before a after before' reads after' ∧
      (analyze options p types callTypes).program.blocks =
        [{ b with body := before' ++ .assign a :: (reads.map .assign ++ after') }] ∧
      ∀ d, Instruction.assign d ∈ .assign a :: after' → d.target = n →
        .assign d ∈ after ∧ ∃ array dim, types.isArray array = true ∧ p.FirstRead array dim d ∧
          (array = x ∨ ∃ c, .assign c ∈ before ∧ c.target = array) := by
  obtain ⟨out, last, hbody, rfl, hprogram⟩ := exists_run_body_of_findings hblock h
  have hstart := State.Consistent.start p types callTypes
  obtain ⟨⟨rank, hrank⟩, a, ha, rfl⟩ :=
    (hstart.emits (Pass.emits_body hbody)).exists_of_sizeVars hsizes
  have harray : types.isArray a.target = true := by
    rw [(Pass.emits_body hbody).rank?_eq] at hrank
    exact (types.isArray_iff_rank? a.target).mpr ⟨rank, hrank⟩
  obtain ⟨before, after, hsplit⟩ := List.append_of_mem (Instruction.mem_filterMap_assign?.mp ha)
  have hassigns : p.assigns = before.filterMap Instruction.assign? ++
      a :: after.filterMap Instruction.assign? := by
    simp [Program.assigns, hblock, Block.assigns, hsplit, Instruction.assign?]
  rw [hsplit] at hbody
  obtain ⟨before', s, reads, t, after', hbefore, hrun, hafter, rfl⟩ := Pass.exists_runs_around hbody
  refine ⟨before, a, after, before', reads, after', rfl, hsplit, ⟨s, t, last, hbefore, hrun, hafter⟩,
    hprogram, ?_⟩
  have hs := hstart.emits (Pass.emits_body hbefore)
  have hsourced := (State.Sourced.start p types callTypes).emits hstart (Pass.emits_body hbefore)
  rw [List.nil_append] at hs hsourced
  rintro d hd rfl
  have hd' : d ∈ a :: after'.filterMap Instruction.assign? := by
    simpa only [List.mem_cons, Instruction.assign.injEq, Instruction.mem_filterMap_assign?] using hd
  obtain ⟨hrest, array, dim, hisArray, hreads, hdone⟩ :=
    hsourced.adopted_of_late hs hp hassigns (Pass.assigned_of_run hrun) harray (Pass.emits_body hafter)
      hsizes hn htyped hd'
  refine ⟨Instruction.mem_filterMap_assign?.mp hrest, array, dim, hisArray, hreads, ?_⟩
  obtain ⟨c, hc, rfl⟩ := List.mem_map.mp hdone
  rcases List.mem_append.mp hc with hc | hc
  · exact .inr ⟨c, Instruction.mem_filterMap_assign?.mp hc, rfl⟩
  · cases List.mem_singleton.mp hc
    exact .inl rfl

/-- An array whose length is read at the end. -/
def lateProgram : Program where
  name := "late"
  argNames := ["a"]
  blocks := [⟨0, [
    .assign ⟨"a", .arg 0 "a", none, 0⟩,
    .assign ⟨"s", .getattr "a" "shape", none, 1⟩,
    .assign ⟨"n", .staticGetitem "s" 0 none, none, 2⟩,
    .ret "n" none]⟩]

def lateTypes : Types := .ofList [("a", .arrayOf 1), ("s", .uniTuple .int64 1), ("n", .int64)]

theorem definedBeforeUse_late : lateProgram.DefinedBeforeUse := ⟨by decide, by decide⟩

theorem analyze_sizes_defined_late :
    ∃ f, (analyze .standard lateProgram lateTypes (.empty 3)).findings = .ok f ∧
      f.sizeVarsOf? "a" = some [.var "n"] ∧ lateTypes.contains "n" = true ∧
      ∃ before a after before' reads after', a.target = "a" ∧
        Pass.Around .standard (.start lateProgram lateTypes (.empty 3)) before a after before' reads
          after' ∧
        ∀ d, Instruction.assign d ∈ .assign a :: after' → d.target = "n" → .assign d ∈ after := by
  have hrun : (analyze .standard lateProgram lateTypes (.empty 3)).findings =
      .ok (.ofState (analyze .standard lateProgram lateTypes (.empty 3)).state) :=
    Run.findings_of_isOk (by decide +kernel)
  have hsizes : (Findings.ofState
      (analyze .standard lateProgram lateTypes (.empty 3)).state).sizeVarsOf? "a" =
        some [.var "n"] := by decide +kernel
  obtain ⟨before, a, after, before', reads, after', htarget, -, haround, -, hlater⟩ :=
    analyze_sizes_defined rfl definedBeforeUse_late hrun hsizes List.mem_cons_self (by decide)
  exact ⟨_, hrun, hsizes, by decide, before, a, after, before', reads, after', htarget, haround,
    fun d hd hn => (hlater d hd hn).1⟩

/-- An array beside a variable without a type, with a name such as reads get. -/
def namesakeProgram : Program where
  name := "namesake"
  argNames := ["a"]
  blocks := [⟨0, [
    .assign ⟨"a", .arg 0 "a", none, 0⟩,
    .assign ⟨"asize0.3", .const (.number 7), none, 1⟩,
    .ret "a" none]⟩]

/-- An instruction behind an array and the reads of it assigns a size value of the array. -/
def AssignsSizeLate (options : Options) (p : Program) (types : Types) (callTypes : CallTypes) : Prop :=
  ∃ f before a after before' reads after' sizes d,
    (analyze options p types callTypes).findings = .ok f ∧
      p.instructions = before ++ .assign a :: after ∧
      Pass.Around options (.start p types callTypes) before a after before' reads after' ∧
      f.sizeVarsOf? a.target = some sizes ∧ .var d.target ∈ sizes ∧ .assign d ∈ after'

/-- What stands behind an array in the block stands there after the analysis. -/
theorem AssignsSizeLate.of_body {options : Options} {p : Program} {types : Types}
    {callTypes : CallTypes} {f : Findings} {b : Block} {sizes : List SizeValue} (hblock : p.blocks = [b])
    (h : (analyze options p types callTypes).findings = .ok f) (before after : List Instruction)
    (a d : Assign) (hsplit : b.body = before ++ .assign a :: after) (hd : .assign d ∈ after)
    (hsizes : f.sizeVarsOf? a.target = some sizes) (hmem : .var d.target ∈ sizes) :
    AssignsSizeLate options p types callTypes := by
  obtain ⟨out, last, hbody, -, -⟩ := exists_run_body_of_findings hblock h
  rw [hsplit] at hbody
  obtain ⟨before', s, reads, t, after', hbefore, hrun, hafter, -⟩ := Pass.exists_runs_around hbody
  have hsubset := (Pass.emits_body hafter).subset
  have hinstructions : p.instructions = b.body := by simp [Program.instructions, hblock]
  refine ⟨f, before, a, after, before', reads, after', sizes, d, h, hinstructions.trans hsplit,
    ⟨s, t, last, hbefore, hrun, hafter⟩, hsizes, hmem, ?_⟩
  exact Instruction.mem_filterMap_assign?.mp (hsubset (Instruction.mem_filterMap_assign?.mpr hd))

/-- Adopted reads and namesakes without a type are assigned late. -/
theorem size_assigned_late :
    (lateProgram.DefinedBeforeUse ∧ AssignsSizeLate .standard lateProgram lateTypes (.empty 3)) ∧
      namesakeProgram.DefinedBeforeUse ∧
      AssignsSizeLate .standard namesakeProgram (.ofList [("a", .arrayOf 1)]) (.empty 2) := by
  have hlate : (analyze .standard lateProgram lateTypes (.empty 3)).findings =
      .ok (.ofState (analyze .standard lateProgram lateTypes (.empty 3)).state) :=
    Run.findings_of_isOk (by decide +kernel)
  have hlateSizes : (Findings.ofState
      (analyze .standard lateProgram lateTypes (.empty 3)).state).sizeVarsOf? "a" =
        some [.var "n"] := by decide +kernel
  have hnamesake : (analyze .standard namesakeProgram (.ofList [("a", .arrayOf 1)])
      (.empty 2)).findings = .ok (.ofState (analyze .standard namesakeProgram
        (.ofList [("a", .arrayOf 1)]) (.empty 2)).state) :=
    Run.findings_of_isOk (by decide +kernel)
  have hnamesakeSizes : (Findings.ofState (analyze .standard namesakeProgram
      (.ofList [("a", .arrayOf 1)]) (.empty 2)).state).sizeVarsOf? "a" =
        some [.var "asize0.3"] := by decide +kernel
  have hlateMoved := AssignsSizeLate.of_body rfl hlate []
    [.assign ⟨"s", .getattr "a" "shape", none, 1⟩,
      .assign ⟨"n", .staticGetitem "s" 0 none, none, 2⟩, .ret "n" none]
    ⟨"a", .arg 0 "a", none, 0⟩ ⟨"n", .staticGetitem "s" 0 none, none, 2⟩ rfl
    (List.mem_cons_of_mem _ List.mem_cons_self) hlateSizes List.mem_cons_self
  have hnamesakeMoved := AssignsSizeLate.of_body rfl hnamesake []
    [.assign ⟨"asize0.3", .const (.number 7), none, 1⟩, .ret "a" none]
    ⟨"a", .arg 0 "a", none, 0⟩ ⟨"asize0.3", .const (.number 7), none, 1⟩ rfl List.mem_cons_self
    hnamesakeSizes List.mem_cons_self
  exact ⟨⟨definedBeforeUse_late, hlateMoved⟩, ⟨by decide, by decide⟩, hnamesakeMoved⟩

end DimEquiv
