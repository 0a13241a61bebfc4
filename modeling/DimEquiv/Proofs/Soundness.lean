import DimEquiv.Proofs.InferenceSoundness
import DimEquiv.Proofs.TableAgreement

/-!
# Equal classes are equal lengths

A run over a program keeps its tables true of every valuation that the program allows: classes stand
for lengths, and the size values of a class and of an array have these lengths as their values. The
reads that the run adds have to be evaluated for the latter.
-/

namespace DimEquiv

variable {v : Valuation} {told : Prop} {options : Options} {p : Program} {types : Types}

/-! ### Reads of dimension sizes -/

namespace Valuation

variable {array : Var} {dim l : Nat}

theorem number_of_read {tuple size : Var} {indexVar : Option Var}
    (htuple : v.ValueRule types tuple (.getattr array Operators.shapeAttr))
    (hsize : v.ValueRule types size (.staticGetitem tuple dim indexVar))
    (harray : types.isArray array = true) (hl : (v.lengths array)[dim]? = some l) :
    v.number size = .int l := by
  have hitems : v.items tuple = (v.lengths array).map fun l : Nat => Number.int l :=
    htuple rfl harray
  apply hsize dim (.int l) rfl
  rw [hitems, List.getElem?_map, hl]
  rfl

/-- The variable found to hold the size of a dimension holds its length. -/
theorem Evaluates.number_of_fetch? (h : v.Evaluates types p) {x : Var}
    (hx : (Symbols.empty.scan p).fetch? array dim = some x) (harray : types.isArray array = true)
    (hl : (v.lengths array)[dim]? = some l) : v.number x = .int l := by
  rw [Symbols.fetch?_scan_empty] at hx
  obtain ⟨a, ha, hread⟩ := List.exists_of_findSome?_eq_some hx
  obtain ⟨⟨tuple, indexVar, hvalue, htuple⟩, rfl⟩ := Assign.read?_eq_some_iff.mp hread
  rw [Symbols.find?_shapeTuples] at htuple
  obtain ⟨b, hb, htuple⟩ := List.exists_of_findSome?_eq_some htuple
  obtain ⟨hattr, rfl⟩ := Assign.shapeTuple?_eq_some_iff.mp htuple
  have hsize := h a ha
  have htuple := h b (List.mem_reverse.mp hb)
  rw [hvalue] at hsize
  rw [hattr] at htuple
  exact number_of_read htuple hsize harray hl

theorem number_of_group {reads : List Assign} {x : Var} (h : SizeRead.Group array dim reads x)
    (hreads : ∀ b ∈ reads, v.ValueRule types b.target b.value)
    (harray : types.isArray array = true) (hl : (v.lengths array)[dim]? = some l) :
    v.number x = .int l := by
  cases h with
  | mk tuple index =>
    have htuple := hreads _ List.mem_cons_self
    have hsize := hreads _ (List.mem_cons_of_mem _ (List.mem_cons_of_mem _ List.mem_cons_self))
    exact number_of_read htuple hsize harray hl

end Valuation

namespace SizeRead

variable {array : Var} {dim : Nat} {s t : State} {den : Int → Number}

/-- The size value of a dimension has its length as its value. -/
theorem Visited.denotes {c : Int} {reads : List Assign} {size : SizeValue} {l : Nat}
    (h : Visited array dim c s reads size t) (hden : s.store.Denotes v told den)
    (hc : c ≠ Shape.noClass → den c = .int l)
    (hfetch : ∀ x, s.symbols.fetch? array dim = some x → v.number x = .int l)
    (hreads : told → ∀ b ∈ reads, v.ValueRule types b.target b.value)
    (harray : types.isArray array = true) (hl : (v.lengths array)[dim]? = some l) :
    t.store.Denotes v told den ∧ (told → v.sizeOf size = .int l) := by
  cases h with
  | standing hstanding =>
    obtain ⟨hknown, hmem⟩ := standing?_eq_some hstanding
    exact ⟨hden, fun htold => (hden.sizes htold c size hmem).trans (hc hknown)⟩
  | @fetched x hnone hx =>
    have hvalue := hfetch x hx
    exact ⟨hden.represent fun _ hknown => hvalue.trans (hc hknown).symm, fun _ => hvalue⟩
  | @generated _ x _ hnone hx hgroup _ hstore =>
    have hvalue : told → v.number x = .int l := fun htold =>
      Valuation.number_of_group hgroup (hreads htold) harray hl
    rw [hstore]
    exact ⟨hden.represent fun htold hknown => (hvalue htold).trans (hc hknown).symm, hvalue⟩

/-- The size values of the dimensions from `dim` on have their lengths as their values. -/
theorem VisitedAll.denotes {cs : Shape} {r : SizeReads} (h : VisitedAll array dim cs s r t)
    {lengths : List Nat} (hlengths : (v.lengths array).drop dim = lengths)
    (hden : s.store.Denotes v told den) (hfits : cs.Fits den lengths)
    (hfetch : ∀ (i : Nat) l x, s.symbols.fetch? array i = some x →
      (v.lengths array)[i]? = some l → v.number x = .int l)
    (hreads : told → ∀ b ∈ r.instructions, v.ValueRule types b.target b.value)
    (harray : types.isArray array = true) :
    t.store.Denotes v told den ∧
      (told → r.sizes.map v.sizeOf = lengths.map fun l : Nat => Number.int l) := by
  induction h generalizing lengths with
  | nil =>
    cases hfits
    exact ⟨hden, fun _ => rfl⟩
  | @cons dim c cs s t u reads size rest h hrest ih =>
    cases hfits with
    | @cons _ l _ ls hc hcs =>
      have hl : (v.lengths array)[dim]? = some l := by
        have hhead : ((v.lengths array).drop dim)[0]? = (v.lengths array)[dim]? :=
          List.getElem?_drop
        rw [hlengths] at hhead
        exact hhead.symm
      have htail : (v.lengths array).drop (dim + 1) = ls := by
        rw [← List.drop_drop, hlengths]
        rfl
      obtain ⟨hden', hsize⟩ := h.denotes hden hc (fun x hx => hfetch dim l x hx hl)
        (fun htold b hb => hreads htold b (List.mem_append_left _ hb)) harray hl
      have hfetch' := hfetch
      rw [← h.symbols_eq] at hfetch'
      obtain ⟨hden'', hsizes⟩ := ih htail hden' hcs hfetch'
        (fun htold b hb => hreads htold b (List.mem_append_right _ hb))
      refine ⟨hden'', fun htold => ?_⟩
      rw [List.map_cons, List.map_cons, hsize htold, hsizes htold]

end SizeRead

/-- The size values chosen for an array have its lengths as their values. -/
def Store.Measures (v : Valuation) (s : Store) : Prop :=
  ∀ x sizes, s.sizeVars.find? x = some sizes →
    sizes.map v.sizeOf = (v.lengths x).map fun l : Nat => Number.int l

/-! ### The steps of a run -/

namespace Pass

variable {a : Assign} {s t : State} {reads : List Assign}

theorem Recorded.denotes {shape : Shape} {den : Int → Number} (h : Recorded a shape s reads t)
    (hden : s.store.Denotes v told den) (hsizes : told → s.store.Measures v)
    (hfits : shape.Fits den (v.lengths a.target))
    (hfetch : ∀ (i : Nat) l x, s.symbols.fetch? a.target i = some x →
      (v.lengths a.target)[i]? = some l → v.number x = .int l)
    (hreads : told → ∀ b ∈ reads, v.ValueRule types b.target b.value)
    (harray : types.isArray a.target = true) :
    t.store.Denotes v told den ∧ (told → t.store.Measures v) := by
  cases h with
  | @conflict previous h hne =>
    refine ⟨hden.record hfits, fun htold x sizes hx => ?_⟩
    simp only [State.report, Store.record_of_conflict h hne, Table.find?_erase] at hx
    split at hx
    · cases hx
    · exact hsizes htold x sizes hx
  | @sized r t h hvisited =>
    obtain ⟨hden', hread⟩ := hvisited.denotes List.drop_zero (hden.record hfits) hfits hfetch hreads
      harray
    refine ⟨⟨hden'.recorded, hden'.sizes⟩, fun htold x sizes hx => ?_⟩
    simp only [Store.setSizeVars, Table.find?_insert] at hx
    split at hx
    · rename_i htarget
      cases hx
      rw [← htarget]
      exact hread htold
    · rw [hvisited.gains.sizeVars] at hx
      apply hsizes htold x sizes
      rw [← (Store.frame_record_of_compatible h).2.1]
      exact hx

end Pass

/-- What a run over the program has found out is true of the valuation. -/
structure State.Valued (v : Valuation) (told : Prop) (p : Program) (types : Types) (s : State) :
    Prop where
  symbols : s.symbols.Reflects p types.isArray
  fetches : s.symbols.fetches = (Symbols.empty.scan p).fetches
  kept : ∀ x type, types.find? x = some type → s.types.find? x = some type
  rank?_eq : ∀ x, s.rank? x = (types.find? x).bind StaticType.rank?
  denotes : ∃ den, s.store.Denotes v told den
  measures : told → s.store.Measures v

namespace State.Valued

variable {s t : State} {a : Assign} {reads done : List Assign}

theorem start (v : Valuation) (told : Prop) (p : Program) (types : Types) (callTypes : CallTypes) :
    Valued v told p types (.start p types callTypes) where
  symbols := Symbols.reflects_scan_empty p p types.isArray
  fetches := rfl
  kept := fun _ _ hx => hx
  rank?_eq := fun _ => rfl
  denotes := by
    refine ⟨fun _ => .int 1, fun x shape hx => (by cases hx), fun _ c size hsize => ?_⟩
    change size ∈ Store.empty.sizesOf c at hsize
    simp only [Store.empty, Store.sizesOf, Table.find?_insert] at hsize
    split at hsize
    · rw [Option.getD_some, List.mem_singleton] at hsize
      rw [hsize]
      rfl
    · cases hsize
  measures := fun _ x sizes hx => (by cases hx)

theorem isArray_eq (h : s.Valued v told p types) : s.types.isArray = types.isArray :=
  isArray_eq_of_rank?_eq h.rank?_eq

/-- An assignment is observed before its value is inferred. -/
theorem symbols_observe (h : s.Valued v told p types) (hp : p.SingleAssignment types)
    (ha : a ∈ p.assigns) : (s.observe a).symbols.Reflects p types.isArray := by
  have hmodules : ∀ x, types.isArray x = true → p.isArrayModule x = false := by
    intro x hx
    cases hmodule : p.isArrayModule x with
    | false => rfl
    | true =>
      obtain ⟨b, hb, rfl, name, value, hvalue⟩ := Program.exists_of_isArrayModule hmodule
      rw [hp.globals b hb name value hvalue] at hx
      cases hx
  change (s.symbols.observe s.types.isArray a).Reflects p types.isArray
  rw [h.isArray_eq]
  exact h.symbols.observe (Program.definition?_of_mem hp.once ha) hmodules

theorem reflects (h : s.Valued v told p types) (hp : p.SingleAssignment types)
    (ha : a ∈ p.assigns) (options : Options) :
    Scope.Reflects options p types ((s.observe a).scope options) where
  options := rfl
  symbols := h.symbols_observe hp ha
  isArray := fun x => congrFun h.isArray_eq x
  types := by
    intro x hx
    obtain ⟨type, htype⟩ := Option.isSome_iff_exists.mp hx
    exact (h.kept x type htype).trans htype.symm

/-- The tables stay true of the valuation when an assignment is analyzed. -/
theorem denotes_assigned (h : s.Valued v told p types) (hs : s.store.Bounded)
    (htyped : p.Typed types) (hp : p.SingleAssignment types) (hv : v.Respects options types p)
    (ha : a ∈ p.assigns) (hassigned : Pass.Assigned options a s reads t)
    (hreads : told → ∀ b ∈ reads, v.ValueRule types b.target b.value) :
    (∃ den, t.store.Denotes v told den) ∧ (told → t.store.Measures v) := by
  cases hassigned with
  | scalar hscalar => exact ⟨h.denotes, h.measures⟩
  | @array rank shape ds _ _ hrank hsettle hrecorded =>
    rw [h.rank?_eq] at hrank
    have harray : types.isArray a.target = true :=
      (types.isArray_iff_rank? a.target).mpr ⟨rank, hrank⟩
    have hvalues : v.Evaluates types p := fun b hb => (hv.obeys b hb).value
    obtain ⟨den, hden⟩ := h.denotes
    obtain ⟨den', hden', hfits⟩ := (h.reflects hp ha options).sound_infer hvalues
      (htyped.assign ha).2 (hp.parameters a ha) ((hv.obeys a ha).lengths harray) s.store den hs hden
    have hlength := hv.ranked a.target rank hrank
    -- A shape that was not inferred is unknown in every dimension and fits whatever the lengths are.
    have hshape : shape.Fits den' (v.lengths a.target) := by
      rcases Pass.eq_of_settle hsettle with hok | rfl
      · exact hfits shape hok ((Pass.length_of_settle hsettle).trans hlength.symm)
      · rw [← hlength]
        exact .unknown den' _
    obtain ⟨rep, hcarries⟩ := (Pass.outcome_inferred options a s).carries hs
    have hmeasures : told → (Pass.behind options a ds s).store.Measures v := by
      intro htold x sizes hx
      apply h.measures htold x sizes
      rw [← hcarries.sizeVars]
      exact hx
    have hfetch : ∀ (i : Nat) l x,
        (Pass.behind options a ds s).symbols.fetch? a.target i = some x →
          (v.lengths a.target)[i]? = some l → v.number x = .int l := by
      intro i l x hx hl
      have hfetches : (Pass.behind options a ds s).symbols.fetches =
          (Symbols.empty.scan p).fetches :=
        (Symbols.fetches_observe s.types.isArray s.symbols a).trans h.fetches
      rw [Symbols.fetch?, hfetches] at hx
      exact hvalues.number_of_fetch? hx harray hl
    obtain ⟨hden'', hsizes⟩ := hrecorded.denotes hden' hmeasures hshape hfetch hreads harray
    exact ⟨⟨den', hden''⟩, hsizes⟩

theorem assigned (h : s.Valued v told p types) (hs : s.store.Bounded) (htyped : p.Typed types)
    (hp : p.SingleAssignment types) (hv : v.Respects options types p) (ha : a ∈ p.assigns)
    (hassigned : Pass.Assigned options a s reads t)
    (hreads : told → ∀ b ∈ reads, v.ValueRule types b.target b.value) :
    t.Valued v told p types := by
  obtain ⟨hdenotes, hmeasures⟩ := h.denotes_assigned hs htyped hp hv ha hassigned hreads
  have hdeclared := hassigned.declared
  refine ⟨?_, hassigned.fetches_eq.trans h.fetches,
    fun x type hx => hdeclared.kept x type (h.kept x type hx),
    fun x => (hdeclared.rank?_eq x).trans (h.rank?_eq x), hdenotes, hmeasures⟩
  cases hassigned with
  | scalar hscalar => exact h.symbols_observe hp ha
  | array hrank hsettle hrecorded =>
    rw [hrecorded.symbols_eq]
    exact h.symbols_observe hp ha

theorem emits {as out : List Assign} (h : s.Valued v told p types) (hs : s.Consistent done)
    (htyped : p.Typed types) (hp : p.SingleAssignment types) (hv : v.Respects options types p)
    (has : ∀ a ∈ as, a ∈ p.assigns) (hrun : Pass.Emits options s as out t)
    (hout : told → ∀ b ∈ out, v.ValueRule types b.target b.value) :
    t.Valued v told p types := by
  induction hrun generalizing done with
  | nil => exact h
  | @cons s t u a reads as out ha hrest ih =>
    have hassigned := Pass.assigned_of_run ha
    have hstep : t.Valued v told p types :=
      h.assigned hs.agreeing.toBounded htyped hp hv (has a List.mem_cons_self) hassigned
        fun htold b hb => hout htold b (List.mem_cons_of_mem a (List.mem_append_left out hb))
    exact ih hstep (hs.assigned hassigned) (fun b hb => has b (List.mem_cons_of_mem a hb))
      fun htold b hb => hout htold b (List.mem_cons_of_mem a (List.mem_append_right reads hb))

end State.Valued

/-- Dimensions that are found equal have the same length. -/
def Findings.Sound (v : Valuation) (f : Findings) : Prop :=
  ∀ x i y j, f.equivalentDims x i y j = true →
    ∃ l, (v.lengths x)[i.toNat]? = some l ∧ (v.lengths y)[j.toNat]? = some l

/-- The size values that are found have the lengths of their dimensions as their values. -/
structure Findings.Measured (v : Valuation) (f : Findings) : Prop where
  classes : ∀ x i c, f.classOf? x i = some c → ∀ size ∈ f.sizesOf c,
    ∃ l : Nat, (v.lengths x)[i.toNat]? = some l ∧ v.sizeOf size = .int l
  arrays : ∀ x sizes, f.sizeVarsOf? x = some sizes →
    sizes.map v.sizeOf = (v.lengths x).map fun l : Nat => Number.int l

/-- The class of a known dimension stands for its length. -/
theorem Store.Denotes.exists_length_of_classOf? {s : State} {den : Int → Number}
    (h : s.store.Denotes v told den) {x : Var} {i c : Int}
    (hc : (Findings.ofState s).classOf? x i = some c) :
    ∃ l : Nat, (v.lengths x)[i.toNat]? = some l ∧ den c = .int l := by
  simp only [Findings.classOf?, Option.filter_eq_some_iff, Option.bind_eq_some_iff,
    decide_eq_true_eq] at hc
  obtain ⟨⟨shape, hshape, hdim⟩, hknown⟩ := hc
  unfold Shape.dim? at hdim
  split at hdim
  · exact (h.recorded x shape hshape).exists_of_getElem? hdim hknown
  · cases hdim

/-- Whatever lengths a program allows, the dimensions that an analysis finds equal have the same
length, and once its reads are evaluated its size values are the lengths. -/
theorem analyze_sound {callTypes : CallTypes} {f : Findings} (htyped : p.Typed types)
    (hp : p.SingleAssignment types) (hv : v.Respects options types p)
    (h : (analyze options p types callTypes).findings = .ok f) :
    f.Sound v ∧
      (v.Evaluates types (analyze options p types callTypes).program → f.Measured v) := by
  obtain ⟨rfl, hrun⟩ := emits_of_findings h
  have hvalued := (State.Valued.start v
    (v.Evaluates types (analyze options p types callTypes).program) p types callTypes).emits
    (.start p types callTypes) htyped hp hv (fun _ ha => ha) hrun fun htold => htold
  obtain ⟨den, hden⟩ := hvalued.denotes
  constructor
  · intro x i y j hequal
    obtain ⟨c, hx, hy⟩ := (Findings.equivalentDims_iff ..).mp hequal
    obtain ⟨l, hl, hlden⟩ := hden.exists_length_of_classOf? hx
    obtain ⟨l', hl', hlden'⟩ := hden.exists_length_of_classOf? hy
    rw [hlden] at hlden'
    cases hlden'
    exact ⟨l, hl, hl'⟩
  · intro htold
    refine ⟨fun x i c hc size hsize => ?_, hvalued.measures htold⟩
    obtain ⟨l, hl, hlden⟩ := hden.exists_length_of_classOf? hc
    exact ⟨l, hl, (hden.sizes htold c size hsize).trans hlden⟩

/-- A row added to every row of a matrix, and the result transposed. -/
def shiftProgram : Program where
  name := "shift"
  argNames := ["a", "b"]
  blocks := [⟨0, [
    .assign ⟨"a", .arg 0 "a", none, 0⟩,
    .assign ⟨"b", .arg 1 "b", none, 1⟩,
    .assign ⟨"c", .binop "+" "a" "b", none, 2⟩,
    .assign ⟨"d", .getattr "c" "T", none, 3⟩,
    .ret "d" none]⟩]

def shiftTypes : Types :=
  .ofList [("a", .arrayOf 2), ("b", .arrayOf 1), ("c", .arrayOf 2), ("d", .arrayOf 2)]

/-- A matrix of two rows and three columns, with the variables that hold its sizes. -/
def shiftValuation : Valuation where
  lengths x := if x = "b" then [3] else if x = "d" then [3, 2] else [2, 3]
  number x := if x = "asize0.3" then 2 else 3
  items x := if x = "b_sh_attr0.7" then [3] else [2, 3]

theorem analyze_sound_shift :
    shiftProgram.Typed shiftTypes ∧ shiftProgram.SingleAssignment shiftTypes ∧
      shiftValuation.Respects .standard shiftTypes shiftProgram ∧
      ∃ f, (analyze .standard shiftProgram shiftTypes (.empty 4)).findings = .ok f ∧
        f.Sound shiftValuation ∧ f.Measured shiftValuation ∧ f.equivalentDims "b" 0 "d" 0 = true := by
  have htyped : shiftProgram.Typed shiftTypes := by decide
  have hassigns : shiftProgram.assigns = [⟨"a", .arg 0 "a", none, 0⟩, ⟨"b", .arg 1 "b", none, 1⟩,
    ⟨"c", .binop "+" "a" "b", none, 2⟩, ⟨"d", .getattr "c" "T", none, 3⟩] := rfl
  have hsingle : shiftProgram.SingleAssignment shiftTypes := by
    refine ⟨by decide, ?_, ?_⟩
    · simp [hassigns]
    · simp [hassigns]
  have hrespects : shiftValuation.Respects .standard shiftTypes shiftProgram := by
    refine ⟨by decide, ?_⟩
    simp only [hassigns, List.forall_mem_cons]
    refine ⟨⟨fun _ => trivial, trivial⟩, ⟨fun _ => trivial, trivial⟩, ⟨fun _ _ => ?_, trivial⟩,
      ⟨fun _ _ _ => rfl, by decide⟩, by simp⟩
    unfold Valuation.Elementwise
    decide
  have hrun : (analyze .standard shiftProgram shiftTypes (.empty 4)).findings =
      .ok (.ofState (analyze .standard shiftProgram shiftTypes (.empty 4)).state) :=
    Run.findings_of_isOk (by decide +kernel)
  obtain ⟨hsound, hmeasured⟩ := analyze_sound htyped hsingle hrespects hrun
  exact ⟨htyped, hsingle, hrespects, _, hrun, hsound, hmeasured (by decide +kernel),
    by decide +kernel⟩

end DimEquiv
