import DimEquiv.Proofs.InferenceCongruence
import DimEquiv.Proofs.TableAgreement

/-!
# Runs that resemble each other

Two states resemble each other when they tell the same of a set of known variables and of the
classes of all arrays. An assignment over known variables takes resembling states to resembling
states, and in the second one it adds no read if every read that the first one adds is there already.
-/

namespace DimEquiv

namespace Store

variable (s : Store) (v : Table Var (List SizeValue))

theorem represent_withSizeVars (c : Int) (size : SizeValue) :
    (s.withSizeVars v).represent c size = (s.represent c size).withSizeVars v := by
  unfold represent
  split <;> rfl

theorem record_withSizeVars (x : Var) (shape : Shape) :
    ((s.withSizeVars v).record x shape).2 =
      (s.record x shape).2.withSizeVars ((s.withSizeVars v).record x shape).2.sizeVars := by
  have hfind : (s.withSizeVars v).shapes.find? x = s.shapes.find? x := rfl
  unfold record
  rw [hfind]
  split
  · rfl
  · split <;> rfl

end Store

namespace Symbols

/-- The symbol tables tell the same of the variables in `known`. -/
structure Similar (known : Var → Prop) (t t' : Symbols) : Prop where
  arrayModules : t'.arrayModules = t.arrayModules
  mapCalls : t'.mapCalls = t.mapCalls
  moduleCalls : ∀ x, known x → t'.moduleCalls.find? x = t.moduleCalls.find? x
  methodCalls : ∀ x, known x → t'.methodCalls.find? x = t.methodCalls.find? x
  receivers : ∀ x call, t.methodCalls.find? x = some call → known call.receiver
  tuples : t'.tuples = t.tuples

variable {known : Var → Prop} {isArray isArray' : Var → Bool} {t t' : Symbols}

theorem Similar.enter (h : Similar known t t') (x : Var) {role : Role}
    (hreceiver : ∀ call, role = .methodCall call → known call.receiver) :
    Similar known (t.enter x role) (t'.enter x role) := by
  cases role with
  | arrayModule =>
    exact { h with arrayModules := congrArg (fun names => names.insert x) h.arrayModules }
  | map => exact { h with mapCalls := congrArg (fun names => names.insert x) h.mapCalls }
  | moduleCall name =>
    refine { h with moduleCalls := fun y hy => ?_ }
    simp only [Symbols.enter, Table.find?_insert, h.moduleCalls y hy]
  | methodCall call =>
    refine { h with methodCalls := fun y hy => ?_, receivers := fun y call' hcall => ?_ }
    · simp only [Symbols.enter, Table.find?_insert, h.methodCalls y hy]
    · rcases holds_of_enter (.methodCall call') hcall with ⟨-, hsame⟩ | hcall
      · exact hreceiver call' hsame
      · exact h.receivers y call' hcall
  | tuple items => exact { h with tuples := congrArg (fun tuples => tuples.insert x items) h.tuples }

/-- An assignment over known variables tells both the same. -/
theorem Similar.observe (h : Similar known t t') {a : Assign}
    (hx : ∀ x ∈ a.value.vars, known x) (harray : ∀ x, known x → isArray' x = isArray x) :
    Similar known (t.observe isArray a) (t'.observe isArray' a) := by
  rw [observe_eq, observe_eq, h.arrayModules,
    Expr.role?_congr (fun _ _ => rfl) fun x hmem => harray x (hx x (Expr.mem_mentions.mp hmem).1)]
  cases hrole : a.value.role? (fun x => x ∈ t.arrayModules) isArray with
  | none => exact h
  | some role =>
    refine h.enter a.target fun call hcall => ?_
    rw [hcall, Expr.role?_eq_some_iff] at hrole
    exact hx _ (Expr.mem_mentions.mp hrole.receiver_mem).1

/-- A new read tells nothing of a known variable. -/
theorem Similar.observe_read (h : Similar known t t') {b : Assign} (hb : ¬ known b.target)
    {array : Var} (hvalue : SizeRead.ReadValue array b.value) :
    Similar known t (t'.observe isArray' b) := by
  rcases t'.observe_cases isArray' b with ⟨hsame, -⟩ | ⟨role, henter, hgives⟩
  · rw [hsame]
    exact h
  have hne : ∀ y, known y → b.target ≠ y := fun y hy htarget => hb (htarget ▸ hy)
  rw [henter]
  generalize b.value = value at hvalue hgives
  cases hvalue with
  | tuple =>
    cases hgives with
    | moduleCall attr hmodule =>
      refine { h with moduleCalls := fun y hy => ?_ }
      rw [Symbols.enter, Table.find?_insert, if_neg (hne y hy), h.moduleCalls y hy]
    | methodCall attr hmodule harray =>
      refine { h with methodCalls := fun y hy => ?_ }
      rw [Symbols.enter, Table.find?_insert, if_neg (hne y hy), h.methodCalls y hy]
  | index n => cases hgives
  | size tuple index indexVar => cases hgives

end Symbols

namespace State

/-- The two states tell the same of the variables in `known`, and the same classes and diagnostics. -/
structure Similar (known : Var → Prop) (s t : State) : Prop where
  store : t.store = s.store.withSizeVars t.store.sizeVars
  symbols : s.symbols.Similar known t.symbols
  diagnostics : t.diagnostics = s.diagnostics
  typed : ∀ x, known x → ∃ type, s.types.find? x = some type
  types : ∀ x, known x → t.types.find? x = s.types.find? x

/-- What a run that adds no read leaves alone. -/
structure Kept (s t : State) : Prop where
  types : t.types = s.types
  callTypes : t.callTypes = s.callTypes
  fetches : t.symbols.fetches = s.symbols.fetches

theorem Kept.refl (s : State) : Kept s s := ⟨rfl, rfl, rfl⟩

theorem Kept.trans {s t u : State} (h : Kept s t) (h' : Kept t u) : Kept s u :=
  ⟨h'.types.trans h.types, h'.callTypes.trans h.callTypes, h'.fetches.trans h.fetches⟩

theorem Kept.fetch?_eq {s t : State} (h : Kept s t) (array : Var) (dim : Int) :
    t.symbols.fetch? array dim = s.symbols.fetch? array dim := by
  rw [Symbols.fetch?, Symbols.fetch?, h.fetches]

theorem kept_observe (s : State) (a : Assign) : Kept s (s.observe a) :=
  ⟨rfl, rfl, Symbols.fetches_observe _ _ _⟩

namespace Similar

variable {known : Var → Prop} {s t : State}

theorem agrees (h : Similar known s t) (options : Options) :
    Reading.Agrees known (s.scope options).reading (t.scope options).reading where
  options := rfl
  types := h.types
  callees := fun x hx => by
    have hmap := h.symbols.mapCalls
    have hmodule := h.symbols.moduleCalls x hx
    have hmethod := h.symbols.methodCalls x hx
    simp only [Scope.reading, scope, Symbols.callee?, hmap, hmodule, hmethod]
  receivers := fun func name x _ hcallee => by
    obtain ⟨call, hcall, rfl⟩ := Symbols.methodCall_of_callee? hcallee
    exact h.symbols.receivers func call hcall
  items := fun x _ => by
    have htuples := h.symbols.tuples
    simp only [Scope.reading, scope, htuples]

theorem rank?_eq (h : Similar known s t) {x : Var} (hx : known x) : t.rank? x = s.rank? x := by
  rw [rank?, rank?, h.types x hx]

theorem observe (h : Similar known s t) {a : Assign} (hx : ∀ x ∈ a.value.vars, known x) :
    Similar known (s.observe a) (t.observe a) where
  store := h.store
  symbols := h.symbols.observe hx fun x hknown => by
    rw [Types.isArray, Types.isArray, h.types x hknown]
  diagnostics := h.diagnostics
  typed := h.typed
  types := h.types

/-- New variables are not known. -/
theorem types_of_declared (h : Similar known s t) {s' : State} {reads : List Assign}
    (hs' : s.Declared reads s') :
    (∀ x, known x → ∃ type, s'.types.find? x = some type) ∧
      ∀ x, known x → t.types.find? x = s'.types.find? x := by
  have hkept : ∀ x, known x → s'.types.find? x = s.types.find? x := by
    intro x hx
    obtain ⟨type, htype⟩ := h.typed x hx
    rw [htype, hs'.kept x type htype]
  refine ⟨fun x hx => ?_, fun x hx => ?_⟩
  · rw [hkept x hx]
    exact h.typed x hx
  · rw [hkept x hx]
    exact h.types x hx

end Similar

end State

namespace SizeRead

variable {array : Var} {dim : Nat} {s s' t : State} {v : Table Var (List SizeValue)}

theorem standing?_of_store_eq (h : t.store = s.store.withSizeVars v) (c : Int) :
    standing? c t = standing? c s := by
  unfold standing?
  rw [h]
  rfl

/-- The size value that a second run takes for a dimension: the same, or a read that the first run did
not find listed. Only an unknown dimension of an array that is recorded again gets another one so. -/
inductive Retaken (again : Prop) (listed listed' : Int → Option Var) (dim : Nat) (c : Int)
    (size : SizeValue) : SizeValue → Prop
  | same : Retaken again listed listed' dim c size size
  | found {x : Var} (hunknown : c = Shape.noClass) (hagain : again) (hnone : listed dim = none)
    (hx : listed' dim = some x) : Retaken again listed listed' dim c size (.var x)

/-- The size values that a second run takes for the dimensions from `dim` on. -/
inductive RetakenAll (again : Prop) (listed listed' : Int → Option Var) :
    Nat → Shape → List SizeValue → List SizeValue → Prop
  | nil (dim : Nat) : RetakenAll again listed listed' dim [] [] []
  | cons {dim : Nat} {c : Int} {cs : Shape} {size size' : SizeValue} {sizes sizes' : List SizeValue}
    (h : Retaken again listed listed' dim c size size')
    (hrest : RetakenAll again listed listed' (dim + 1) cs sizes sizes') :
    RetakenAll again listed listed' dim (c :: cs) (size :: sizes) (size' :: sizes')

/-- A dimension whose new read is there already needs none. -/
theorem run_dimension_of_visited {c : Int} {reads : List Assign} {size : SizeValue} {again : Prop}
    (h : Visited array dim c s reads size s') (rank : Nat) (loc : Option Loc)
    (hstore : t.store = s.store.withSizeVars v)
    (hold : ∀ x, s.symbols.fetch? array dim = some x → t.symbols.fetch? array dim = some x)
    (hnew : ∀ b ∈ reads, ∀ tuple indexVar, b.value = .staticGetitem tuple dim indexVar →
      ∃ x, t.symbols.fetch? array dim = some x ∧
        (x = b.target ∨ (c = Shape.noClass ∧ again))) :
    ∃ size', (dimension array rank loc c dim).run t =
        (([], size'), { t with store := s'.store.withSizeVars v }) ∧
      Retaken again (s.symbols.fetch? array) (t.symbols.fetch? array) dim c size size' := by
  have hstanding := standing?_of_store_eq hstore c
  have hsame : t = { t with store := s.store.withSizeVars v } := by rw [← hstore]
  cases h with
  | standing h =>
    rw [h] at hstanding
    rw [run_dimension_of_standing array rank dim loc c t hstanding, ← hsame]
    exact ⟨size, rfl, .same⟩
  | @fetched x h hx =>
    rw [h] at hstanding
    rw [run_dimension_of_fetched array rank dim loc c t hstanding (hold x hx), hstore,
      Store.represent_withSizeVars]
    exact ⟨.var x, rfl, .same⟩
  | @generated _ x _ h hx hgroup hdeclared hstore' =>
    rw [h] at hstanding
    cases hgroup with
    | mk tuple index =>
      obtain ⟨x', hx', heq⟩ := hnew _
        (List.mem_cons_of_mem _ (List.mem_cons_of_mem _ List.mem_cons_self)) tuple (some index) rfl
      refine ⟨.var x', ?_, ?_⟩
      · rw [run_dimension_of_fetched array rank dim loc c t hstanding hx', hstore,
          Store.represent_withSizeVars, hstore']
        rcases heq with rfl | ⟨hunknown, -⟩
        · rfl
        · rw [Store.represent, Store.represent, if_pos hunknown, if_pos hunknown]
      · rcases heq with rfl | ⟨hunknown, hagain⟩
        · exact .same
        · exact .found hunknown hagain hx hx'

theorem run_dimensions_of_visitedAll {cs : Shape} {r : SizeReads} {again : Prop}
    (h : VisitedAll array dim cs s r s') (rank : Nat) (loc : Option Loc)
    (hstore : t.store = s.store.withSizeVars v)
    (hold : ∀ (index : Int) (x : Var), s.symbols.fetch? array index = some x →
      t.symbols.fetch? array index = some x)
    (hnew : ∀ b ∈ r.instructions, ∀ tuple index indexVar,
      b.value = .staticGetitem tuple index indexVar →
      ∃ x, t.symbols.fetch? array index = some x ∧ ∀ (k : Nat) (c : Int),
        index = ((dim + k : Nat) : Int) → cs[k]? = some c →
          x = b.target ∨ (c = Shape.noClass ∧ again)) :
    ∃ sizes, (dimensions array rank loc dim cs).run t =
        (⟨[], sizes⟩, { t with store := s'.store.withSizeVars v }) ∧
      RetakenAll again (s.symbols.fetch? array) (t.symbols.fetch? array) dim cs r.sizes sizes := by
  induction h generalizing t with
  | nil =>
    rw [← hstore]
    exact ⟨[], rfl, .nil _⟩
  | @cons dim c cs s u s' reads size rest h hrest ih =>
    obtain ⟨size', hrun, hretaken⟩ := run_dimension_of_visited h rank loc hstore (hold dim) (by
      intro b hb tuple indexVar hvalue
      obtain ⟨x, hx, heq⟩ := hnew b (List.mem_append_left _ hb) tuple dim indexVar hvalue
      exact ⟨x, hx, heq 0 c rfl rfl⟩)
    obtain ⟨sizes, hrun', hretaken'⟩ := ih (t := { t with store := u.store.withSizeVars v }) rfl
      (by
        intro index x hx
        rw [h.symbols_eq] at hx
        exact hold index x hx)
      (by
        intro b hb tuple index indexVar hvalue
        obtain ⟨x, hx, heq⟩ := hnew b (List.mem_append_right _ hb) tuple index indexVar hvalue
        exact ⟨x, hx, fun k d hindex hd => heq (k + 1) d (by omega) hd⟩)
    rw [h.symbols_eq] at hretaken'
    refine ⟨size' :: sizes, ?_, .cons hretaken hretaken'⟩
    rw [run_dimensions_cons, hrun]
    simp only [hrun']
    rfl

end SizeRead

/-- Two tables of size values change alike at a variable: it is no array and neither changes, both lose
its entry, or both give it size values that are related. -/
inductive Resized (x : Var) (related : List SizeValue → List SizeValue → Prop)
    (v w : Table Var (List SizeValue)) :
    Table Var (List SizeValue) → Table Var (List SizeValue) → Prop
  | kept (hx : v.find? x = none) : Resized x related v w v w
  | dropped : Resized x related v w (v.erase x) (w.erase x)
  | chosen {sizes sizes' : List SizeValue} (h : related sizes sizes') :
    Resized x related v w (v.insert x sizes) (w.insert x sizes')

/-- One run goes from `s` to `s'` and another from `t` to `t'`, and the size values that they give to
`x`, if any, are the same but for dimensions that were read in two places. -/
def State.ResizedAt (x : Var) (again : Prop) (s t s' t' : State) : Prop :=
  Resized x
    (fun sizes sizes' => ∃ shape, s'.store.shapes.find? x = some shape ∧
      SizeRead.RetakenAll again (s.symbols.fetch? x) (t.symbols.fetch? x) 0 shape sizes sizes')
    s.store.sizeVars t.store.sizeVars s'.store.sizeVars t'.store.sizeVars

namespace Pass

open State

variable {known : Var → Prop} {options : Options} {a : Assign} {s s' t : State}
  {reads : List Assign}

/-- Recording the same shape again adds no read that is there already. -/
theorem Recorded.rerun {shape : Shape} {again : Prop} (h : Recorded a shape s reads s')
    (hsim : Similar known s t)
    (hold : ∀ (index : Int) (x : Var), s.symbols.fetch? a.target index = some x →
      t.symbols.fetch? a.target index = some x)
    (hnew : ∀ b ∈ reads, ∀ tuple index indexVar, b.value = .staticGetitem tuple index indexVar →
      ∃ x, t.symbols.fetch? a.target index = some x ∧ ∀ (k : Nat) (c : Int),
        index = (k : Int) → shape[k]? = some c →
          x = b.target ∨ (c = Shape.noClass ∧ again)) :
    ∃ t', record a shape t = ([], t') ∧ Similar known s' t' ∧ Kept t t' ∧
      ResizedAt a.target again s t s' t' := by
  have htypes := hsim.types_of_declared h.declared
  have hrecord := s.store.record_withSizeVars t.store.sizeVars a.target shape
  rw [← hsim.store] at hrecord
  have hfind : t.store.shapes.find? a.target = s.store.shapes.find? a.target := by
    rw [hsim.store]
    rfl
  cases h with
  | @conflict previous h hne =>
    refine ⟨_, record_of_conflict a (hfind.trans h) hne, ?_, ⟨rfl, rfl, rfl⟩, ?_⟩
    · refine ⟨hrecord, hsim.symbols, ?_, htypes.1, htypes.2⟩
      simp only [State.report, hsim.diagnostics]
    · simp only [ResizedAt, State.report, Store.record_of_conflict h hne,
        Store.record_of_conflict (hfind.trans h) hne]
      exact .dropped
  | @sized r u h hvisited =>
    have hcompatible : ∀ previous, t.store.shapes.find? a.target = some previous →
        previous = shape := by
      rw [hfind]
      exact h
    obtain ⟨sizes, hrun, hretaken⟩ := SizeRead.run_dimensions_of_visitedAll
      (t := { t with store := (t.store.record a.target shape).2 }) hvisited shape.length a.loc
      hrecord hold (by
        intro b hb tuple index indexVar hvalue
        obtain ⟨x, hx, heq⟩ := hnew b hb tuple index indexVar hvalue
        exact ⟨x, hx, fun k c hindex hc => heq k c (by omega) hc⟩)
    rw [record_of_compatible a hcompatible]
    simp only [SizeRead.ofShape, hrun]
    refine ⟨_, rfl, ⟨rfl, ?_, ?_, htypes.1, htypes.2⟩, ⟨rfl, rfl, rfl⟩, ?_⟩
    · have hsymbols : u.symbols = s.symbols := hvisited.symbols_eq
      change u.symbols.Similar known t.symbols
      rw [hsymbols]
      exact hsim.symbols
    · have hdiagnostics : u.diagnostics = s.diagnostics := hvisited.diagnostics_eq
      exact hsim.diagnostics.trans hdiagnostics.symm
    · obtain ⟨hshapes, hs, -⟩ := Store.frame_record_of_compatible h
      have ht := (Store.frame_record_of_compatible hcompatible).2.1
      have hshape : u.store.shapes.find? a.target = some shape := by
        rw [hvisited.gains.shapes, hshapes, if_pos rfl]
      change Resized _ _ _ _ (u.store.sizeVars.insert a.target r.sizes)
        ((t.store.record a.target shape).2.sizeVars.insert a.target sizes)
      rw [hvisited.gains.sizeVars.trans hs, ht]
      exact .chosen ⟨shape, hshape, hretaken⟩

/-- Inference chooses no size values for arrays. -/
theorem sizeVars_inferred (options : Options) (a : Assign) (s : State) :
    (inferred options a s).2.sizeVars = s.store.sizeVars := by
  have hrun := ((s.observe a).scope options).oblivious_infer a.target a.value s.store
    s.store.sizeVars
  exact congrArg (fun r => r.2.sizeVars) hrun

theorem inferred_of_similar (options : Options) (hsim : Similar known s t)
    (hvars : ∀ x ∈ a.value.vars, known x) :
    inferred options a t =
      ((inferred options a s).1, (inferred options a s).2.withSizeVars t.store.sizeVars) := by
  have hinfer := Scope.infer_eq_of_agrees ((hsim.observe hvars).agrees options) a.target hvars
  have hrun := ((s.observe a).scope options).oblivious_infer a.target a.value s.store
    t.store.sizeVars
  rw [← hsim.store] at hrun
  rw [inferred, hinfer, hrun]
  rfl

theorem rerun_of_scalar (hsim : Similar known s t) (htarget : known a.target)
    (hvars : ∀ x ∈ a.value.vars, known x) (h : s.rank? a.target = none) :
    (assign options a).run t = (.ok [], t.observe a) ∧ Similar known (s.observe a) (t.observe a) ∧
      Kept t (t.observe a) := by
  rw [← hsim.rank?_eq htarget] at h
  exact ⟨run_assign_of_scalar options a h, hsim.observe hvars, t.kept_observe a⟩

theorem kept_behind {ds : List Diagnostic} (s : State) : Kept s (behind options a ds s) :=
  ⟨rfl, rfl, Symbols.fetches_observe _ _ _⟩

/-- An array over known variables is analyzed again with the same result. -/
theorem rerun_of_array {rank : Nat} {shape : Shape} {ds : List Diagnostic} {again : Prop}
    (hsim : Similar known s t) (htarget : known a.target) (hvars : ∀ x ∈ a.value.vars, known x)
    (h : s.rank? a.target = some rank)
    (hsettle : settle rank a (inferred options a s).1 = .ok (shape, ds))
    (hrecorded : Recorded a shape (behind options a ds s) reads s')
    (hold : ∀ (index : Int) (x : Var), s.symbols.fetch? a.target index = some x →
      t.symbols.fetch? a.target index = some x)
    (hnew : ∀ b ∈ reads, ∀ tuple index indexVar, b.value = .staticGetitem tuple index indexVar →
      ∃ x, t.symbols.fetch? a.target index = some x ∧ ∀ (k : Nat) (c : Int),
        index = (k : Int) → shape[k]? = some c →
          x = b.target ∨ (c = Shape.noClass ∧ again)) :
    ∃ t', (assign options a).run t = (.ok [], t') ∧ Similar known s' t' ∧ Kept t t' ∧
      ResizedAt a.target again s t s' t' := by
  have hinferred := inferred_of_similar options hsim hvars
  have hobserve := hsim.observe hvars
  have hbehind : Similar known (behind options a ds s) (behind options a ds t) := by
    refine ⟨?_, hobserve.symbols, ?_, hobserve.typed, hobserve.types⟩
    · simp only [behind, hinferred]
      rfl
    · simp only [behind, hsim.diagnostics]
  have hkept : Kept t (behind options a ds t) := kept_behind t
  have hkept' : Kept s (behind options a ds s) := kept_behind s
  obtain ⟨t', hrun, hsim', hkept'', hresized⟩ := hrecorded.rerun hbehind
    (by
      intro index x hx
      rw [hkept'.fetch?_eq] at hx
      rw [hkept.fetch?_eq]
      exact hold index x hx)
    (by
      intro b hb tuple index indexVar hvalue
      rw [hkept.fetch?_eq]
      exact hnew b hb tuple index indexVar hvalue)
  refine ⟨t', ?_, hsim', hkept.trans hkept'', ?_⟩
  · rw [← hsim.rank?_eq htarget] at h
    rw [run_assign_of_array options a h, hinferred, hsettle]
    simp only [hrun]
  · rw [ResizedAt, funext (hkept.fetch?_eq a.target), funext (hkept'.fetch?_eq a.target)] at hresized
    rwa [behind, behind, sizeVars_inferred, sizeVars_inferred] at hresized

/-- A new read is passed over. -/
theorem rerun_read (options : Options) (hsim : Similar known s t) (hrank : t.rank? a.target = none)
    (ha : ¬ known a.target) {array : Var} (hvalue : SizeRead.ReadValue array a.value) :
    (assign options a).run t = (.ok [], t.observe a) ∧ Similar known s (t.observe a) :=
  ⟨run_assign_of_scalar options a hrank, hsim.store, hsim.symbols.observe_read ha hvalue,
    hsim.diagnostics, hsim.typed, hsim.types⟩

end Pass

end DimEquiv
