import DimEquiv.Proofs.ReadLookup
import DimEquiv.Proofs.Resemblance
import DimEquiv.Proofs.TableAgreement

/-!
# Analyzing a program again

The program that an analysis leaves contains every read that its dimensions need. A second analysis
resembles the first one step by step: it finds in the program what the first one added, and the
assignments that were added tell it nothing else.
-/

namespace DimEquiv

namespace Pass

open State

variable {options : Options} {s t : State} {as out : List Assign}

/-! ### The targets of new reads -/

theorem Emits.kept (h : Emits options s as out t) {x : Var} {type : StaticType}
    (hx : s.types.find? x = some type) : t.types.find? x = some type := by
  induction h with
  | nil => exact hx
  | cons ha _ ih => exact ih ((assigned_of_run ha).declared.kept x type hx)

/-- What stands in the rewritten program stood there before or has a new scalar as its target. -/
theorem Emits.mem_or_fresh (h : Emits options s as out t) {b : Assign} (hb : b ∈ out) :
    b ∈ as ∨ (s.types.find? b.target = none ∧
      ∃ type, t.types.find? b.target = some type ∧ type.rank? = none) := by
  induction h with
  | nil => cases hb
  | @cons s t u a reads as out ha hrest ih =>
    have hdeclared := (assigned_of_run ha).declared
    rcases List.mem_cons.mp hb with rfl | hb
    · exact .inl List.mem_cons_self
    rcases List.mem_append.mp hb with hb | hb
    · obtain ⟨type, htype, hrank⟩ := hdeclared.scalar b hb
      exact .inr ⟨hdeclared.fresh b hb, type, hrest.kept htype, hrank⟩
    · rcases ih hb with hmem | ⟨hnone, htype⟩
      · exact .inl (List.mem_cons_of_mem a hmem)
      · refine .inr ⟨?_, htype⟩
        rw [Option.eq_none_iff_forall_ne_some]
        intro type hx
        rw [hdeclared.kept _ _ hx] at hnone
        cases hnone

/-- Every new variable is assigned once. -/
theorem Emits.eq_of_target (h : Emits options s as out t)
    (has : ∀ a ∈ as, ∃ type, s.types.find? a.target = some type) {b b' : Assign} (hb : b ∈ out)
    (hb' : b' ∈ out) (heq : b'.target = b.target) (hnew : s.types.find? b.target = none) :
    b' = b := by
  induction h with
  | nil => cases hb
  | @cons s t u a reads as out ha hrest ih =>
    have hdeclared := (assigned_of_run ha).declared
    have has' : ∀ c ∈ as, ∃ type, t.types.find? c.target = some type := by
      intro c hc
      obtain ⟨type, htype⟩ := has c (List.mem_cons_of_mem a hc)
      exact ⟨type, hdeclared.kept _ _ htype⟩
    have hne : ∀ c, c.target = b.target → c ∉ a :: as := by
      intro c hc hmem
      obtain ⟨type, htype⟩ := has c hmem
      rw [hc, hnew] at htype
      cases htype
    have hlater : ∀ c ∈ out, c.target = b.target → t.types.find? b.target = none := by
      intro c hc hcb
      rcases hrest.mem_or_fresh hc with hmem | ⟨hnone, -⟩
      · exact absurd (List.mem_cons_of_mem a hmem) (hne c hcb)
      · rw [← hcb]
        exact hnone
    have hhere : ∀ c ∈ reads, c.target = b.target → t.types.find? b.target ≠ none := by
      intro c hc hcb
      obtain ⟨type, htype, -⟩ := hdeclared.scalar c hc
      rw [← hcb, htype]
      exact Option.some_ne_none type
    have hcases : ∀ c ∈ a :: (reads ++ out), c.target = b.target → c ∈ reads ∨ c ∈ out := by
      intro c hc hcb
      rcases List.mem_cons.mp hc with rfl | hc
      · exact absurd List.mem_cons_self (hne c hcb)
      · exact List.mem_append.mp hc
    rcases hcases b hb rfl with hb₁ | hb₁
    · rcases hcases b' hb' heq with hb₂ | hb₂
      · exact List.inj_on_of_nodup_map hdeclared.distinct hb₂ hb₁ heq
      · exact absurd (hlater b' hb₂ heq) (hhere b hb₁ rfl)
    · rcases hcases b' hb' heq with hb₂ | hb₂
      · exact absurd (hlater b hb₁ rfl) (hhere b' hb₂ heq)
      · exact ih has' hb₁ hb₂ (hlater b hb₁ rfl)

/-! ### The reads of the rewritten program -/

/-- The shape tuples of typed variables are those that the program had before. -/
theorem Emits.find?_shapeTuples (h : Emits options s as out t) {x : Var} {type : StaticType}
    (hx : s.types.find? x = some type) :
    (Symbols.shapeTuples out).find? x = (Symbols.shapeTuples as).find? x := by
  induction h with
  | nil => rfl
  | @cons s t u a reads as out ha hrest ih =>
    have hdeclared := (assigned_of_run ha).declared
    have hreads : (Symbols.shapeTuples reads).find? x = none :=
      Symbols.find?_shapeTuples_of_notMem fun b hb => hdeclared.ne_of_typed hb hx
    rw [← List.singleton_append, Symbols.find?_shapeTuples_append, Symbols.find?_shapeTuples_append,
      hreads, Option.or_none, ih (hdeclared.kept x type hx), ← Symbols.find?_shapeTuples_append,
      List.singleton_append]

/-- An assignment over known variables reads the same dimension in both programs. -/
theorem read?_congr {known : Var → Prop} {tuples tuples' : Table Var Var}
    (h : ∀ x, known x → tuples'.find? x = tuples.find? x) {a : Assign}
    (hvars : ∀ x ∈ a.value.vars, known x) (array : Var) (index : Int) :
    a.read? tuples' array index = a.read? tuples array index := by
  obtain ⟨target, value, loc, site⟩ := a
  cases value with
  | staticGetitem x i indexVar => simp only [Assign.read?, h x (hvars x List.mem_cons_self)]
  | _ => rfl

theorem findSome?_read_congr {known : Var → Prop} {tuples tuples' : Table Var Var}
    (h : ∀ x, known x → tuples'.find? x = tuples.find? x) {as : List Assign}
    (hvars : ∀ a ∈ as, ∀ x ∈ a.value.vars, known x) (array : Var) (index : Int) :
    as.findSome? (Assign.read? tuples' array index) =
      as.findSome? (Assign.read? tuples array index) := by
  induction as with
  | nil => rfl
  | cons a as ih =>
    rw [List.findSome?_cons, List.findSome?_cons, read?_congr h (hvars a List.mem_cons_self),
      ih fun b hb => hvars b (List.mem_cons_of_mem a hb)]

/-- Every shape tuple of a new read belongs to the array that is read. -/
def TuplesTold (known : Var → Prop) (tuples : Table Var Var) (out : List Assign) : Prop :=
  ∀ b ∈ out, ¬ known b.target → ∀ array, b.value = .getattr array Operators.shapeAttr →
    tuples.find? b.target = some array

/-- New shape tuples are assigned once, also where old assignments follow. -/
theorem Emits.tuplesTold (h : Emits options s as out t) {bs : List Assign}
    (has : ∀ a ∈ as ++ bs, ∃ type, s.types.find? a.target = some type) :
    TuplesTold (fun x => s.types.contains x = true) (Symbols.shapeTuples (out ++ bs)) out := by
  intro b hb hunknown array hvalue
  have hnew : s.types.find? b.target = none := Option.not_isSome_iff_eq_none.mp hunknown
  refine Symbols.find?_shapeTuples_of_unique (List.mem_append_left bs hb) hvalue
    fun b' hb' heq => ?_
  rcases List.mem_append.mp hb' with hb' | hb'
  · exact h.eq_of_target (fun a ha => has a (List.mem_append_left bs ha)) hb hb' heq hnew
  · obtain ⟨type, htype⟩ := has b' (List.mem_append_right as hb')
    rw [heq, hnew] at htype
    cases htype

theorem Assigned.read?_eq_some {known : Var → Prop} {a b : Assign} {reads : List Assign}
    {tuples : Table Var Var} (h : Assigned options a s reads t) (hb : b ∈ reads)
    (hknown : ∀ x, known x → ∃ type, s.types.find? x = some type)
    (htuples : TuplesTold known tuples reads) {array size : Var} {index : Int}
    (hread : b.read? tuples array index = some size) :
    array = a.target ∧ s.symbols.fetch? a.target index = none ∧
      ∃ rank, s.rank? a.target = some rank := by
  obtain ⟨⟨tuple, indexVar, hvalue, htuple⟩, -⟩ := Assign.read?_eq_some_iff.mp hread
  obtain ⟨hfetch, hrank, b', hb', rfl, hvalue'⟩ := h.of_staticGetitem hb hvalue
  have hunknown := h.declared.not_known hknown hb'
  rw [htuples b' hb' hunknown a.target hvalue', Option.some.injEq] at htuple
  exact ⟨htuple.symm, hfetch, hrank⟩

/-- Of the reads behind an assignment, one reads the dimension. -/
theorem Recorded.findSome?_read {a b : Assign} {shape : Shape} {reads : List Assign}
    (h : Recorded a shape s reads t) (hb : b ∈ reads) {tuples : Table Var Var} {array tuple : Var}
    {index : Int} {indexVar : Option Var} (hvalue : b.value = .staticGetitem tuple index indexVar)
    (htuple : tuples.find? tuple = some array) :
    reads.findSome? (Assign.read? tuples array index) = some b.target := by
  have hread : b.read? tuples array index = some b.target :=
    Assign.read?_eq_some_iff.mpr ⟨⟨tuple, indexVar, hvalue, htuple⟩, rfl⟩
  cases hfound : reads.findSome? (Assign.read? tuples array index) with
  | none =>
    rw [List.findSome?_eq_none_iff] at hfound
    rw [hfound b hb] at hread
    cases hread
  | some x =>
    obtain ⟨b₁, hb₁, hread₁⟩ := List.exists_of_findSome?_eq_some hfound
    obtain ⟨⟨tuple₁, indexVar₁, hvalue₁, -⟩, rfl⟩ := Assign.read?_eq_some_iff.mp hread₁
    cases h with
    | conflict _ _ => cases hb
    | sized _ hvisited => rw [hvisited.eq_of_staticGetitem hb₁ hb hvalue₁ hvalue]

theorem Assigned.fetch?_eq {a : Assign} {reads : List Assign} (h : Assigned options a s reads t)
    (array : Var) (index : Int) : t.symbols.fetch? array index = s.symbols.fetch? array index := by
  rw [Symbols.fetch?, Symbols.fetch?, h.fetches_eq]

/-- A dimension that the program read before is read by the same assignment as before. -/
theorem Emits.findSome?_read {known : Var → Prop} {tuples tuples' : Table Var Var}
    (h : Emits options s as out t) (hknown : ∀ x, known x → ∃ type, s.types.find? x = some type)
    (hvars : ∀ a ∈ as, ∀ x ∈ a.value.vars, known x)
    (hagree : ∀ x, known x → tuples'.find? x = tuples.find? x)
    (htuples : TuplesTold known tuples' out) {array : Var} {index : Int}
    (hread : s.symbols.fetch? array index ≠ none) :
    out.findSome? (Assign.read? tuples' array index) =
      as.findSome? (Assign.read? tuples array index) := by
  induction h with
  | nil => rfl
  | @cons s t u a reads as out ha hrest ih =>
    have hassigned := assigned_of_run ha
    have hknown' : ∀ x, known x → ∃ type, t.types.find? x = some type := by
      intro x hx
      obtain ⟨type, htype⟩ := hknown x hx
      exact ⟨type, hassigned.declared.kept x type htype⟩
    have hreads : reads.findSome? (Assign.read? tuples' array index) = none := by
      rw [List.findSome?_eq_none_iff]
      intro b hb
      rw [Option.eq_none_iff_forall_ne_some]
      intro size hsize
      have htuples' : TuplesTold known tuples' reads := fun b hb =>
        htuples b (List.mem_cons_of_mem a (List.mem_append_left out hb))
      obtain ⟨rfl, hfetch, -⟩ := hassigned.read?_eq_some hb hknown htuples' hsize
      exact hread hfetch
    have hrest' := ih hknown' (fun b hb => hvars b (List.mem_cons_of_mem a hb))
      (fun b hb => htuples b (List.mem_cons_of_mem a (List.mem_append_right reads hb)))
      (by rwa [hassigned.fetch?_eq])
    rw [List.findSome?_cons, List.findSome?_append, hreads, Option.none_or, hrest',
      read?_congr hagree (hvars a List.mem_cons_self), List.findSome?_cons]

/-! ### The second run -/

/-- A list of new reads is passed over. -/
theorem silent_reads (options : Options) {known : Var → Prop} {array : Var} {reads : List Assign}
    (hsim : Similar known s t)
    (hreads : ∀ b ∈ reads, t.rank? b.target = none ∧ ¬ known b.target ∧
      SizeRead.ReadValue array b.value) :
    ∃ t', Silent options t reads t' ∧ Similar known s t' ∧ Kept t t' ∧ t'.store = t.store := by
  induction reads generalizing t with
  | nil => exact ⟨t, .nil t, hsim, .refl t, rfl⟩
  | cons b reads ih =>
    obtain ⟨hrank, hunknown, hvalue⟩ := hreads b List.mem_cons_self
    obtain ⟨hrun, hsim'⟩ := rerun_read options hsim hrank hunknown hvalue
    obtain ⟨t', hsilent, hsim'', hkept, hstore⟩ := ih hsim' fun b' hb' =>
      hreads b' (List.mem_cons_of_mem b hb')
    exact ⟨t', .cons hrun hsilent, hsim'', (t.kept_observe b).trans hkept, hstore⟩

/-- What the second run finds at some point: `done` was visited before, and of the program `total`
the part `before` lies behind. -/
structure Rereading (known : Var → Prop) (tuples : Table Var Var) (total before : List Assign)
    (s t : State) : Prop where
  similar : Similar known s t
  found : ∀ array index, t.symbols.fetch? array index =
    total.findSome? (Assign.read? tuples array index)
  old : ∀ array index x, s.symbols.fetch? array index = some x →
    t.symbols.fetch? array index = some x
  recorded : ∀ array index, s.symbols.fetch? array index = none →
    before.findSome? (Assign.read? tuples array index) ≠ none →
      ∃ shape, s.store.shapes.find? array = some shape

namespace Rereading

variable {known : Var → Prop} {tuples : Table Var Var} {total before : List Assign} {a : Assign}
  {reads rest : List Assign} {u : State} {done : List Assign}

/-- A class without a size value belongs to no array that was recorded before. -/
theorem notRecorded_of_new {shape : Shape} {ds : List Diagnostic} {r : SizeReads} {v : State}
    (hs : s.Consistent done)
    (hcompatible : ∀ previous,
      (behind options a ds s).store.shapes.find? a.target = some previous → previous = shape)
    (hvisited : SizeRead.VisitedAll a.target 0 shape { behind options a ds s with
      store := ((behind options a ds s).store.record a.target shape).2 } r v)
    {b : Assign} (hb : b ∈ r.instructions) {tuple : Var} {index : Int} {indexVar : Option Var}
    (hvalue : b.value = .staticGetitem tuple index indexVar) {k : Nat} {c : Int}
    (hindex : index = k) (hc : shape[k]? = some c) (hclass : c ≠ Shape.noClass) (known : Shape) :
    s.store.shapes.find? a.target ≠ some known := by
  intro hrecorded
  have houtcome := outcome_inferred options a s
  have hagreeing : (behind options a ds s).store.Agreeing := hs.agreeing.outcome houtcome
  obtain ⟨k', c', hc', hindex', -, hsizes, -⟩ := hvisited.of_staticGetitem hb hvalue
  obtain rfl : k = k' := by omega
  cases hc.symm.trans hc'
  have hnil : (behind options a ds s).store.sizesOf c = [] := by
    have hclassSizes := (Store.frame_record_of_compatible hcompatible).2.2.1
    have hnil := hsizes.resolve_left hclass
    simp only [Store.sizesOf, hclassSizes] at hnil ⊢
    exact hnil
  obtain ⟨rep, hcarries⟩ := houtcome.carries hs.agreeing.toBounded
  have hprevious : (behind options a ds s).store.shapes.find? a.target =
      some (known.map rep) := by
    rw [behind, hcarries.find?_shapes, hrecorded, Option.map_some]
  refine hagreeing.sized _ _ hprevious c ?_ hclass hnil
  rw [hcompatible _ hprevious]
  exact List.mem_of_getElem? hc

/-- What the first run reads anew, the second one finds in the program. It may find another read of the
dimension only if the dimension is unknown and its array was recorded before. -/
theorem exists_found (h : Rereading known tuples total before s t) (hs : s.Consistent done)
    (htotal : total = before ++ a :: (reads ++ rest))
    (ha : ∀ array index x, a.read? tuples array index = some x →
      s.symbols.fetch? array index ≠ none)
    (htuples : TuplesTold known tuples reads) {rank : Nat} {shape : Shape} {ds : List Diagnostic}
    (hrank : s.rank? a.target = some rank)
    (hsettle : settle rank a (inferred options a s).1 = .ok (shape, ds))
    (hrecorded : Recorded a shape (behind options a ds s) reads u) {b : Assign} (hb : b ∈ reads)
    {tuple : Var} {index : Int} {indexVar : Option Var}
    (hvalue : b.value = .staticGetitem tuple index indexVar) :
    ∃ x, t.symbols.fetch? a.target index = some x ∧ ∀ (k : Nat) (c : Int),
      index = (k : Int) → shape[k]? = some c → x = b.target ∨
        (c = Shape.noClass ∧ ∃ previous, s.store.shapes.find? a.target = some previous) := by
  have hassigned : Assigned options a s reads u := .array hrank hsettle hrecorded
  obtain ⟨hfetch, -, b', hb', rfl, hvalue'⟩ := hassigned.of_staticGetitem hb hvalue
  have hunknown := hassigned.declared.not_known h.similar.typed hb'
  have hread := hrecorded.findSome?_read hb hvalue (htuples b' hb' hunknown a.target hvalue')
  have hareads : a.read? tuples a.target index = none := by
    rw [Option.eq_none_iff_forall_ne_some]
    intro x hx
    exact ha _ _ _ hx hfetch
  rw [h.found, htotal, List.findSome?_append, List.findSome?_cons, hareads, List.findSome?_append,
    hread, Option.some_or]
  cases hbefore : before.findSome? (Assign.read? tuples a.target index) with
  | none => exact ⟨b.target, rfl, fun _ _ _ _ => .inl rfl⟩
  -- A read that stands before belongs to an array that was recorded, so its classes have sizes.
  | some y =>
    refine ⟨y, rfl, fun k c hindex hc => ?_⟩
    obtain ⟨previous, hprevious⟩ := h.recorded a.target index hfetch (by simp [hbefore])
    by_cases hclass : c = Shape.noClass
    · exact .inr ⟨hclass, previous, hprevious⟩
    cases hrecorded with
    | conflict _ _ => cases hb
    | sized hcompatible hvisited =>
      exact absurd hprevious
        (notRecorded_of_new hs hcompatible hvisited hb hvalue hindex hc hclass previous)

/-- An array of which the first run has read a dimension is recorded. -/
theorem recorded_step (h : Rereading known tuples total before s t) (hs : s.Consistent done)
    (hassigned : Assigned options a s reads u)
    (ha : ∀ array index x, a.read? tuples array index = some x →
      s.symbols.fetch? array index ≠ none)
    (htuples : TuplesTold known tuples reads) {array : Var} {index : Int}
    (hnone : s.symbols.fetch? array index = none)
    (hsome : (before ++ a :: reads).findSome? (Assign.read? tuples array index) ≠ none) :
    ∃ shape, u.store.shapes.find? array = some shape := by
  rw [(hs.assigned hassigned).recorded]
  rw [List.findSome?_append, List.findSome?_cons] at hsome
  cases hbefore : before.findSome? (Assign.read? tuples array index) with
  | some x =>
    obtain ⟨⟨rank, hrank⟩, b, hb, hbx⟩ :=
      (hs.recorded array).mp (h.recorded array index hnone (by simp [hbefore]))
    refine ⟨⟨rank, ?_⟩, b, List.mem_append_left _ hb, hbx⟩
    rw [hassigned.declared.rank?_eq, hrank]
  | none =>
    rw [hbefore, Option.none_or] at hsome
    cases haread : a.read? tuples array index with
    | some x => exact absurd hnone (ha array index x haread)
    | none =>
      rw [haread] at hsome
      obtain ⟨x, hx⟩ := Option.ne_none_iff_exists'.mp hsome
      obtain ⟨b, hb, hbread⟩ := List.exists_of_findSome?_eq_some hx
      obtain ⟨rfl, -, rank, hrank⟩ := hassigned.read?_eq_some hb h.similar.typed htuples hbread
      refine ⟨⟨rank, ?_⟩, a, List.mem_append_right _ (List.mem_singleton_self a), rfl⟩
      rw [hassigned.declared.rank?_eq, hrank]

/-- The second run goes over one assignment and the reads that the first one put behind it. -/
theorem step (h : Rereading known tuples total before s t) (hs : s.Consistent done)
    (htotal : total = before ++ a :: (reads ++ rest))
    (hassigned : Assigned options a s reads u) (htarget : known a.target)
    (hvars : ∀ x ∈ a.value.vars, known x)
    (ha : ∀ array index x, a.read? tuples array index = some x →
      s.symbols.fetch? array index ≠ none)
    (htuples : TuplesTold known tuples reads) (hranks : ∀ b ∈ reads, t.rank? b.target = none) :
    ∃ t', Silent options t (a :: reads) t' ∧
      Rereading known tuples total (before ++ a :: reads) u t' ∧ Kept t t' ∧
      ResizedAt a.target (∃ previous, s.store.shapes.find? a.target = some previous) s t u t' := by
  obtain ⟨t₁, hrun, hsim, hkept, hresized⟩ : ∃ t₁, (assign options a).run t = (.ok [], t₁) ∧
      Similar known u t₁ ∧ Kept t t₁ ∧ ResizedAt a.target
        (∃ previous, s.store.shapes.find? a.target = some previous) s t u t₁ := by
    cases hassigned with
    | scalar hrank =>
      obtain ⟨hrun, hsim, hkept⟩ := rerun_of_scalar h.similar htarget hvars hrank
      exact ⟨t.observe a, hrun, hsim, hkept, .kept (hs.find?_sizeVars_of_scalar hrank)⟩
    | array hrank hsettle hrecorded =>
      exact rerun_of_array h.similar htarget hvars hrank hsettle hrecorded (h.old a.target)
        fun b hb _ _ _ hvalue =>
          h.exists_found hs htotal ha htuples hrank hsettle hrecorded hb hvalue
  have hreads : ∀ b ∈ reads, t₁.rank? b.target = none ∧ ¬ known b.target ∧
      SizeRead.ReadValue a.target b.value := by
    intro b hb
    refine ⟨?_, hassigned.declared.not_known h.similar.typed hb, hassigned.readValue hb⟩
    rw [State.rank?, hkept.types]
    exact hranks b hb
  obtain ⟨t', hsilent, hsim', hkept', hstore⟩ := silent_reads options hsim hreads
  have hkept'' := hkept.trans hkept'
  refine ⟨t', .cons hrun hsilent, ⟨hsim', ?_, ?_, ?_⟩, hkept'', by rwa [ResizedAt, hstore]⟩
  · intro array index
    rw [hkept''.fetch?_eq, h.found]
  · intro array index x hx
    rw [hassigned.fetch?_eq] at hx
    rw [hkept''.fetch?_eq]
    exact h.old array index x hx
  · intro array index hnone hsome
    rw [hassigned.fetch?_eq] at hnone
    exact h.recorded_step hs hassigned ha htuples hnone hsome

/-- The second run goes over a next part of the program, which has all types that the first run has
given so far. What holds of both at the start, and is kept where both come to the same assignment, holds
at the end. -/
theorem run_along {motive : List Assign → State → State → Prop}
    (hstep : ∀ {done : List Assign} {a : Assign} {reads : List Assign} {s t u t' : State},
      s.Consistent done → Assigned options a s reads u → Kept t t' →
      ResizedAt a.target (∃ previous, s.store.shapes.find? a.target = some previous) s t u t' →
      motive done s t → motive (done ++ [a]) u t')
    {s' : State} (hrun : Emits options s as out s') (h : Rereading known tuples total before s t)
    (hs : s.Consistent done) (hstart : motive done s t) (htotal : total = before ++ (out ++ rest))
    (htypes : ∀ x type, s'.types.find? x = some type → t.types.find? x = some type)
    (has : ∀ a ∈ as, known a.target ∧ ∀ x ∈ a.value.vars, known x)
    (hreads : ∀ a ∈ as, ∀ array index x, a.read? tuples array index = some x →
      s.symbols.fetch? array index ≠ none)
    (htuples : TuplesTold known tuples out) :
    ∃ t', Silent options t out t' ∧ Similar known s' t' ∧ Kept t t' ∧
      motive (done ++ as) s' t' := by
  induction hrun generalizing before t done with
  | nil s => exact ⟨t, .nil t, h.similar, .refl t, by rwa [List.append_nil]⟩
  | @cons s u s' a reads as out ha hrest ih =>
    have hassigned := assigned_of_run ha
    obtain ⟨htarget, hvars⟩ := has a List.mem_cons_self
    have hranks : ∀ b ∈ reads, t.rank? b.target = none := by
      intro b hb
      obtain ⟨type, htype, hrank⟩ := hassigned.declared.scalar b hb
      rw [State.rank?, htypes _ _ (hrest.kept htype)]
      exact hrank
    have htotal' : total = before ++ a :: (reads ++ (out ++ rest)) := by
      rw [htotal, List.cons_append, List.append_assoc]
    obtain ⟨t₁, hsilent, h₁, hkept, hresized⟩ := h.step hs htotal' hassigned htarget hvars
      (hreads a List.mem_cons_self)
      (fun b hb => htuples b (List.mem_cons_of_mem a (List.mem_append_left out hb))) hranks
    obtain ⟨t', hsilent', hsim, hkept', hend⟩ := ih h₁ (hs.assigned hassigned)
      (hstep hs hassigned hkept hresized hstart)
      (by rw [htotal', List.append_assoc, List.cons_append])
      (by rw [hkept.types]; exact htypes)
      (fun b hb => has b (List.mem_cons_of_mem a hb))
      (by
        intro b hb array index x hx
        rw [hassigned.fetch?_eq]
        exact hreads b (List.mem_cons_of_mem a hb) array index x hx)
      (fun b hb => htuples b (List.mem_cons_of_mem a (List.mem_append_right reads hb)))
    refine ⟨t', hsilent.append hsilent', hsim, hkept.trans hkept', ?_⟩
    rwa [List.append_cons]

theorem run_part {s' : State} (hrun : Emits options s as out s')
    (h : Rereading known tuples total before s t) (hs : s.Consistent done)
    (htotal : total = before ++ (out ++ rest))
    (htypes : ∀ x type, s'.types.find? x = some type → t.types.find? x = some type)
    (has : ∀ a ∈ as, known a.target ∧ ∀ x ∈ a.value.vars, known x)
    (hreads : ∀ a ∈ as, ∀ array index x, a.read? tuples array index = some x →
      s.symbols.fetch? array index ≠ none)
    (htuples : TuplesTold known tuples out) :
    ∃ t', Silent options t out t' ∧ Similar known s' t' ∧ Kept t t' := by
  obtain ⟨t', hsilent, hsim, hkept, -⟩ := run_along (motive := fun _ _ _ => True)
    (fun _ _ _ _ _ => trivial) hrun h hs trivial htotal htypes has hreads htuples
  exact ⟨t', hsilent, hsim, hkept⟩

/-- The second run goes over the rest of the program. -/
theorem run {s' : State} (hrun : Emits options s as out s')
    (h : Rereading known tuples total before s t) (hs : s.Consistent done)
    (htotal : total = before ++ out) (htypes : t.types = s'.types)
    (has : ∀ a ∈ as, known a.target ∧ ∀ x ∈ a.value.vars, known x)
    (hreads : ∀ a ∈ as, ∀ array index x, a.read? tuples array index = some x →
      s.symbols.fetch? array index ≠ none)
    (htuples : TuplesTold known tuples out) :
    ∃ t', Silent options t out t' ∧ Similar known s' t' ∧ Kept t t' := by
  have htotal' : total = before ++ (out ++ []) := by rw [htotal, List.append_nil]
  exact h.run_part hrun hs htotal' (fun x type hx => by rw [htypes, hx]) has hreads htuples

end Rereading

end Pass

theorem Symbols.similar_scan (known : Var → Prop) (p q : Program) :
    Similar known (empty.scan p) (empty.scan q) := by
  rw [scan_eq, scan_eq empty q]
  exact ⟨rfl, rfl, fun _ _ => rfl, fun _ _ => rfl, fun x call h => (by cases h), rfl⟩

/-- A run over a first part of a program prepares a second one that finds the new reads in it. -/
theorem rereading_of_emits {options : Options} {p q : Program} {types types' : Types}
    {callTypes : CallTypes} {as bs out : List Assign} {s' : State} (callTypes' : CallTypes)
    (htyped : p.Typed types) (hp : p.assigns = as ++ bs) (hq : q.assigns = out ++ bs)
    (hrun : Pass.Emits options (.start p types callTypes) as out s')
    (hkept : ∀ x type, types.find? x = some type → types'.find? x = some type) :
    ∃ tuples, Pass.Rereading (fun x => types.contains x = true) tuples q.assigns []
        (.start p types callTypes) (.start q types' callTypes') ∧
      (∀ a ∈ as, ∀ array index x, a.read? tuples array index = some x →
        (State.start p types callTypes).symbols.fetch? array index ≠ none) ∧
      Pass.TuplesTold (fun x => types.contains x = true) tuples out := by
  have hknown : ∀ x, types.contains x = true →
      ∃ type, (State.start p types callTypes).types.find? x = some type := by
    intro x hx
    exact Option.isSome_iff_exists.mp hx
  have hassign : ∀ a ∈ as ++ bs, types.contains a.target = true ∧
      ∀ x ∈ a.value.vars, types.contains x = true := by
    rw [← hp]
    exact fun a ha => htyped.assign ha
  have hvars : ∀ a ∈ as ++ bs, ∀ x ∈ a.value.vars, types.contains x = true :=
    fun a ha => (hassign a ha).2
  have hagree : ∀ x, types.contains x = true →
      (Symbols.shapeTuples (out ++ bs)).find? x = (Symbols.shapeTuples (as ++ bs)).find? x := by
    intro x hx
    obtain ⟨type, htype⟩ := hknown x hx
    rw [Symbols.find?_shapeTuples_append, Symbols.find?_shapeTuples_append,
      hrun.find?_shapeTuples htype]
  have htuples : Pass.TuplesTold (fun x => types.contains x = true)
      (Symbols.shapeTuples (out ++ bs)) out :=
    hrun.tuplesTold fun a ha => hknown _ (hassign a ha).1
  have hfirst : ∀ array index, (State.start p types callTypes).symbols.fetch? array index =
      (as ++ bs).findSome? (Assign.read? (Symbols.shapeTuples (as ++ bs)) array index) := by
    rw [← hp]
    exact Symbols.fetch?_scan_empty p
  have hsecond : ∀ array index, (State.start q types' callTypes').symbols.fetch? array index =
      q.assigns.findSome? (Assign.read? (Symbols.shapeTuples (out ++ bs)) array index) := by
    rw [← hq]
    exact Symbols.fetch?_scan_empty q
  refine ⟨Symbols.shapeTuples (out ++ bs), ⟨⟨rfl, Symbols.similar_scan _ _ _, rfl, hknown, ?_⟩,
    hsecond, ?_, by simp⟩, ?_, htuples⟩
  · intro x hx
    obtain ⟨type, htype⟩ := hknown x hx
    exact (hkept x type htype).trans htype.symm
  · intro array index x hx
    have hrest : bs.findSome? (Assign.read? (Symbols.shapeTuples (out ++ bs)) array index) =
        bs.findSome? (Assign.read? (Symbols.shapeTuples (as ++ bs)) array index) :=
      Pass.findSome?_read_congr hagree (fun b hb => hvars b (List.mem_append_right as hb)) array index
    rw [hsecond, hq, List.findSome?_append, hrest,
      hrun.findSome?_read hknown (fun a ha => hvars a (List.mem_append_left bs ha)) hagree htuples
        (by rw [hx]; exact Option.some_ne_none x),
      ← List.findSome?_append, ← hfirst, hx]
  · intro a ha array index x hx hnone
    rw [Pass.read?_congr hagree (hvars a (List.mem_append_left bs ha))] at hx
    rw [hfirst, List.findSome?_eq_none_iff] at hnone
    rw [hnone a (List.mem_append_left bs ha)] at hx
    cases hx

/-- A finished analysis prepares a second one that finds all its reads in the program. -/
theorem rereading_start {options : Options} {p : Program} {types : Types} {callTypes : CallTypes}
    (htyped : p.Typed types) (hrun : Pass.Emits options (.start p types callTypes) p.assigns
      (analyze options p types callTypes).program.assigns
      (analyze options p types callTypes).state) :
    ∃ tuples, Pass.Rereading (fun x => types.contains x = true) tuples
        (analyze options p types callTypes).program.assigns [] (.start p types callTypes)
        (.start (analyze options p types callTypes).program (analyze options p types callTypes).types
          (analyze options p types callTypes).callTypes) ∧
      (∀ a ∈ p.assigns, ∀ array index x, a.read? tuples array index = some x →
        (State.start p types callTypes).symbols.fetch? array index ≠ none) ∧
      Pass.TuplesTold (fun x => types.contains x = true) tuples
        (analyze options p types callTypes).program.assigns :=
  rereading_of_emits _ htyped (List.append_nil _).symm (List.append_nil _).symm hrun
    fun _ _ hx => hrun.kept hx

/-- An analysis that finishes also finishes on the program that it leaves, with the same shapes,
class sizes and diagnostics, and adds nothing more to the program, the types or the call
signatures. -/
theorem analyze_idempotent {options : Options} {p : Program} {types : Types}
    {callTypes : CallTypes} {f : Findings} (htyped : p.Typed types)
    (h : (analyze options p types callTypes).findings = .ok f) :
    let r := analyze options p types callTypes
    let again := analyze options r.program r.types r.callTypes
    (∃ f', again.findings = .ok f' ∧ f'.shapes = f.shapes ∧ f'.classSizes = f.classSizes ∧
      f'.diagnostics = f.diagnostics) ∧
    again.program = r.program ∧ again.types = r.types ∧ again.callTypes = r.callTypes := by
  obtain ⟨rfl, hrun⟩ := emits_of_findings h
  obtain ⟨tuples, hreading, hreads, htuples⟩ := rereading_start htyped hrun
  obtain ⟨t, hsilent, hsim, hkept⟩ := hreading.run hrun (.start p types callTypes) rfl rfl
    (fun a ha => htyped.assign ha) hreads htuples
  obtain ⟨hfindings, hprogram, hstate⟩ := analyze_of_silent hsilent
  refine ⟨⟨_, hfindings, ?_, ?_, hsim.diagnostics⟩, hprogram, ?_, ?_⟩
  · exact (congrArg Store.shapes hsim.store).trans rfl
  · exact (congrArg Store.classSizes hsim.store).trans rfl
  · rw [Run.types, hstate, hkept.types]
    rfl
  · rw [Run.callTypes, hstate, hkept.callTypes]
    rfl

theorem analyze_idempotent_sum :
    sumProgram.Typed sumTypes ∧ ∃ f,
      (analyze .standard sumProgram sumTypes (.empty 4)).findings = .ok f ∧
      let r := analyze .standard sumProgram sumTypes (.empty 4)
      let again := analyze .standard r.program r.types r.callTypes
      (∃ f', again.findings = .ok f' ∧ f'.shapes = f.shapes ∧ f'.classSizes = f.classSizes ∧
        f'.diagnostics = f.diagnostics) ∧
      again.program = r.program ∧ again.types = r.types ∧ again.callTypes = r.callTypes := by
  have htyped : sumProgram.Typed sumTypes := by decide
  have hrun : (analyze .standard sumProgram sumTypes (.empty 4)).findings =
      .ok (.ofState (analyze .standard sumProgram sumTypes (.empty 4)).state) :=
    Run.findings_of_isOk (by decide +kernel)
  exact ⟨htyped, _, hrun, analyze_idempotent htyped hrun⟩

end DimEquiv
