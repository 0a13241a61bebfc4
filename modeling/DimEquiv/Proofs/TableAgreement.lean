import DimEquiv.Proofs.InferenceEffect
import DimEquiv.Proofs.RunSteps

/-!
# The tables agree with each other

Unions move size values to new ids, conflicts drop entries, and reads give classes their first size
value. Behind every assignment the tables still fit: each recorded class has size values, and the
size value chosen for a dimension is one of those of its class.
-/

namespace DimEquiv

namespace Store

/-- The size values are one for each dimension of the shape, each from its class. -/
structure Backs (s : Store) (shape : Shape) (sizes : List SizeValue) : Prop where
  length_eq : sizes.length = shape.length
  mem : ∀ (i : Nat) (c : Int) (size : SizeValue), shape[i]? = some c → c ≠ Shape.noClass →
    sizes[i]? = some size → size ∈ s.sizesOf c

/-- The size tables fit the recorded shapes. -/
structure Agreeing (s : Store) : Prop extends Bounded s where
  sized : ∀ x shape, s.shapes.find? x = some shape → ∀ c ∈ shape, c ≠ Shape.noClass →
    s.sizesOf c ≠ []
  backed : ∀ x sizes, s.sizeVars.find? x = some sizes →
    ∃ shape, s.shapes.find? x = some shape ∧ s.Backs shape sizes

theorem agreeing_empty : Agreeing empty where
  toBounded := bounded_empty
  sized := by
    intro x shape hx
    cases hx
  backed := by
    intro x sizes hx
    cases hx

variable {s t : Store}

/-- Every known class that size values back has one. -/
theorem Backs.ne_nil {shape : Shape} {sizes : List SizeValue} (h : s.Backs shape sizes) {c : Int}
    (hc : c ∈ shape) (hknown : c ≠ Shape.noClass) : s.sizesOf c ≠ [] := by
  obtain ⟨i, hi⟩ := List.mem_iff_getElem?.mp hc
  have hlt : i < sizes.length := by
    rw [h.length_eq]
    exact (List.getElem?_eq_some_iff.mp hi).1
  exact List.ne_nil_of_mem (h.mem i c _ hi hknown (List.getElem?_eq_getElem hlt))

theorem Backs.carries {rep : Int → Int} {shape : Shape} {sizes : List SizeValue}
    (h : s.Backs shape sizes) (hcarries : Carries s t rep) (hlt : ∀ c ∈ shape, c < s.nextClass) :
    t.Backs (shape.map rep) sizes where
  length_eq := by rw [h.length_eq, List.length_map]
  mem := by
    intro i c size hc hknown hsize
    rw [List.getElem?_map, Option.map_eq_some_iff] at hc
    obtain ⟨d, hd, rfl⟩ := hc
    have hd' : d ≠ Shape.noClass := by
      rintro rfl
      exact hknown hcarries.unknown
    exact hcarries.sizes d (hlt d (List.mem_of_getElem? hd)) (h.mem i d size hd hd' hsize)

theorem Agreeing.carries {rep : Int → Int} (h : s.Agreeing) (hcarries : Carries s t rep) :
    t.Agreeing where
  toBounded := hcarries.bounded
  sized := by
    intro x shape hx c hc hknown
    rw [hcarries.find?_shapes, Option.map_eq_some_iff] at hx
    obtain ⟨shape, hx, rfl⟩ := hx
    obtain ⟨d, hd, rfl⟩ := List.mem_map.mp hc
    have hd' : d ≠ Shape.noClass := by
      rintro rfl
      exact hknown hcarries.unknown
    obtain ⟨size, hsize⟩ := List.exists_mem_of_ne_nil _ (h.sized x shape hx d hd hd')
    exact List.ne_nil_of_mem (hcarries.sizes d (h.lt_of_recorded x shape hx d hd) hsize)
  backed := by
    intro x sizes hx
    rw [hcarries.sizeVars] at hx
    obtain ⟨shape, hshape, hbacks⟩ := h.backed x sizes hx
    refine ⟨shape.map rep, ?_, hbacks.carries hcarries (h.lt_of_recorded x shape hshape)⟩
    rw [hcarries.find?_shapes, hshape, Option.map_some]

theorem Agreeing.outcome {answer : Except ShapeError Shape} (h : s.Agreeing)
    (houtcome : Outcome s answer t) : t.Agreeing := by
  obtain ⟨rep, hcarries⟩ := houtcome.carries h.toBounded
  exact h.carries hcarries

/-- The store `t` is `s` with more size values. -/
structure Gains (s t : Store) : Prop where
  shapes : t.shapes = s.shapes
  sizeVars : t.sizeVars = s.sizeVars
  nextClass : t.nextClass = s.nextClass
  sizes : ∀ c, s.sizesOf c ⊆ t.sizesOf c

namespace Gains

theorem refl (s : Store) : Gains s s where
  shapes := rfl
  sizeVars := rfl
  nextClass := rfl
  sizes := fun _ => List.Subset.refl _

theorem trans {u : Store} (h : Gains s t) (h' : Gains t u) : Gains s u where
  shapes := h'.shapes.trans h.shapes
  sizeVars := h'.sizeVars.trans h.sizeVars
  nextClass := h'.nextClass.trans h.nextClass
  sizes := fun c => List.Subset.trans (h.sizes c) (h'.sizes c)

theorem represent {c : Int} (size : SizeValue) (hnone : s.sizesOf c = []) :
    Gains s (s.represent c size) := by
  by_cases hunknown : c = Shape.noClass
  · rw [Store.represent, if_pos hunknown]
    exact .refl s
  · rw [Store.represent, if_neg hunknown]
    refine ⟨rfl, rfl, rfl, fun d => ?_⟩
    by_cases hd : c = d
    · rw [← hd, hnone]
      exact List.nil_subset _
    · rw [sizesOf_putSizes, if_neg hd]
      exact List.Subset.refl _

end Gains

theorem Bounded.represent (hs : s.Bounded) {c : Int} (size : SizeValue) (hc : c < s.nextClass) :
    (s.represent c size).Bounded := by
  unfold Store.represent
  split
  · exact hs
  · refine ⟨hs.next_pos, hs.lt_of_recorded, fun d hd => ?_⟩
    rcases (Table.mem_keys_insert ..).mp hd with rfl | hd
    · exact hc
    · exact hs.lt_of_sized d hd

end Store

namespace SizeRead

variable {array : Var} {dim : Nat} {s t : State}

section Visit

variable {c : Int} {reads : List Assign} {size : SizeValue}

theorem Visited.gains (h : Visited array dim c s reads size t) : Store.Gains s.store t.store := by
  rcases h.store_eq with ⟨-, hstore⟩ | ⟨hnone, hstore⟩
  · rw [hstore]
    exact .refl _
  · rw [hstore]
    rcases standing?_eq_none hnone with rfl | hnil
    · exact .refl _
    · exact .represent size hnil

theorem Visited.bounded (h : Visited array dim c s reads size t) (hs : s.store.Bounded)
    (hc : c < s.store.nextClass) : t.store.Bounded := by
  rcases h.store_eq with ⟨-, hstore⟩ | ⟨-, hstore⟩
  · rw [hstore]
    exact hs
  · rw [hstore]
    exact hs.represent size hc

/-- A visit gives a known class a size value. -/
theorem Visited.mem_sizesOf (h : Visited array dim c s reads size t) (hknown : c ≠ Shape.noClass) :
    size ∈ t.store.sizesOf c := by
  rcases h.store_eq with ⟨hstanding, hstore⟩ | ⟨-, hstore⟩
  · rw [hstore]
    exact (standing?_eq_some hstanding).2
  · rw [hstore, Store.sizesOf_represent, if_pos ⟨hknown, rfl⟩]
    exact List.mem_singleton_self size

end Visit

namespace VisitedAll

variable {cs : Shape} {r : SizeReads}

theorem gains (h : VisitedAll array dim cs s r t) : Store.Gains s.store t.store := by
  induction h with
  | nil => exact .refl _
  | cons h _ ih => exact h.gains.trans ih

theorem bounded (h : VisitedAll array dim cs s r t) (hs : s.store.Bounded)
    (hlt : ∀ c ∈ cs, c < s.store.nextClass) : t.store.Bounded := by
  induction h with
  | nil => exact hs
  | @cons dim c cs s t u reads size rest h hrest ih =>
    refine ih (h.bounded hs (hlt c List.mem_cons_self)) fun d hd => ?_
    rw [h.gains.nextClass]
    exact hlt d (List.mem_cons_of_mem c hd)

/-- The size values of all dimensions come from their classes. -/
theorem backs (h : VisitedAll array dim cs s r t) : t.store.Backs cs r.sizes := by
  induction h with
  | nil => exact ⟨rfl, by simp⟩
  | @cons dim c cs s t u reads size rest h hrest ih =>
    refine ⟨congrArg (· + 1) ih.length_eq, fun i d value hd hknown hvalue => ?_⟩
    cases i with
    | zero =>
      cases hd
      cases hvalue
      exact hrest.gains.sizes c (h.mem_sizesOf hknown)
    | succ i => exact ih.mem i d value hd hknown hvalue

end VisitedAll

end SizeRead

namespace Store

variable {s u : Store} {x : Var} {shape : Shape}

/-- Recording a shape touches neither classes nor, without a conflict, size values. -/
theorem frame_record_of_compatible
    (h : ∀ previous, s.shapes.find? x = some previous → previous = shape) :
    (∀ y, (s.record x shape).2.shapes.find? y =
        if x = y then some shape else s.shapes.find? y) ∧
      (s.record x shape).2.sizeVars = s.sizeVars ∧
      (s.record x shape).2.classSizes = s.classSizes ∧
      (s.record x shape).2.nextClass = s.nextClass := by
  refine ⟨fun y => ?_, ?_⟩
  · rw [find?_shapes_record]
    cases hx : s.shapes.find? x with
    | none => rfl
    | some previous => simp [h previous hx]
  · cases hx : s.shapes.find? x with
    | none => simp [record, hx]
    | some previous => simp [record, hx, h previous hx]

theorem record_of_conflict {previous : Shape} (h : s.shapes.find? x = some previous)
    (hne : previous ≠ shape) :
    (s.record x shape).2 = { s with
      shapes := s.shapes.insert x (.unknown previous.length)
      sizeVars := s.sizeVars.erase x } := by
  simp [record, h, hne]

theorem Bounded.record_of_compatible (hs : s.Bounded)
    (h : ∀ previous, s.shapes.find? x = some previous → previous = shape)
    (hlt : ∀ c ∈ shape, c < s.nextClass) : (s.record x shape).2.Bounded := by
  obtain ⟨hshapes, -, hclassSizes, hnext⟩ := frame_record_of_compatible h
  refine ⟨?_, ?_, ?_⟩
  · rw [hnext]
    exact hs.next_pos
  · intro y other hy c hc
    rw [hnext]
    rw [hshapes] at hy
    split at hy
    · cases hy
      exact hlt c hc
    · exact hs.lt_of_recorded y other hy c hc
  · rw [hnext, hclassSizes]
    exact hs.lt_of_sized

/-- An array that loses its classes loses its size values with them. -/
theorem Agreeing.record_of_conflict {previous : Shape} (h : s.Agreeing)
    (hx : s.shapes.find? x = some previous) (hne : previous ≠ shape) :
    (s.record x shape).2.Agreeing := by
  rw [Store.record_of_conflict hx hne]
  refine ⟨⟨h.next_pos, ?_, h.lt_of_sized⟩, ?_, ?_⟩
  · intro y other hy c hc
    rw [Table.find?_insert] at hy
    split at hy
    · cases hy
      rw [Shape.eq_noClass_of_mem hc]
      exact h.noClass_lt
    · exact h.lt_of_recorded y other hy c hc
  · intro y other hy c hc hknown
    rw [Table.find?_insert] at hy
    split at hy
    · cases hy
      exact absurd (Shape.eq_noClass_of_mem hc) hknown
    · exact h.sized y other hy c hc hknown
  · intro y sizes hy
    rw [Table.find?_erase] at hy
    split at hy
    · cases hy
    · rename_i hxy
      obtain ⟨other, hother, hbacks⟩ := h.backed y sizes hy
      refine ⟨other, ?_, hbacks.length_eq, hbacks.mem⟩
      rw [Table.find?_insert, if_neg hxy]
      exact hother

/-- A recorded shape whose dimensions have their size values fits the tables. -/
theorem Agreeing.record_of_compatible {sizes : List SizeValue} (h : s.Agreeing)
    (hx : ∀ previous, s.shapes.find? x = some previous → previous = shape) (hu : u.Bounded)
    (hgains : Gains (s.record x shape).2 u) (hbacks : u.Backs shape sizes) :
    (u.setSizeVars x sizes).Agreeing := by
  obtain ⟨hshapes, hsizeVars, hclassSizes, -⟩ := frame_record_of_compatible hx
  have hsizes : ∀ c, s.sizesOf c ⊆ u.sizesOf c := by
    intro c
    have hsub := hgains.sizes c
    simp only [sizesOf, hclassSizes] at hsub ⊢
    exact hsub
  have hfind : ∀ y, u.shapes.find? y = if x = y then some shape else s.shapes.find? y := by
    intro y
    rw [hgains.shapes, hshapes]
  refine ⟨⟨hu.next_pos, hu.lt_of_recorded, hu.lt_of_sized⟩, ?_, ?_⟩
  · intro y other hy c hc hknown
    change u.shapes.find? y = some other at hy
    rw [hfind] at hy
    split at hy
    · cases hy
      exact hbacks.ne_nil hc hknown
    · obtain ⟨size, hsize⟩ := List.exists_mem_of_ne_nil _ (h.sized y other hy c hc hknown)
      exact List.ne_nil_of_mem (hsizes c hsize)
  · intro y values hy
    change (u.sizeVars.insert x sizes).find? y = some values at hy
    change ∃ other, u.shapes.find? y = some other ∧ _
    rw [Table.find?_insert] at hy
    rw [hfind]
    split at hy
    · rename_i hxy
      cases hy
      rw [if_pos hxy]
      exact ⟨shape, rfl, hbacks.length_eq, hbacks.mem⟩
    · rename_i hxy
      rw [hgains.sizeVars, hsizeVars] at hy
      obtain ⟨other, hother, hbacks'⟩ := h.backed y values hy
      rw [if_neg hxy]
      refine ⟨other, hother, hbacks'.length_eq, fun i c size hc hknown hsize => ?_⟩
      exact hsizes c (hbacks'.mem i c size hc hknown hsize)

end Store

namespace Pass

variable {options : Options} {a : Assign} {s t : State} {reads : List Assign}

theorem Recorded.agreeing {shape : Shape} (h : Recorded a shape s reads t)
    (hs : s.store.Agreeing) (hlt : ∀ c ∈ shape, c < s.store.nextClass) : t.store.Agreeing := by
  cases h with
  | conflict h hne => exact hs.record_of_conflict h hne
  | sized h hvisited =>
    have hrecord := hs.toBounded.record_of_compatible h hlt
    have hbounded := hvisited.bounded hrecord fun c hc => by
      rw [(Store.frame_record_of_compatible h).2.2.2]
      exact hlt c hc
    exact hs.record_of_compatible h hbounded hvisited.gains hvisited.backs

/-- Reads change no recorded shape. -/
theorem Recorded.find?_shapes {shape : Shape} (h : Recorded a shape s reads t) (x : Var) :
    t.store.shapes.find? x = (s.store.record a.target shape).2.shapes.find? x := by
  cases h with
  | conflict h hne => rfl
  | sized h hvisited => exact congrArg (fun shapes => shapes.find? x) hvisited.gains.shapes

theorem Recorded.find?_shapes_of_ne {shape : Shape} (h : Recorded a shape s reads t) {x : Var}
    (hne : a.target ≠ x) : t.store.shapes.find? x = s.store.shapes.find? x := by
  rw [h.find?_shapes, Store.find?_shapes_record, if_neg hne]

/-- The target joins the recorded arrays, and the number of dimensions of each array stays. -/
theorem Recorded.find?_shapes_eq_some {shape known : Shape} (h : Recorded a shape s reads t) {x : Var}
    (hx : t.store.shapes.find? x = some known) :
    (a.target = x ∧ known.length = shape.length) ∨
      ∃ previous, s.store.shapes.find? x = some previous ∧ known.length = previous.length := by
  rw [h.find?_shapes, Store.find?_shapes_record] at hx
  split at hx
  · rename_i htarget
    subst htarget
    split at hx
    · cases hx
      exact .inl ⟨rfl, rfl⟩
    · rename_i previous hprevious
      cases hx
      split
      · exact .inl ⟨rfl, rfl⟩
      · exact .inr ⟨previous, hprevious, Shape.length_unknown _⟩
  · exact .inr ⟨known, hx, rfl⟩

theorem Recorded.exists_find?_shapes_iff {shape : Shape} (h : Recorded a shape s reads t) (x : Var) :
    (∃ known, t.store.shapes.find? x = some known) ↔
      a.target = x ∨ ∃ known, s.store.shapes.find? x = some known := by
  rw [h.find?_shapes, Store.find?_shapes_record]
  by_cases htarget : a.target = x
  · rw [if_pos htarget]
    refine iff_of_true ?_ (.inl htarget)
    split
    · exact ⟨_, rfl⟩
    · exact ⟨_, rfl⟩
  · simp [htarget]

/-- The outcome of the inference for an assignment. -/
theorem outcome_inferred (options : Options) (a : Assign) (s : State) :
    Outcome s.store (inferred options a s).1 (inferred options a s).2 :=
  Scope.outcome_infer _ _ _ s.store

/-- An assignment renames classes in the shapes of the arrays that it does not assign. -/
theorem Assigned.exists_rename (h : Assigned options a s reads t) (hs : s.store.Bounded) :
    ∃ rep : Int → Int, rep Shape.noClass = Shape.noClass ∧ ∀ x, a.target ≠ x →
      t.store.shapes.find? x = (s.store.shapes.find? x).map (List.map rep) := by
  cases h with
  | scalar hscalar => exact ⟨id, rfl, fun x _ => by simp [State.observe]⟩
  | array hrank hsettle hrecorded =>
    obtain ⟨rep, hcarries⟩ := (outcome_inferred options a s).carries hs
    exact ⟨rep, hcarries.unknown, fun x hx =>
      (hrecorded.find?_shapes_of_ne hx).trans (hcarries.find?_shapes x)⟩

theorem lt_nextClass_of_settle {rank : Nat} {shape : Shape} {ds : List Diagnostic}
    (hs : s.store.Bounded) (h : settle rank a (inferred options a s).1 = .ok (shape, ds)) :
    ∀ c ∈ shape, c < (inferred options a s).2.nextClass := by
  have houtcome := outcome_inferred options a s
  rcases eq_of_settle h with hok | rfl
  · rw [hok] at houtcome
    exact houtcome.lt_nextClass hs
  · intro c hc
    rw [Shape.eq_noClass_of_mem hc]
    exact (houtcome.bounded hs).noClass_lt

end Pass

/-- The tables of a state fit each other and the assignments in `done`, which led to it. -/
structure State.Consistent (done : List Assign) (s : State) : Prop where
  agreeing : s.store.Agreeing
  recorded : ∀ x, (∃ shape, s.store.shapes.find? x = some shape) ↔
    (∃ rank, s.rank? x = some rank) ∧ ∃ a ∈ done, a.target = x
  ranked : ∀ x shape, s.store.shapes.find? x = some shape → s.rank? x = some shape.length

namespace State.Consistent

variable {options : Options} {done : List Assign} {s t : State}

theorem start (p : Program) (types : Types) (callTypes : CallTypes) :
    Consistent [] (.start p types callTypes) where
  agreeing := Store.agreeing_empty
  recorded := by
    intro x
    simp [State.start, State.scan, State.initial, Store.empty]
  ranked := by
    intro x shape hx
    cases hx

theorem assigned {a : Assign} {reads : List Assign} (h : s.Consistent done)
    (ha : Pass.Assigned options a s reads t) : t.Consistent (done ++ [a]) := by
  have hrank := ha.declared.rank?_eq
  cases ha with
  | scalar hscalar =>
    refine ⟨h.agreeing, fun x => ?_, h.ranked⟩
    refine (h.recorded x).trans (and_congr_right ?_)
    rintro ⟨rank, hx⟩
    have hne : a.target ≠ x := by
      rintro rfl
      rw [hscalar] at hx
      cases hx
    simp [hne]
  | @array rank shape ds _ _ harray hsettle hrecorded =>
    have houtcome := Pass.outcome_inferred options a s
    have hlt : ∀ c ∈ shape, c < (Pass.behind options a ds s).store.nextClass :=
      Pass.lt_nextClass_of_settle h.agreeing.toBounded hsettle
    obtain ⟨rep, hcarries⟩ := houtcome.carries h.agreeing.toBounded
    have hbehind : ∀ x, (Pass.behind options a ds s).store.shapes.find? x =
        (s.store.shapes.find? x).map (List.map rep) := hcarries.find?_shapes
    refine ⟨hrecorded.agreeing (h.agreeing.outcome houtcome) hlt, fun x => ?_, fun x known hx => ?_⟩
    · rw [hrecorded.exists_find?_shapes_iff, hbehind, hrank]
      simp only [Option.map_eq_some_iff, List.mem_append, List.mem_singleton]
      by_cases htarget : a.target = x
      · refine iff_of_true (.inl htarget) ⟨⟨rank, htarget ▸ harray⟩, a, .inr rfl, htarget⟩
      · have hrec := h.recorded x
        constructor
        · rintro (hx | ⟨-, known, hx, -⟩)
          · exact absurd hx htarget
          · obtain ⟨hr, b, hb, hbx⟩ := hrec.mp ⟨known, hx⟩
            exact ⟨hr, b, .inl hb, hbx⟩
        · rintro ⟨hr, b, hb | rfl, hbx⟩
          · obtain ⟨known, hx⟩ := hrec.mpr ⟨hr, b, hb, hbx⟩
            exact .inr ⟨_, known, hx, rfl⟩
          · exact absurd hbx htarget
    · rw [hrank]
      rcases hrecorded.find?_shapes_eq_some hx with ⟨rfl, hlen⟩ | ⟨previous, hp, hlen⟩
      · rw [harray, hlen, Pass.length_of_settle hsettle]
      · rw [hbehind, Option.map_eq_some_iff] at hp
        obtain ⟨original, hp, rfl⟩ := hp
        rw [h.ranked x original hp, hlen, List.length_map]

theorem emits {as out : List Assign} (h : s.Consistent done) (hrun : Pass.Emits options s as out t) :
    t.Consistent (done ++ as) := by
  induction hrun generalizing done with
  | nil => rwa [List.append_nil]
  | cons ha _ ih =>
    rw [List.append_cons]
    exact ih (h.assigned (Pass.assigned_of_run ha))

/-- A recorded array was assigned. -/
theorem mem_targets (h : s.Consistent done) {x : Var} {shape : Shape}
    (hx : s.store.shapes.find? x = some shape) : x ∈ done.map Assign.target := by
  obtain ⟨-, a, ha, rfl⟩ := (h.recorded x).mp ⟨shape, hx⟩
  exact List.mem_map_of_mem ha

/-- Only arrays have size values. -/
theorem find?_sizeVars_of_scalar (h : s.Consistent done) {x : Var} (hx : s.rank? x = none) :
    s.store.sizeVars.find? x = none := by
  rw [Option.eq_none_iff_forall_ne_some]
  intro sizes hsizes
  obtain ⟨shape, hshape, -⟩ := h.agreeing.backed x sizes hsizes
  rw [h.ranked x shape hshape] at hx
  cases hx

end State.Consistent

theorem Pass.Emits.rank?_eq {options : Options} {s t : State} {as out : List Assign}
    (h : Emits options s as out t) (x : Var) : t.rank? x = s.rank? x := by
  induction h with
  | nil => rfl
  | cons ha _ ih => rw [ih, (assigned_of_run ha).declared.rank?_eq]

theorem Types.isArray_iff_rank? (types : Types) (x : Var) :
    types.isArray x = true ↔ ∃ rank, (types.find? x).bind StaticType.rank? = some rank := by
  rw [Types.isArray_iff]
  cases types.find? x with
  | none => simp
  | some type => cases type <;> simp [StaticType.isArray, StaticType.rank?]

theorem State.isArray_eq_of_rank?_eq {s : State} {types : Types}
    (h : ∀ x, s.rank? x = (types.find? x).bind StaticType.rank?) :
    s.types.isArray = types.isArray := by
  funext x
  rw [Bool.eq_iff_iff, Types.isArray_iff_rank?, Types.isArray_iff_rank?]
  exact exists_congr fun rank => by rw [← h x]; rfl

/-- The tables of a result agree with each other, with the program and with the declared types. -/
structure Findings.Agree (p : Program) (types : Types) (f : Findings) : Prop where
  /-- The arrays among the targets have a shape, and nothing else has one. -/
  recorded : ∀ x, (∃ shape, f.shapeOf? x = some shape) ↔
    types.isArray x = true ∧ ∃ a ∈ p.assigns, a.target = x
  ranked : ∀ x shape, f.shapeOf? x = some shape →
    (types.find? x).bind StaticType.rank? = some shape.length
  sizeVars : ∀ x sizes, f.sizeVarsOf? x = some sizes →
    ∃ shape, f.shapeOf? x = some shape ∧ sizes.length = shape.length
  sized : ∀ x shape, f.shapeOf? x = some shape → ∀ c ∈ shape, c ≠ Shape.noClass →
    f.sizesOf c ≠ []
  backed : ∀ x sizes shape, f.sizeVarsOf? x = some sizes → f.shapeOf? x = some shape →
    ∀ (i : Nat) (c : Int) (size : SizeValue), shape[i]? = some c → c ≠ Shape.noClass →
      sizes[i]? = some size → size ∈ f.sizesOf c

/-- Whenever an analysis finishes, its tables agree. -/
theorem analyze_tables_agree {options : Options} {p : Program} {types : Types}
    {callTypes : CallTypes} {f : Findings}
    (h : (analyze options p types callTypes).findings = .ok f) : f.Agree p types := by
  obtain ⟨rfl, hrun⟩ := emits_of_findings h
  have hs := (State.Consistent.start p types callTypes).emits hrun
  have hrank := hrun.rank?_eq
  have hstart : ∀ x, (State.start p types callTypes).rank? x =
      (types.find? x).bind StaticType.rank? := fun _ => rfl
  rw [List.nil_append] at hs
  refine ⟨fun x => ?_, fun x shape hx => ?_, fun x sizes hx => ?_, hs.agreeing.sized, ?_⟩
  · refine (hs.recorded x).trans (and_congr_left fun _ => ?_)
    rw [hrank]
    exact (types.isArray_iff_rank? x).symm
  · rw [← hstart, ← hrank]
    exact hs.ranked x shape hx
  · obtain ⟨shape, hshape, hbacks⟩ := hs.agreeing.backed x sizes hx
    exact ⟨shape, hshape, hbacks.length_eq⟩
  · intro x sizes shape hx hshape
    obtain ⟨known, hknown, hbacks⟩ := hs.agreeing.backed x sizes hx
    cases hshape.symm.trans hknown
    exact hbacks.mem

/-- A sum of two parameters, assigned to the first one again. -/
def sumProgram : Program where
  name := "total"
  argNames := ["a", "b"]
  blocks := [⟨0, [
    .assign ⟨"a", .arg 0 "a", none, 0⟩,
    .assign ⟨"b", .arg 1 "b", none, 1⟩,
    .assign ⟨"c", .binop "+" "a" "b", none, 2⟩,
    .assign ⟨"a", .var "c", none, 3⟩,
    .ret "a" none]⟩]

def sumTypes : Types := .ofList [("a", .arrayOf 1), ("b", .arrayOf 1), ("c", .arrayOf 1)]

theorem analyze_tables_agree_sum :
    ∃ f, (analyze .standard sumProgram sumTypes (.empty 4)).findings = .ok f ∧
      f.Agree sumProgram sumTypes := by
  have hrun : (analyze .standard sumProgram sumTypes (.empty 4)).findings =
      .ok (.ofState (analyze .standard sumProgram sumTypes (.empty 4)).state) :=
    Run.findings_of_isOk (by decide +kernel)
  exact ⟨_, hrun, analyze_tables_agree hrun⟩

end DimEquiv
