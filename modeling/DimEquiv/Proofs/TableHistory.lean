import DimEquiv.StoreRequest
import DimEquiv.Dimension
import Mathlib.Tactic.Common

/-!
# What the shape table keeps over time

Whatever is asked of a store, its recorded shapes change in two ways only. A merge renames classes in
all of them alike, and a conflict makes one of them unknown. Neither changes a rank, and neither makes
a class of an unknown dimension.
-/

namespace DimEquiv

namespace Store

/-- Every shape recorded in `s` is recorded in `t` under the names that `rep` gives to its classes, but
of the arrays in `dropped` it may be that no dimension is known any more. -/
structure Keeps (s t : Store) (rep : Int → Int) (dropped : Var → Prop) : Prop where
  next_le : s.nextClass ≤ t.nextClass
  unknown_iff : ∀ c, rep c = Shape.noClass ↔ c = Shape.noClass
  shape : ∀ x shape, s.shapes.find? x = some shape →
    t.shapes.find? x = some (shape.map rep) ∨
      (dropped x ∧ t.shapes.find? x = some (.unknown shape.length))

namespace Keeps

variable {s t u : Store} {rep rep' : Int → Int} {dropped dropped' : Var → Prop}

theorem of_shapes_eq (hshapes : t.shapes = s.shapes) (hnext : s.nextClass ≤ t.nextClass) :
    s.Keeps t id dropped where
  next_le := hnext
  unknown_iff _ := Iff.rfl
  shape x shape hx := .inl (by rw [hshapes, hx, List.map_id])

theorem map_unknown (h : s.Keeps t rep dropped) (rank : Nat) :
    (Shape.unknown rank).map rep = Shape.unknown rank := by
  rw [Shape.unknown, List.map_replicate, (h.unknown_iff _).mpr rfl]

theorem trans (h : s.Keeps t rep dropped) (h' : t.Keeps u rep' dropped') :
    s.Keeps u (rep' ∘ rep) fun x => dropped x ∨ dropped' x where
  next_le := Int.le_trans h.next_le h'.next_le
  unknown_iff c := (h'.unknown_iff _).trans (h.unknown_iff c)
  shape x shape hx := by
    rcases h.shape x shape hx with hrenamed | ⟨hdropped, hunknown⟩
    · rcases h'.shape x _ hrenamed with hagain | ⟨hdropped, hunknown⟩
      · exact .inl (hagain.trans (by rw [List.map_map]))
      · exact .inr ⟨.inr hdropped, by rwa [List.length_map] at hunknown⟩
    · refine .inr ⟨.inl hdropped, ?_⟩
      rcases h'.shape x _ hunknown with hagain | ⟨-, hagain⟩
      · rwa [h'.map_unknown] at hagain
      · rwa [Shape.length_unknown] at hagain

theorem weaken (h : s.Keeps t rep dropped) (himp : ∀ x, dropped x → dropped' x) :
    s.Keeps t rep dropped' where
  next_le := h.next_le
  unknown_iff := h.unknown_iff
  shape x shape hx := (h.shape x shape hx).imp_right fun hdropped => ⟨himp x hdropped.1, hdropped.2⟩

/-! ### What that means for single entries -/

theorem exists_length_eq (h : s.Keeps t rep dropped) {x : Var} {shape : Shape}
    (hx : s.shapes.find? x = some shape) :
    ∃ later, t.shapes.find? x = some later ∧ later.length = shape.length := by
  rcases h.shape x shape hx with hrenamed | ⟨-, hunknown⟩
  · exact ⟨_, hrenamed, List.length_map _⟩
  · exact ⟨_, hunknown, Shape.length_unknown _⟩

theorem classAt? (h : s.Keeps t rep dropped) {d : Dimension} {c : Int}
    (hd : s.classAt? d = some c) :
    t.classAt? d = some (rep c) ∨ (dropped d.array ∧ t.classAt? d = some Shape.noClass) := by
  obtain ⟨shape, hshape, hc⟩ := Option.bind_eq_some_iff.mp hd
  rcases h.shape _ shape hshape with hrenamed | ⟨hdropped, hunknown⟩
  · left
    simp only [Store.classAt?, hrenamed, Option.bind_some, List.getElem?_map, hc, Option.map_some]
  · right
    obtain ⟨hlt, -⟩ := List.getElem?_eq_some_iff.mp hc
    refine ⟨hdropped, ?_⟩
    simp only [Store.classAt?, hunknown, Option.bind_some, Shape.unknown,
      List.getElem?_replicate_of_lt hlt]

theorem unknown (h : s.Keeps t rep dropped) {d : Dimension}
    (hd : s.classAt? d = some Shape.noClass) : t.classAt? d = some Shape.noClass := by
  rcases h.classAt? hd with hsame | ⟨-, hunknown⟩
  · rwa [(h.unknown_iff _).mpr rfl] at hsame
  · exact hunknown

theorem known (h : s.Keeps t rep dropped) {d : Dimension} {c : Int}
    (hd : s.classAt? d = some c) (hkept : ¬ dropped d.array) : t.classAt? d = some (rep c) :=
  (h.classAt? hd).resolve_right fun hdropped => hkept hdropped.1

theorem blank (h : s.Keeps t rep dropped) {x : Var} {rank : Nat}
    (hx : s.shapes.find? x = some (.unknown rank)) : t.shapes.find? x = some (.unknown rank) := by
  rcases h.shape x _ hx with hsame | ⟨-, hunknown⟩
  · rwa [h.map_unknown] at hsame
  · rwa [Shape.length_unknown] at hunknown

end Keeps

/-- Uniting two classes renames both to an id that is no mark of the unknown. -/
theorem keeps_unite {s : Store} {c₁ c₂ : Int} (hpos : 0 < s.nextClass) (h₁ : c₁ ≠ Shape.noClass)
    (h₂ : c₂ ≠ Shape.noClass) (dropped : Var → Prop) :
    s.Keeps (s.unite c₁ c₂).2 (fun c => if c ∈ [c₁, c₂] then s.nextClass else c) dropped where
  next_le := Int.le_of_lt (Int.lt_succ _)
  unknown_iff c := by
    split
    · rename_i hmem
      refine iff_of_false (by simp only [Shape.noClass]; omega) ?_
      rcases List.mem_cons.mp hmem with rfl | hmem
      · exact h₁
      · exact List.mem_singleton.mp hmem ▸ h₂
    · exact Iff.rfl
  shape x shape hx := .inl (by rw [find?_shapes_unite, hx]; rfl)

theorem keeps_merge {s t : Store} {c₁ c₂ c : Int} (hpos : 0 < s.nextClass)
    (h : s.merge c₁ c₂ = .ok (c, t)) (dropped : Var → Prop) : ∃ rep, s.Keeps t rep dropped := by
  unfold merge at h
  split at h
  · cases h
  · rename_i hallowed
    by_cases heq : c₁ = c₂
    · rw [heq, equate_self] at h
      cases h
      exact ⟨id, .of_shapes_eq rfl (Int.le_refl _)⟩
    · rw [equate_of_ne s heq] at h
      obtain rfl : (s.unite c₁ c₂).2 = t := congrArg Prod.snd (Except.ok.inj h)
      obtain ⟨h₁, h₂⟩ := not_or.mp fun hunknown => hallowed ⟨heq, hunknown⟩
      exact ⟨_, keeps_unite hpos h₁ h₂ dropped⟩

/-- A shape that is recorded for an array with another one leaves no dimension of the array known. -/
theorem record_of_ne {s : Store} {x : Var} {previous shape : Shape}
    (hx : s.shapes.find? x = some previous) (hne : previous ≠ shape) :
    (s.record x shape).1 = .conflict previous shape ∧
      (s.record x shape).2.shapes.find? x = some (.unknown previous.length) := by
  simp [record, hx, hne]

theorem recorded_of_conflict {s : Store} {x : Var} {shape previous incoming : Shape}
    (h : (s.record x shape).1 = .conflict previous incoming) :
    s.shapes.find? x = some previous ∧ previous ≠ shape := by
  unfold record at h
  split at h
  · cases h
  · rename_i hx
    split at h
    · cases h
    · rename_i hne
      cases h
      exact ⟨hx, hne⟩

/-- Recording a shape leaves an array that it contradicts without known dimensions, and the other
arrays as they were. -/
theorem keeps_record (s : Store) (x : Var) (shape : Shape) :
    s.Keeps (s.record x shape).2 id fun y =>
      y = x ∧ ∃ previous, (s.record x shape).1 = .conflict previous shape where
  next_le := Int.le_of_eq (s.nextClass_record x shape).symm
  unknown_iff _ := Iff.rfl
  shape y previous hy := by
    rw [List.map_id]
    by_cases hxy : x = y
    · subst hxy
      by_cases hsame : previous = shape
      · subst hsame
        exact .inl (by rw [find?_shapes_record, if_pos rfl, hy]; simp)
      · obtain ⟨houtcome, hblank⟩ := record_of_ne hy hsame
        exact .inr ⟨⟨rfl, previous, houtcome⟩, hblank⟩
    · exact .inl (by rw [find?_shapes_record, if_neg hxy, hy])

end Store

namespace StoreRequest

theorem downgraded?_eq_some_iff {r : StoreRequest} {s : Store} {x : Var} :
    r.downgraded? s = some x ↔ ∃ shape, r = record x shape ∧
      ∃ previous incoming, (s.record x shape).1 = .conflict previous incoming := by
  constructor
  · intro h
    unfold downgraded? at h
    split at h
    · split at h
      · rename_i houtcome
        cases h
        exact ⟨_, rfl, _, _, houtcome⟩
      · cases h
    · cases h
  · rintro ⟨shape, rfl, previous, incoming, houtcome⟩
    simp [downgraded?, houtcome]

/-- One request renames classes, and makes only what it downgrades unknown. -/
theorem keeps_serve (r : StoreRequest) {s : Store} (hpos : 0 < s.nextClass) :
    ∃ rep, s.Keeps (r.serve.run s).2 rep fun x => r.downgraded? s = some x := by
  cases r with
  | allocate => exact ⟨id, .of_shapes_eq rfl (Int.le_of_lt (Int.lt_succ _))⟩
  | merge c₁ c₂ =>
    simp only [serve, Attempt.run_ofExcept]
    cases hmerge : s.merge c₁ c₂ with
    | ok r => exact Store.keeps_merge hpos hmerge _
    | error e => exact ⟨id, .of_shapes_eq rfl (Int.le_refl _)⟩
  | record x shape =>
    refine ⟨id, (s.keeps_record x shape).weaken ?_⟩
    rintro _ ⟨rfl, previous, houtcome⟩
    exact downgraded?_eq_some_iff.mpr ⟨shape, rfl, previous, shape, houtcome⟩
  | setSizes c sizes =>
    simp only [serve, Attempt.run_ofExcept, Store.setSizes]
    by_cases hc : c = Shape.noClass
    · rw [if_pos hc]
      exact ⟨id, .of_shapes_eq rfl (Int.le_refl _)⟩
    · rw [if_neg hc]
      exact ⟨id, .of_shapes_eq rfl (Int.le_refl _)⟩
  | setSizeVars x sizes => exact ⟨id, .of_shapes_eq rfl (Int.le_refl _)⟩

/-- A downgraded array has no known dimension. -/
theorem blank_of_downgraded? {r : StoreRequest} {s : Store} {x : Var}
    (h : r.downgraded? s = some x) :
    ∃ rank, (r.serve.run s).2.shapes.find? x = some (.unknown rank) := by
  obtain ⟨shape, rfl, previous, incoming, houtcome⟩ := downgraded?_eq_some_iff.mp h
  obtain ⟨hx, hne⟩ := Store.recorded_of_conflict houtcome
  exact ⟨previous.length, (Store.record_of_ne hx hne).2⟩

/-- After any requests, recorded shapes are renamed, or unknown where a request downgraded them. -/
theorem keeps_serveAll (rs : List StoreRequest) {s : Store} (hpos : 0 < s.nextClass) :
    ∃ rep, s.Keeps (serveAll rs s) rep fun x => x ∈ downgraded rs s := by
  induction rs generalizing s with
  | nil => exact ⟨id, .of_shapes_eq rfl (Int.le_refl _)⟩
  | cons r rs ih =>
    obtain ⟨rep, hserved⟩ := r.keeps_serve hpos
    obtain ⟨rep', hrest⟩ := ih (Int.lt_of_lt_of_le hpos hserved.next_le)
    refine ⟨rep' ∘ rep, (hserved.trans hrest).weaken fun x hx => ?_⟩
    rw [downgraded, List.mem_append, Option.mem_toList]
    exact hx

/-- It stays so, whatever is asked for afterwards. -/
theorem blank_of_mem_downgraded {x : Var} {rs : List StoreRequest} {s : Store}
    (hpos : 0 < s.nextClass) (h : x ∈ downgraded rs s) :
    ∃ rank, (serveAll rs s).shapes.find? x = some (.unknown rank) := by
  induction rs generalizing s with
  | nil => cases h
  | cons r rs ih =>
    obtain ⟨rep, hserved⟩ := r.keeps_serve hpos
    have hpos' := Int.lt_of_lt_of_le hpos hserved.next_le
    rw [downgraded, List.mem_append, Option.mem_toList] at h
    rcases h with hnow | hlater
    · obtain ⟨rank, hunknown⟩ := blank_of_downgraded? hnow
      obtain ⟨rep', hrest⟩ := keeps_serveAll rs hpos'
      exact ⟨rank, hrest.blank hunknown⟩
    · exact ih hpos' hlater

/-- What the tables of a new store say is said for good, up to the names of classes. Between any two
points of a list of requests a recorded array stays recorded with its rank, an unknown dimension stays
unknown, and two dimensions of one class stay together in a class unless one of their arrays is
downgraded in between. An array that was downgraded before has no known dimension any more. -/
theorem serveAll_monotone (before between : List StoreRequest) :
    let s := serveAll before .empty
    let t := serveAll (before ++ between) .empty
    (∀ x shape, s.shapes.find? x = some shape →
        ∃ later, t.shapes.find? x = some later ∧ later.length = shape.length) ∧
      (∀ d, s.classAt? d = some Shape.noClass → t.classAt? d = some Shape.noClass) ∧
      (∀ d e c, c ≠ Shape.noClass → s.classAt? d = some c → s.classAt? e = some c →
        d.array ∉ downgraded between s → e.array ∉ downgraded between s →
        ∃ later, later ≠ Shape.noClass ∧ t.classAt? d = some later ∧
          t.classAt? e = some later) ∧
      ∀ x ∈ downgraded before .empty, ∃ rank, t.shapes.find? x = some (.unknown rank) := by
  intro s t
  have hstart : 0 < Store.empty.nextClass := by decide
  obtain ⟨_, hbefore⟩ := keeps_serveAll before hstart
  obtain ⟨rep, hbetween⟩ := keeps_serveAll between (Int.lt_of_lt_of_le hstart hbefore.next_le)
  rw [← serveAll_append] at hbetween
  refine ⟨fun x shape hx => hbetween.exists_length_eq hx, fun d hd => hbetween.unknown hd,
    fun d e c hc hd he hkeptd hkepte => ?_, fun x hx => ?_⟩
  · have hknown : rep c ≠ Shape.noClass := fun h => hc ((hbetween.unknown_iff c).mp h)
    exact ⟨rep c, hknown, hbetween.known hd hkeptd, hbetween.known he hkepte⟩
  · obtain ⟨rank, hblank⟩ := blank_of_mem_downgraded hstart hx
    exact ⟨rank, hbetween.blank hblank⟩

/-- The rows of a grid and of its mask stay equal while classes are merged, refused requests are
passed over, and a third array, which two shapes were recorded for, loses its dimension. -/
theorem serveAll_monotone_mask :
    let before : List StoreRequest :=
      [.allocate, .allocate, .record "grid" [1, 2], .record "mask" [1], .record "edge" [2],
        .record "edge" [1]]
    let between : List StoreRequest :=
      [.merge 1 2, .merge (-1) 3, .setSizes (-1) [], .record "edge" [3], .record "mask" [3],
        .merge 3 9]
    let t := serveAll (before ++ between) .empty
    (∃ c, c ≠ Shape.noClass ∧ t.classAt? ⟨"grid", 0⟩ = some c ∧ t.classAt? ⟨"mask", 0⟩ = some c) ∧
      t.classAt? ⟨"edge", 0⟩ = some Shape.noClass := by
  intro before between t
  obtain ⟨-, hunknown, hequal, -⟩ := serveAll_monotone before between
  exact ⟨hequal ⟨"grid", 0⟩ ⟨"mask", 0⟩ 1 (by decide) (by decide) (by decide) (by decide) (by decide),
    hunknown ⟨"edge", 0⟩ (by decide)⟩

end StoreRequest

end DimEquiv
