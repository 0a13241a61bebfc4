import DimEquiv.Plan
import DimEquiv.Proofs.DerivedClasses
import DimEquiv.Proofs.RunSteps

/-!
# Stores that follow a plan

After some assignments the classes of a store are those of the plan: a dimension is unknown, or of one
class with another one, exactly when the plan says so. This does not say which ids stand for the
classes, and it is kept by every further assignment.
-/

namespace DimEquiv

open Relation

/-! ### What a derivation lists -/

namespace Derivation

variable {target : Var} {group : List Dimension} {dims joined : List (List Dimension)}

theorem mem_groups_shape : group ∈ (shape dims joined).groups target ↔
    (∃ i listed, dims[i]? = some listed ∧ group = ⟨target, i⟩ :: listed) ∨ group ∈ joined := by
  constructor
  · intro h
    rcases List.mem_append.mp h with h | h
    · obtain ⟨i, hi, rfl⟩ := List.mem_mapIdx.mp h
      exact .inl ⟨i, dims[i], List.getElem?_eq_getElem hi, rfl⟩
    · exact .inr h
  · rintro (⟨i, listed, hget, rfl⟩ | h)
    · obtain ⟨hi, rfl⟩ := List.getElem?_eq_some_iff.mp hget
      exact List.mem_append_left _ (List.mem_mapIdx.mpr ⟨i, hi, rfl⟩)
    · exact List.mem_append_right _ h

theorem hides_congr {D : Derivation} {P Q : Dimension → Prop} {rank i : Nat}
    (h : ∀ group ∈ D.sources, ∀ d ∈ group, (P d ↔ Q d)) : D.Hides P rank i ↔ D.Hides Q rank i := by
  cases D with
  | shape dims joined =>
    refine forall_congr' fun _ => exists_congr fun listed => and_congr_right fun hget => ?_
    refine exists_congr fun d => and_congr_right fun hd => ?_
    exact h listed (List.mem_append_left _ (List.mem_of_getElem? hget)) d hd
  | failure => exact Iff.rfl
  | unknown => exact Iff.rfl

/-- Dimensions that become one are in one of the groups. -/
theorem exists_group_of_source {D : Derivation} (target : Var) (h : group ∈ D.sources) :
    ∃ larger ∈ D.groups target, group ⊆ larger := by
  cases D with
  | shape dims joined =>
    rcases List.mem_append.mp h with h | h
    · obtain ⟨i, hi⟩ := List.mem_iff_getElem?.mp h
      exact ⟨_, mem_groups_shape.mpr (.inl ⟨i, group, hi, rfl⟩), List.subset_cons_self _ _⟩
    · exact ⟨group, mem_groups_shape.mpr (.inr h), List.Subset.refl group⟩
  | failure => cases h
  | unknown => cases h

/-- A group has dimensions of the target and dimensions that become one. -/
theorem eq_target_or_source {D : Derivation} (h : group ∈ D.groups target) {d : Dimension}
    (hd : d ∈ group) : d.array = target ∨ ∃ source ∈ D.sources, d ∈ source := by
  cases D with
  | shape dims joined =>
    rcases mem_groups_shape.mp h with ⟨i, listed, hi, rfl⟩ | h
    · rcases List.mem_cons.mp hd with rfl | hd
      · exact .inl rfl
      · exact .inr ⟨listed, List.mem_append_left _ (List.mem_of_getElem? hi), hd⟩
    · exact .inr ⟨group, List.mem_append_right _ h, hd⟩
  | failure => cases h
  | unknown => cases h

end Derivation

theorem mem_dimensionsOf {x : Var} {n : Nat} {d : Dimension} (h : d ∈ dimensionsOf x n) :
    d.array = x := by
  obtain ⟨i, -, rfl⟩ := List.mem_map.mp h
  rfl

theorem mem_of_mem_map_singleton {ds group : List Dimension} (h : group ∈ ds.map fun d => [d])
    {d : Dimension} (hd : d ∈ group) : d ∈ ds := by
  obtain ⟨e, he, rfl⟩ := List.mem_map.mp h
  rwa [List.mem_singleton.mp hd]

namespace ShapeRule

variable {isArray : Var → Bool} {rank? : Var → Option Nat} {group : List Dimension} {d : Dimension}

theorem eq_or_eq_of_product_source {callName : String} {a b : Var} {m n : Nat}
    (hm : rank? a = some m) (hn : rank? b = some n)
    (h : group ∈ ((product callName a b).derive isArray rank?).sources) (hd : d ∈ group) :
    d.array = a ∨ d.array = b := by
  simp only [derive, hm, hn] at h
  split at h
  · cases h
  · rcases List.mem_append.mp h with h | h
    · rcases List.mem_append.mp (mem_of_mem_map_singleton h hd) with h | h
      · exact .inl (mem_dimensionsOf (List.dropLast_subset _ h))
      · exact .inr (mem_dimensionsOf (List.mem_of_mem_eraseIdx h))
    · rw [List.mem_singleton.mp h] at hd
      rcases List.mem_cons.mp hd with rfl | hd
      · exact .inl rfl
      · exact .inr (List.mem_singleton.mp hd ▸ rfl)

/-- A rule derives dimensions from those of arrays that it reads. -/
theorem mem_reads_of_source {rule : ShapeRule}
    (h : group ∈ (rule.derive isArray rank?).sources) (hd : d ∈ group) :
    d.array ∈ rule.reads isArray ∧ (rank? d.array).isSome := by
  have hnil : ∀ {n : Nat}, group ∉ List.replicate n ([] : List Dimension) := by
    intro n hmem
    rw [List.eq_of_mem_replicate hmem] at hd
    cases hd
  cases rule with
  | fail made e =>
    simp only [derive] at h
    split at h <;> cases h
  | parameter name rank =>
    rw [derive, Derivation.sources, List.append_nil] at h
    exact absurd h hnil
  | create sizes =>
    rw [derive, Derivation.sources, List.append_nil] at h
    exact absurd h hnil
  | copy x =>
    cases hn : rank? x with
    | none =>
      simp only [derive, hn] at h
      cases h
    | some n =>
      simp only [derive, hn, Derivation.sources, List.append_nil] at h
      rw [mem_dimensionsOf (mem_of_mem_map_singleton h hd), hn]
      exact ⟨List.mem_cons_self, rfl⟩
  | reverse x =>
    cases hn : rank? x with
    | none =>
      simp only [derive, hn] at h
      cases h
    | some n =>
      simp only [derive, hn, Derivation.sources, List.append_nil] at h
      rw [mem_dimensionsOf (List.mem_reverse.mp (mem_of_mem_map_singleton h hd)), hn]
      exact ⟨List.mem_cons_self, rfl⟩
  | elementwise operands =>
    simp only [derive] at h
    split at h
    · rename_i hall
      rw [Derivation.sources, List.append_nil] at h
      obtain ⟨i, -, rfl⟩ := List.mem_map.mp h
      obtain ⟨x, hx, -, rfl⟩ := Broadcast.mem_alignedDimensions.mp hd
      obtain ⟨hmem, harray⟩ := List.mem_filter.mp hx
      exact ⟨hx, hall.2 x hmem harray⟩
    · cases h
  | product callName a b =>
    cases hm : rank? a with
    | none =>
      simp only [derive, hm] at h
      cases h
    | some m =>
      cases hn : rank? b with
      | none =>
        simp only [derive, hm, hn] at h
        cases h
      | some n =>
        rcases eq_or_eq_of_product_source hm hn h hd with heq | heq
        · rw [heq, hm]
          exact ⟨List.mem_cons_self, rfl⟩
        · rw [heq, hn]
          exact ⟨List.mem_cons_of_mem a List.mem_cons_self, rfl⟩

end ShapeRule

/-! ### Further assignments -/

namespace Plan

variable {plan : Plan} {done : List Assign} {a : Assign}

/-- Every dimension that an assignment connects is one of an array assigned so far. -/
def Closed (plan : Plan) (done : List Assign) : Prop :=
  ∀ a ∈ done, ∀ group ∈ (plan.derivation a).groups a.target, ∀ d ∈ group,
    d.array ∈ done.map Assign.target

theorem Hidden.mem_targets {d : Dimension} (h : plan.Hidden done d) :
    d.array ∈ done.map Assign.target := by
  obtain ⟨a, ha, htarget, -⟩ := hidden_iff.mp h
  exact htarget ▸ List.mem_map_of_mem ha

theorem mem_of_mem_append (hnew : a.target ∉ done.map Assign.target) {b : Assign}
    (hb : b ∈ done ++ [a]) (htarget : b.target ∈ done.map Assign.target) : b ∈ done := by
  rcases List.mem_append.mp hb with hb | hb
  · exact hb
  · rw [List.mem_singleton.mp hb] at htarget
    exact absurd htarget hnew

/-- A further assignment makes no dimension unknown that was there before. -/
theorem Closed.hidden_append_iff (h : plan.Closed done) (hnew : a.target ∉ done.map Assign.target)
    {d : Dimension} (hd : d.array ∈ done.map Assign.target) :
    plan.Hidden (done ++ [a]) d ↔ plan.Hidden done d := by
  refine ⟨fun hidden => ?_, .mono (List.subset_append_left _ _)⟩
  induction hidden with
  | unknown hb hrank hi hder => exact .unknown (mem_of_mem_append hnew hb hd) hrank hi hder
  | mismatch hb hrank hi hder hlen =>
    exact .mismatch (mem_of_mem_append hnew hb hd) hrank hi hder hlen
  | @listed b rank i dims joined listed e hb hrank hi hder hget he _ ih =>
    have hb' := mem_of_mem_append hnew hb hd
    have hgroup : ⟨b.target, i⟩ :: listed ∈ (plan.derivation b).groups b.target := by
      rw [hder]
      exact Derivation.mem_groups_shape.mpr (.inl ⟨i, listed, hget, rfl⟩)
    exact .listed hb' hrank hi hder hget he (ih (h b hb' _ hgroup e (List.mem_cons_of_mem _ he)))

theorem Closed.known_append_iff (h : plan.Closed done) (hnew : a.target ∉ done.map Assign.target)
    {d : Dimension} (hd : d.array ∈ done.map Assign.target) :
    plan.Known (done ++ [a]) d ↔ plan.Known done d := by
  have hd' : d.array ∈ (done ++ [a]).map Assign.target :=
    List.map_subset _ (List.subset_append_left _ _) hd
  rw [Known, Known, h.hidden_append_iff hnew hd]
  exact and_congr_left' (iff_of_true hd' hd)

theorem Closed.linked_append (h : plan.Closed done) (hnew : a.target ∉ done.map Assign.target)
    {d e : Dimension} (hde : plan.Linked done d e) : plan.Linked (done ++ [a]) d e := by
  obtain ⟨hd, he, b, hb, hgroup⟩ := hde
  exact ⟨(h.known_append_iff hnew hd.1).mpr hd, (h.known_append_iff hnew he.1).mpr he, b,
    List.mem_append_left _ hb, hgroup⟩

theorem Closed.append (h : plan.Closed done) (hsources : ∀ group ∈ (plan.derivation a).sources,
    ∀ d ∈ group, d.array ∈ done.map Assign.target) : plan.Closed (done ++ [a]) := by
  intro b hb group hgroup d hd
  rw [List.map_append]
  rcases List.mem_append.mp hb with hb | hb
  · exact List.mem_append_left _ (h b hb group hgroup d hd)
  · obtain rfl := List.mem_singleton.mp hb
    rcases Derivation.eq_target_or_source hgroup hd with htarget | ⟨source, hsource, hd⟩
    · exact List.mem_append_right _ (by simp [htarget])
    · exact List.mem_append_left _ (hsources source hsource d hd)

end Plan

namespace Store

variable {s t u : Store} {plan : Plan} {done : List Assign} {a : Assign}

/-! ### Settled shapes -/

/-- The shape `shape` of the declared rank, settled on in `t`, is what `D` derives in `s`. -/
structure Fitted (s t : Store) (D : Derivation) (rank : Nat) (shape : Shape) : Prop
    extends Joined s t D.sources where
  length_eq : shape.length = rank
  hidden_iff : ∀ i < rank, (shape[i]? = some Shape.noClass ↔
    D.Hides (fun d => s.classAt? d = some Shape.noClass) rank i)
  /-- A known class is shared with all dimensions listed, and with nothing if there is none. -/
  shown : ∀ (i : Nat) c, shape[i]? = some c → c ≠ Shape.noClass →
    ∃ dims joined listed, D = .shape dims joined ∧ dims[i]? = some listed ∧
      (∀ d ∈ listed, t.classAt? d = some c) ∧
      (listed = [] → (∀ d, t.classAt? d ≠ some c) ∧ ∀ j : Nat, shape[j]? = some c → j = i)

/-- The shape that an inference is settled with is the derived one. -/
theorem Followed.fitted {D : Derivation} {answer : Except ShapeError Shape} {rank : Nat}
    {shape : Shape} {ds : List Diagnostic} (h : s.Followed D answer t)
    (hsettle : Pass.settle rank a answer = .ok (shape, ds)) : s.Fitted t D rank shape := by
  have hunknown : ∀ {i : Nat}, i < rank → (Shape.unknown rank)[i]? = some Shape.noClass := by
    intro i hi
    rw [Shape.unknown, List.getElem?_replicate, if_pos hi]
  have hnone : ∀ {P : Prop} {i : Nat} {c}, (Shape.unknown rank)[i]? = some c →
      c ≠ Shape.noClass → P := by
    intro P i c hc hknown
    exact absurd (Shape.eq_noClass_of_mem (List.mem_of_getElem? hc)) hknown
  cases h with
  | @failure e t hfatal =>
    cases e with
    | unsupported cause => cases hfatal
    | _ => cases hsettle
  | unknown h =>
    cases hsettle
    exact ⟨h, Shape.length_unknown rank, fun i hi => iff_of_true (hunknown hi) trivial,
      fun i c hc hknown => hnone hc hknown⟩
  | @shape inferred dims joined t h =>
    by_cases hlen : inferred.length = rank
    · rw [Pass.settle, if_pos hlen] at hsettle
      cases hsettle
      have hget : ∀ {i : Nat}, i < rank → dims[i]? = some (dims[i]?.getD []) := by
        intro i hi
        rw [List.getElem?_eq_getElem (by rw [← h.length_eq, hlen]; exact hi), Option.getD_some]
      refine ⟨h.toJoined, hlen, fun i hi => ?_, fun i c hc hknown => ?_⟩
      · rw [h.unknown_iff_of_listed i _ (hget hi)]
        constructor
        · exact fun hlisted _ => ⟨_, hget hi, hlisted⟩
        · intro hhides
          obtain ⟨listed, hlisted, hd⟩ := hhides (h.length_eq ▸ hlen)
          rwa [hlisted, Option.getD_some]
      · have hi : i < rank := hlen ▸ (List.getElem?_eq_some_iff.mp hc).1
        exact ⟨dims, joined, _, rfl, hget hi, h.class_of_listed i _ c (hget hi) hc hknown,
          fun hnil => h.new_of_none i c (hnil ▸ hget hi) hc⟩
    · rw [Pass.settle, if_neg hlen] at hsettle
      cases hsettle
      refine ⟨h.toJoined, Shape.length_unknown rank, fun i hi => iff_of_true (hunknown hi) ?_,
        fun i c hc hknown => hnone hc hknown⟩
      exact fun heq => absurd (h.length_eq.trans heq) hlen

/-- The analysis fails where the derivation does. -/
theorem Followed.settle_eq_error_iff {D : Derivation} {answer : Except ShapeError Shape}
    (h : s.Followed D answer t) (rank : Nat) (a : Assign) :
    (∃ e, Pass.settle rank a answer = .error e) ↔ D = .failure := by
  cases h with
  | @failure e t hfatal =>
    exact iff_of_true ⟨e, Pass.settle_eq_error_iff.mpr ⟨rfl, hfatal⟩⟩ rfl
  | unknown h => exact iff_of_false (fun ⟨e, he⟩ => by cases he) (fun he => by cases he)
  | @shape inferred dims joined t h =>
    refine iff_of_false ?_ (fun he => by cases he)
    rintro ⟨e, he⟩
    rw [Pass.settle] at he
    split at he <;> cases he

/-! ### Solved plans -/

/-- The classes of the store are those that the plan of the assignments in `done` gives. -/
structure Solves (plan : Plan) (done : List Assign) (s : Store) : Prop where
  recorded : ∀ x, (s.shapes.find? x).map List.length =
    if x ∈ done.map Assign.target then plan.rank? x else none
  closed : plan.Closed done
  hidden_iff : ∀ d, s.classAt? d = some Shape.noClass ↔ plan.Hidden done d
  same_iff : ∀ d e, s.Same d e ↔ plan.Equal done d e

theorem known?_isSome_iff {d : Dimension} : (s.known? d).isSome ↔
    (∃ rank, (s.shapes.find? d.array).map List.length = some rank ∧ d.index < rank) ∧
      s.classAt? d ≠ some Shape.noClass := by
  rw [known?, classAt?]
  cases hshape : s.shapes.find? d.array with
  | none => simp
  | some shape =>
    rw [Option.bind_some, Option.map_some]
    cases hc : shape[d.index]? with
    | none =>
      rw [List.getElem?_eq_none_iff] at hc
      simp [hc]
    | some c =>
      have hlt := (List.getElem?_eq_some_iff.mp hc).1
      by_cases hknown : c = Shape.noClass <;> simp [Option.filter, hlt, hknown]

theorem known_of_recorded (hrecorded : ∀ x, (s.shapes.find? x).map List.length =
      if x ∈ done.map Assign.target then plan.rank? x else none)
    (hhidden : ∀ d, s.classAt? d = some Shape.noClass ↔ plan.Hidden done d) (d : Dimension) :
    (s.known? d).isSome ↔ plan.Known done d := by
  rw [known?_isSome_iff, hrecorded, Plan.Known, Ne, hhidden, ← and_assoc]
  refine and_congr_left' ?_
  by_cases hd : d.array ∈ done.map Assign.target
  · simp [hd]
  · simp [hd]

theorem Solves.known_iff (h : s.Solves plan done) (d : Dimension) :
    (s.known? d).isSome ↔ plan.Known done d :=
  known_of_recorded h.recorded h.hidden_iff d

theorem solves_empty (plan : Plan) : Store.empty.Solves plan [] where
  recorded := fun x => rfl
  closed := fun a ha => by cases ha
  hidden_iff := fun d => iff_of_false (fun h => by cases h) fun h => by
    have := h.mem_targets
    cases this
  same_iff := fun d e => iff_of_false (fun ⟨c, hc, _⟩ => by cases hc) fun h => by
    have := h.1.1
    cases this

/-- The array `a.target` was recorded in `u` with the shape that was derived for it in `s`. -/
structure Extended (plan : Plan) (done : List Assign) (a : Assign) (rank : Nat) (shape : Shape)
    (s t u : Store) : Prop where
  solves : s.Solves plan done
  new : a.target ∉ done.map Assign.target
  declared : plan.rank? a.target = some rank
  sources : ∀ group ∈ (plan.derivation a).sources, ∀ d ∈ group, d.array ∈ done.map Assign.target
  fitted : s.Fitted t (plan.derivation a) rank shape
  shapes : ∀ x, u.shapes.find? x = if a.target = x then some shape else t.shapes.find? x

namespace Extended

variable {rank : Nat} {shape : Shape} {d e : Dimension} {c : Int}

theorem classAt?_of_ne (h : Extended plan done a rank shape s t u) (hd : a.target ≠ d.array) :
    u.classAt? d = t.classAt? d := by
  rw [classAt?, h.shapes, if_neg hd, classAt?]

theorem classAt?_target (h : Extended plan done a rank shape s t u) (i : Nat) :
    u.classAt? ⟨a.target, i⟩ = shape[i]? :=
  classAt?_of_find? (by rw [h.shapes, if_pos rfl]) i

theorem mem_targets (a : Assign) (done : List Assign) (x : Var) :
    x ∈ (done ++ [a]).map Assign.target ↔ x ∈ done.map Assign.target ∨ a.target = x := by
  simp [eq_comm]

/-- A dimension of `t` is one of an array that was assigned before. -/
theorem mem_of_classAt? (h : Extended plan done a rank shape s t u) (hc : t.classAt? d = some c) :
    d.array ∈ done.map Assign.target := by
  obtain ⟨known, hknown, -⟩ := Option.bind_eq_some_iff.mp hc
  have hrank := h.fitted.rank_eq d.array
  rw [hknown, h.solves.recorded] at hrank
  by_contra hmem
  rw [if_neg hmem] at hrank
  cases hrank

theorem classAt?_of_some (h : Extended plan done a rank shape s t u)
    (hc : t.classAt? d = some c) : u.classAt? d = some c := by
  refine (h.classAt?_of_ne ?_).trans hc
  rintro htarget
  exact h.new (htarget ▸ h.mem_of_classAt? hc)

theorem known?_of_some (h : Extended plan done a rank shape s t u) (hc : t.known? d = some c) :
    u.known? d = some c := by
  rw [known?_eq_some_iff] at hc ⊢
  exact ⟨h.classAt?_of_some hc.1, hc.2⟩

theorem recorded (h : Extended plan done a rank shape s t u) (x : Var) :
    (u.shapes.find? x).map List.length =
      if x ∈ (done ++ [a]).map Assign.target then plan.rank? x else none := by
  rw [h.shapes]
  by_cases hx : a.target = x
  · rw [if_pos hx, if_pos ((mem_targets a done x).mpr (.inr hx)), ← hx, h.declared,
      Option.map_some, h.fitted.length_eq]
  · rw [if_neg hx, h.fitted.rank_eq, h.solves.recorded]
    simp only [mem_targets, hx, or_false]

theorem hidden_iff (h : Extended plan done a rank shape s t u) (d : Dimension) :
    u.classAt? d = some Shape.noClass ↔ plan.Hidden (done ++ [a]) d := by
  by_cases hd : a.target = d.array
  · obtain ⟨x, i⟩ := d
    obtain rfl : a.target = x := hd
    have hsources : ∀ group ∈ (plan.derivation a).sources, ∀ d ∈ group,
        (s.classAt? d = some Shape.noClass ↔ plan.Hidden (done ++ [a]) d) := by
      intro group hgroup d hd
      rw [h.solves.hidden_iff, h.solves.closed.hidden_append_iff h.new (h.sources group hgroup d hd)]
    rw [h.classAt?_target, Plan.hidden_iff]
    constructor
    · intro hc
      have hi : i < rank := h.fitted.length_eq ▸ (List.getElem?_eq_some_iff.mp hc).1
      refine ⟨a, by simp, rfl, rank, h.declared, hi, ?_⟩
      exact (Derivation.hides_congr hsources).mp ((h.fitted.hidden_iff i hi).mp hc)
    · rintro ⟨b, hb, htarget, rank', hrank', hi, hhides⟩
      obtain rfl : b = a := by
        rcases List.mem_append.mp hb with hb | hb
        · exact absurd (List.mem_map.mpr ⟨b, hb, htarget⟩) h.new
        · exact List.mem_singleton.mp hb
      obtain rfl := Option.some.inj (h.declared.symm.trans hrank')
      exact (h.fitted.hidden_iff i hi).mpr ((Derivation.hides_congr hsources).mpr hhides)
  · rw [h.classAt?_of_ne hd, h.fitted.unknown_iff, h.solves.hidden_iff]
    by_cases hmem : d.array ∈ done.map Assign.target
    · exact (h.solves.closed.hidden_append_iff h.new hmem).symm
    · refine iff_of_false (fun hidden => hmem hidden.mem_targets) fun hidden => ?_
      exact ((mem_targets a done d.array).mp hidden.mem_targets).elim hmem hd

theorem known_iff (h : Extended plan done a rank shape s t u) (d : Dimension) :
    (u.known? d).isSome ↔ plan.Known (done ++ [a]) d :=
  known_of_recorded h.recorded h.hidden_iff d

/-- Dimensions that are of one class in `t` are connected. -/
theorem eqvGen_of_same (h : Extended plan done a rank shape s t u) (hde : t.Same d e) :
    EqvGen (plan.Linked (done ++ [a])) d e := by
  have hstep : (fun d e => s.Same d e ∨ s.Together (plan.derivation a).sources d e) ≤
      EqvGen (plan.Linked (done ++ [a])) := by
    rintro d e (hsame | ⟨hd, he, group, hgroup, hdg, heg⟩)
    · have hlinked := ((h.solves.same_iff d e).mp hsame).2.2
      exact EqvGen.mono (fun _ _ => h.solves.closed.linked_append h.new) _ _ hlinked
    · obtain ⟨larger, hlarger, hsub⟩ := Derivation.exists_group_of_source a.target hgroup
      have hknown : ∀ {d}, (s.known? d).isSome → d ∈ group → plan.Known (done ++ [a]) d :=
        fun hd hdg => (h.solves.closed.known_append_iff h.new (h.sources group hgroup _ hdg)).mpr
          ((h.solves.known_iff _).mp hd)
      exact .rel d e ⟨hknown hd hdg, hknown he heg, a, by simp, larger, hlarger, hsub hdg, hsub heg⟩
  exact EqvGen.eqvGen_le hstep _ _ ((h.fitted.same_iff d e).mp hde).2.2

/-- A known dimension is connected with one that was there before, or shares its class with none. -/
theorem anchored (h : Extended plan done a rank shape s t u) (hd : u.known? d = some c) :
    (∃ e, t.known? e = some c ∧ EqvGen (plan.Linked (done ++ [a])) d e) ∨
      ∀ e, u.known? e = some c → e = d := by
  obtain ⟨hc, hknown⟩ := known?_eq_some_iff.mp hd
  by_cases htarget : a.target = d.array
  · obtain ⟨x, i⟩ := d
    obtain rfl : a.target = x := htarget
    rw [h.classAt?_target] at hc
    obtain ⟨dims, joined, listed, hder, hget, hshared, hnew⟩ := h.fitted.shown i c hc hknown
    cases listed with
    | nil =>
      obtain ⟨hnone, halone⟩ := hnew rfl
      refine .inr fun e he => ?_
      obtain ⟨hce, -⟩ := known?_eq_some_iff.mp he
      by_cases hx : a.target = e.array
      · obtain ⟨y, j⟩ := e
        obtain rfl : a.target = y := hx
        rw [h.classAt?_target] at hce
        rw [halone j hce]
      · rw [h.classAt?_of_ne hx] at hce
        exact absurd hce (hnone e)
    | cons e listed =>
      have he : t.known? e = some c :=
        known?_eq_some_iff.mpr ⟨hshared e List.mem_cons_self, hknown⟩
      have hgroup : ⟨a.target, i⟩ :: e :: listed ∈ (plan.derivation a).groups a.target := by
        rw [hder]
        exact Derivation.mem_groups_shape.mpr (.inl ⟨i, _, hget, rfl⟩)
      refine .inl ⟨e, he, .rel _ _ ⟨?_, ?_, a, by simp, _, hgroup, by simp, by simp⟩⟩
      · exact (h.known_iff _).mp (Option.isSome_of_eq_some hd)
      · exact (h.known_iff _).mp (Option.isSome_of_eq_some (h.known?_of_some he))
  · rw [known?_eq_of_classAt?_eq (h.classAt?_of_ne htarget)] at hd
    exact .inl ⟨d, hd, .refl d⟩

/-- Dimensions that become one by the assignment are of one class. -/
theorem known?_eq_of_source (h : Extended plan done a rank shape s t u) {source : List Dimension}
    (hsource : source ∈ (plan.derivation a).sources) (hd : plan.Known (done ++ [a]) d)
    (he : plan.Known (done ++ [a]) e) (hds : d ∈ source) (hes : e ∈ source) :
    u.known? d = u.known? e := by
  have hbefore : ∀ {x}, plan.Known (done ++ [a]) x → x ∈ source → (s.known? x).isSome := by
    intro x hx hxs
    rw [h.solves.closed.known_append_iff h.new (h.sources source hsource x hxs)] at hx
    exact (h.solves.known_iff x).mpr hx
  have hd' := hbefore hd hds
  have he' := hbefore he hes
  obtain ⟨c, hdc, hec⟩ := (h.fitted.same_iff d e).mpr
    ⟨hd', he', .rel d e (.inr ⟨hd', he', source, hsource, hds, hes⟩)⟩
  rw [h.known?_of_some hdc, h.known?_of_some hec]

/-- A known dimension of the target has the class of the dimensions listed for it. -/
theorem known?_target_eq_of_listed (h : Extended plan done a rank shape s t u)
    {dims joined : List (List Dimension)} (hder : plan.derivation a = .shape dims joined) {i : Nat}
    {listed : List Dimension} (hget : dims[i]? = some listed) (he : e ∈ listed)
    (hknown : plan.Known (done ++ [a]) ⟨a.target, i⟩) :
    u.known? ⟨a.target, i⟩ = u.known? e := by
  obtain ⟨c, hc⟩ := Option.isSome_iff_exists.mp ((h.known_iff _).mpr hknown)
  obtain ⟨hclass, hne⟩ := known?_eq_some_iff.mp hc
  rw [h.classAt?_target] at hclass
  obtain ⟨dims', joined', listed', hder', hget', hshared, -⟩ := h.fitted.shown i c hclass hne
  cases hder.symm.trans hder'
  cases hget.symm.trans hget'
  rw [hc, known?_eq_some_iff.mpr ⟨h.classAt?_of_some (hshared e he), hne⟩]

/-- Dimensions that were linked before are still of one class. -/
theorem known?_eq_of_linked_before (h : Extended plan done a rank shape s t u)
    (hde : plan.Linked done d e) : u.known? d = u.known? e := by
  have hsame : s.Same d e := (h.solves.same_iff d e).mpr ⟨hde.1, hde.2.1, .rel d e hde⟩
  obtain ⟨c, hdc, hec⟩ := (h.fitted.same_iff d e).mpr ⟨(h.solves.known_iff d).mpr hde.1,
    (h.solves.known_iff e).mpr hde.2.1, .rel d e (.inl hsame)⟩
  rw [h.known?_of_some hdc, h.known?_of_some hec]

/-- Linked dimensions are of one class. -/
theorem known?_eq_of_linked (h : Extended plan done a rank shape s t u)
    (hde : plan.Linked (done ++ [a]) d e) : u.known? d = u.known? e := by
  obtain ⟨hd, he, b, hb, group, hgroup, hdg, heg⟩ := hde
  rcases List.mem_append.mp hb with hb | hb
  · have hclosed := h.solves.closed
    have hd' := (hclosed.known_append_iff h.new (hclosed b hb group hgroup d hdg)).mp hd
    have he' := (hclosed.known_append_iff h.new (hclosed b hb group hgroup e heg)).mp he
    exact h.known?_eq_of_linked_before ⟨hd', he', b, hb, group, hgroup, hdg, heg⟩
  · obtain rfl := List.mem_singleton.mp hb
    cases hder : plan.derivation b with
    | failure =>
      rw [hder] at hgroup
      cases hgroup
    | unknown =>
      rw [hder] at hgroup
      cases hgroup
    | shape dims joined =>
      have hsources : (plan.derivation b).sources = dims ++ joined := by
        rw [hder]
        rfl
      rw [hder] at hgroup
      rcases Derivation.mem_groups_shape.mp hgroup with ⟨i, listed, hget, rfl⟩ | hjoined
      · rcases List.mem_cons.mp hdg with rfl | hdl <;> rcases List.mem_cons.mp heg with rfl | hel
        · rfl
        · exact h.known?_target_eq_of_listed hder hget hel hd
        · exact (h.known?_target_eq_of_listed hder hget hdl he).symm
        · refine h.known?_eq_of_source ?_ hd he hdl hel
          exact hsources ▸ List.mem_append_left _ (List.mem_of_getElem? hget)
      · exact h.known?_eq_of_source (hsources ▸ List.mem_append_right _ hjoined) hd he hdg heg

theorem same_iff (h : Extended plan done a rank shape s t u) (d e : Dimension) :
    u.Same d e ↔ plan.Equal (done ++ [a]) d e := by
  constructor
  · rintro ⟨c, hd, he⟩
    refine ⟨(h.known_iff d).mp (Option.isSome_of_eq_some hd),
      (h.known_iff e).mp (Option.isSome_of_eq_some he), ?_⟩
    rcases h.anchored hd with ⟨d', hd', hdd'⟩ | halone
    · rcases h.anchored he with ⟨e', he', hee'⟩ | halone
      · exact .trans _ _ _ hdd' (.trans _ _ _ (h.eqvGen_of_same ⟨c, hd', he'⟩) (.symm _ _ hee'))
      · rw [halone d hd]
        exact .refl e
    · rw [halone e he]
      exact .refl d
  · rintro ⟨hd, -, hde⟩
    obtain ⟨c, hc⟩ := Option.isSome_iff_exists.mp ((h.known_iff d).mpr hd)
    have heq := map_eq_of_eqvGen (fun _ _ hxy => h.known?_eq_of_linked hxy) hde
    exact ⟨c, hc, heq ▸ hc⟩

/-- The store has solved the plan with one more assignment. -/
theorem solves_append (h : Extended plan done a rank shape s t u) : u.Solves plan (done ++ [a]) :=
  ⟨h.recorded, h.solves.closed.append h.sources, h.hidden_iff, h.same_iff⟩

end Extended

/-- An assignment of a variable that is no array asks nothing of the store. -/
theorem Solves.append_scalar (h : s.Solves plan done) (hnew : a.target ∉ done.map Assign.target)
    (hrank : plan.rank? a.target = none) (hderivation : plan.derivation a = .unknown) :
    s.Solves plan (done ++ [a]) := by
  have hsources : ∀ group ∈ (plan.derivation a).sources, ∀ d ∈ group,
      d.array ∈ done.map Assign.target := by
    rw [hderivation]
    nofun
  have hhidden : ∀ d, plan.Hidden (done ++ [a]) d ↔ plan.Hidden done d := by
    intro d
    by_cases hd : d.array ∈ done.map Assign.target
    · exact h.closed.hidden_append_iff hnew hd
    · refine iff_of_false (fun hidden => ?_) fun hidden => hd hidden.mem_targets
      obtain ⟨b, -, -, rank, hrank', -⟩ := Plan.hidden_iff.mp hidden
      rcases (Extended.mem_targets a done d.array).mp hidden.mem_targets with hmem | htarget
      · exact hd hmem
      · rw [← htarget, hrank] at hrank'
        cases hrank'
  have hrecorded : ∀ x, (s.shapes.find? x).map List.length =
      if x ∈ (done ++ [a]).map Assign.target then plan.rank? x else none := by
    intro x
    rw [h.recorded]
    by_cases hx : a.target = x
    · rw [← hx, hrank, if_neg hnew, ite_self]
    · simp only [Extended.mem_targets, hx, or_false]
  have hhidden' : ∀ d, s.classAt? d = some Shape.noClass ↔ plan.Hidden (done ++ [a]) d :=
    fun d => (h.hidden_iff d).trans (hhidden d).symm
  have hknown : plan.Known (done ++ [a]) = plan.Known done := by
    funext d
    exact propext ((known_of_recorded hrecorded hhidden' d).symm.trans (h.known_iff d))
  have hlinked : plan.Linked (done ++ [a]) = plan.Linked done := by
    funext d e
    simp [Plan.Linked, hknown, or_and_right, exists_or, hderivation, Derivation.groups]
  refine ⟨hrecorded, h.closed.append hsources, hhidden', fun d e => ?_⟩
  rw [h.same_iff, Plan.Equal, Plan.Equal, hknown, hlinked]

end Store

end DimEquiv
