import DimEquiv.Derivation
import DimEquiv.Proofs.Denotation
import DimEquiv.Proofs.SpecialClasses

/-!
# Inference follows derivations

A derivation tells which dimensions become of one class and where the classes of the result come
from. This is all that applying a rule does to the classes, whichever ids it hands out on the way.
-/

namespace DimEquiv

open Relation

namespace Store

variable {s t : Store} {groups : List (List Dimension)}

theorem classAt?_of_find? {x : Var} {shape : Shape} (h : s.shapes.find? x = some shape) (i : Nat) :
    s.classAt? ⟨x, i⟩ = shape[i]? := by
  rw [classAt?, h, Option.bind_some]

theorem classAt?_congr (h : t.shapes = s.shapes) (d : Dimension) : t.classAt? d = s.classAt? d := by
  rw [classAt?, classAt?, h]

theorem known?_eq_of_classAt?_eq {d e : Dimension} (h : s.classAt? d = t.classAt? e) :
    s.known? d = t.known? e := by
  rw [known?, known?, h]

theorem Reserved.usable_classAt? (hs : s.Reserved) {d : Dimension} {c : Int}
    (h : s.classAt? d = some c) : s.Usable c := by
  obtain ⟨shape, hshape, hc⟩ := Option.bind_eq_some_iff.mp h
  exact hs.recorded d.array shape hshape c (List.mem_of_getElem? hc)

theorem Reserved.classAt?_lt (hs : s.Reserved) {d : Dimension} {c : Int}
    (h : s.classAt? d = some c) : c < s.nextClass := by
  rcases hs.usable_classAt? h with rfl | hproper
  · exact hs.bounded.noClass_lt
  · exact hproper.2

/-- Known dimensions that are listed together have these classes. -/
def TogetherClasses (s : Store) (groups : List (List Dimension)) (c d : Int) : Prop :=
  ∃ x y, s.Together groups x y ∧ s.known? x = some c ∧ s.known? y = some d

/-- The known dimensions of each group have come to be of one class in `t`, together with those that
were of one class with them, and all other classes stay apart. -/
structure Joined (s t : Store) (groups : List (List Dimension)) : Prop where
  rank_eq : ∀ x, (t.shapes.find? x).map List.length = (s.shapes.find? x).map List.length
  unknown_iff : ∀ d, t.classAt? d = some Shape.noClass ↔ s.classAt? d = some Shape.noClass
  same_iff : ∀ d e, t.Same d e ↔ (s.known? d).isSome ∧ (s.known? e).isSome ∧
    EqvGen (fun d e => s.Same d e ∨ s.Together groups d e) d e

/-- What is known of classes is known of dimensions. -/
theorem Joined.of_rep (rep : Int → Int)
    (hshapes : ∀ x, t.shapes.find? x = (s.shapes.find? x).map (List.map rep))
    (hunknown : ∀ d c, s.classAt? d = some c → (rep c = Shape.noClass ↔ c = Shape.noClass))
    (hjustified : ∀ x y c d, s.known? x = some c → s.known? y = some d → rep c = rep d →
      EqvGen (s.TogetherClasses groups) c d)
    (hunited : ∀ c d, s.TogetherClasses groups c d → rep c = rep d) : Joined s t groups := by
  have hclass : ∀ d, t.classAt? d = (s.classAt? d).map rep := by
    intro d
    simp only [classAt?, hshapes]
    cases s.shapes.find? d.array <;> simp
  have hknown : ∀ {d c}, s.known? d = some c → t.known? d = some (rep c) := by
    intro d c hd
    obtain ⟨hd, hc⟩ := known?_eq_some_iff.mp hd
    rw [known?_eq_some_iff, hclass, hd]
    exact ⟨rfl, fun h => hc ((hunknown d c hd).mp h)⟩
  have hback : ∀ {d k}, t.known? d = some k → ∃ c, s.known? d = some c ∧ rep c = k := by
    intro d k hd
    obtain ⟨hmap, hk⟩ := known?_eq_some_iff.mp hd
    rw [hclass, Option.map_eq_some_iff] at hmap
    obtain ⟨c, hc, rfl⟩ := hmap
    exact ⟨c, known?_eq_some_iff.mpr ⟨hc, fun h => hk ((hunknown d c hc).mpr h)⟩, rfl⟩
  refine ⟨fun x => ?_, fun d => ?_, fun d e => ⟨?_, ?_⟩⟩
  · rw [hshapes]
    cases s.shapes.find? x <;> simp
  · rw [hclass, Option.map_eq_some_iff]
    constructor
    · rintro ⟨c, hd, hc⟩
      rw [hd, (hunknown d c hd).mp hc]
    · intro hd
      exact ⟨_, hd, (hunknown d _ hd).mpr rfl⟩
  · rintro ⟨k, hdk, hek⟩
    obtain ⟨c, hd, rfl⟩ := hback hdk
    obtain ⟨c', he, hrep⟩ := hback hek
    refine ⟨Option.isSome_of_eq_some hd, Option.isSome_of_eq_some he, ?_⟩
    have hsame : ∀ x y c, s.known? x = some c → s.known? y = some c →
        EqvGen (fun d e => s.Same d e ∨ s.Together groups d e) x y :=
      fun x y c hx hy => .rel x y (.inl ⟨c, hx, hy⟩)
    have htogether : ∀ a b, s.TogetherClasses groups a b → ∃ x y, s.known? x = some a ∧
        s.known? y = some b ∧ EqvGen (fun d e => s.Same d e ∨ s.Together groups d e) x y := by
      rintro a b ⟨x, y, hxy, hx, hy⟩
      exact ⟨x, y, hx, hy, .rel x y (.inr hxy)⟩
    have hlift := eqvGen_lift hsame htogether (hjustified d e c c' hd he hrep.symm)
    rcases hlift with rfl | ⟨x, y, hx, hy, hxy⟩
    · exact hsame d e c hd he
    · exact .trans _ _ _ (hsame d x c hd hx) (.trans _ _ _ hxy (hsame y e c' hy he))
  · rintro ⟨hd, -, hde⟩
    have heq : t.known? d = t.known? e := by
      refine map_eq_of_eqvGen (fun x y hxy => ?_) hde
      rcases hxy with ⟨c, hx, hy⟩ | htogether
      · rw [hknown hx, hknown hy]
      · obtain ⟨c, hx⟩ := Option.isSome_iff_exists.mp htogether.1
        obtain ⟨c', hy⟩ := Option.isSome_iff_exists.mp htogether.2.1
        rw [hknown hx, hknown hy, hunited c c' ⟨x, y, htogether, hx, hy⟩]
    obtain ⟨c, hc⟩ := Option.isSome_iff_exists.mp hd
    exact ⟨rep c, hknown hc, heq ▸ hknown hc⟩

/-- Where no two dimensions are listed together, the recorded shapes stay. -/
theorem Joined.of_shapes_eq (hshapes : t.shapes = s.shapes)
    (halone : ∀ group ∈ groups, ∀ d ∈ group, ∀ e ∈ group, d = e) : Joined s t groups := by
  refine .of_rep id (by simp [hshapes]) (fun _ _ _ => Iff.rfl) ?_ ?_
  · rintro x y c d - - rfl
    exact .refl _
  · rintro c d ⟨x, y, ⟨-, -, group, hgroup, hx, hy⟩, hc, hd⟩
    rw [halone group hgroup x hx y hy, hd] at hc
    exact (Option.some.inj hc).symm

/-- The shape `shape`, found in `t`, derives its dimensions from `dims` in `s`. -/
structure Derived (s t : Store) (shape : Shape) (dims joined : List (List Dimension)) : Prop
    extends Joined s t (dims ++ joined) where
  length_eq : shape.length = dims.length
  unknown_iff_of_listed : ∀ (i : Nat) (listed : List Dimension), dims[i]? = some listed →
    (shape[i]? = some Shape.noClass ↔ ∃ d ∈ listed, s.classAt? d = some Shape.noClass)
  class_of_listed : ∀ (i : Nat) (listed : List Dimension) (c : Int), dims[i]? = some listed →
    shape[i]? = some c → c ≠ Shape.noClass → ∀ d ∈ listed, t.classAt? d = some c
  new_of_none : ∀ (i : Nat) c, dims[i]? = some [] → shape[i]? = some c →
    (∀ d, t.classAt? d ≠ some c) ∧ ∀ j : Nat, shape[j]? = some c → j = i

/-- New classes are derived from nothing. -/
theorem derived_addClasses (hs : s.Reserved) (sizes : List (Option SizeValue)) :
    Derived s (addClasses sizes s).2 (addClasses sizes s).1 (List.replicate sizes.length []) [] := by
  have hnil : ∀ {i : Nat} {listed : List Dimension},
      (List.replicate sizes.length ([] : List Dimension))[i]? = some listed → listed = [] :=
    fun h => List.eq_of_mem_replicate (List.mem_of_getElem? h)
  have hnew : ∀ {i : Nat} {c : Int}, (addClasses sizes s).1[i]? = some c → c = s.nextClass + i := by
    intro i c hc
    rw [getElem?_addClasses] at hc
    split at hc
    · exact (Option.some.inj hc).symm
    · cases hc
  have hpos := hs.next_pos
  refine ⟨.of_shapes_eq (shapes_addClasses sizes s) ?_, ?_, ?_, ?_, ?_⟩
  · intro group hgroup d hd
    rw [List.append_nil] at hgroup
    rw [List.eq_of_mem_replicate hgroup] at hd
    cases hd
  · rw [length_addClasses, List.length_replicate]
  · intro i listed hlisted
    rw [hnil hlisted]
    refine iff_of_false (fun h => ?_) (by simp)
    have hid : (-1 : Int) = s.nextClass + i := hnew h
    omega
  · intro i listed c hlisted hc hknown d hd
    rw [hnil hlisted] at hd
    cases hd
  · intro i c _ hc
    refine ⟨fun d hd => ?_, fun j hj => ?_⟩
    · rw [classAt?_congr (shapes_addClasses sizes s)] at hd
      have hid := hnew hc
      rcases hs.usable_classAt? hd with hunknown | hproper
      · have : c = -1 := hunknown
        omega
      · have := hproper.2
        omega
    · have hid := hnew hc
      have hid' := hnew hj
      omega

/-- A shape whose classes are those of single dimensions. -/
theorem Derived.of_copies {sources : List Dimension} {joined : List (List Dimension)}
    {shape : Shape} (h : Joined s t (sources.map (fun d => [d]) ++ joined))
    (hcopied : List.Forall₂ (fun d c => t.classAt? d = some c) sources shape) :
    Derived s t shape (sources.map fun d => [d]) joined := by
  have hsource : ∀ {i : Nat} {listed : List Dimension}, (sources.map fun d => [d])[i]? = some listed →
      ∃ d c, listed = [d] ∧ shape[i]? = some c ∧ t.classAt? d = some c := by
    intro i listed hlisted
    rw [List.getElem?_map, Option.map_eq_some_iff] at hlisted
    obtain ⟨d, hd, rfl⟩ := hlisted
    obtain ⟨c, hc, hclass⟩ := exists_getElem?_of_forall₂ hcopied hd
    exact ⟨d, c, rfl, hc, hclass⟩
  refine ⟨h, ?_, ?_, ?_, ?_⟩
  · rw [List.length_map, hcopied.length_eq]
  · intro i listed hlisted
    obtain ⟨d, c, rfl, hc, hclass⟩ := hsource hlisted
    rw [hc, ← hclass, h.unknown_iff]
    simp
  · intro i listed c hlisted hc hknown e he
    obtain ⟨d, c', rfl, hc', hclass⟩ := hsource hlisted
    rw [List.mem_singleton.mp he, hclass, ← hc', hc]
  · intro i c hnone
    obtain ⟨d, c', hd, -⟩ := hsource hnone
    cases hd

theorem forall₂_dimensionsOf {x : Var} {shape : Shape} (h : s.shapes.find? x = some shape) :
    List.Forall₂ (fun d c => s.classAt? d = some c) (dimensionsOf x shape.length) shape := by
  rw [List.forall₂_iff_get]
  refine ⟨by simp [dimensionsOf], fun i hi hi' => ?_⟩
  simp only [dimensionsOf, List.get_eq_getElem, List.getElem_map, List.getElem_range]
  rw [classAt?_of_find? h]
  exact List.getElem?_eq_getElem hi'

/-- Where nothing is united, single dimensions can be copied. -/
theorem Derived.of_unchanged {sources : List Dimension} {shape : Shape}
    (hcopied : List.Forall₂ (fun d c => s.classAt? d = some c) sources shape) :
    Derived s s shape (sources.map fun d => [d]) [] := by
  refine .of_copies (.of_shapes_eq rfl fun group hgroup d hd e he => ?_) hcopied
  rw [List.append_nil] at hgroup
  obtain ⟨f, -, rfl⟩ := List.mem_map.mp hgroup
  rw [List.mem_singleton.mp hd, List.mem_singleton.mp he]

/-- What applying a rule does, told by its derivation. -/
inductive Followed (s : Store) : Derivation → Except ShapeError Shape → Store → Prop
  | failure {e : ShapeError} {t : Store} (h : e.isFatal = true) : Followed s .failure (.error e) t
  | unknown {cause : Unsupported} {t : Store} (h : Joined s t []) :
    Followed s .unknown (.error (.unsupported cause)) t
  | shape {shape : Shape} {dims joined : List (List Dimension)} {t : Store}
    (h : Derived s t shape dims joined) : Followed s (.shape dims joined) (.ok shape) t

end Store

/-! ### Broadcasts -/

namespace Broadcast

open Store

variable {isArray : Var → Bool} {operands : List Var} {s : Store} {rank? : Var → Option Nat}

theorem mem_alignedDimensions {rank i : Nat} {arrays : List Var} {d : Dimension} :
    d ∈ alignedDimensions rank? rank i arrays ↔
      ∃ x ∈ arrays, rank ≤ i + (rank? x).getD 0 ∧ d = ⟨x, i + (rank? x).getD 0 - rank⟩ := by
  simp only [alignedDimensions, List.mem_flatMap]
  refine exists_congr fun x => and_congr_right fun _ => ?_
  split
  · rename_i hle
    simp [hle]
  · rename_i hle
    simp [hle]

theorem getD_rank (hrank : ∀ x ∈ operands.filter isArray,
    rank? x = (s.shapes.find? x).map List.length) {x : Var} (hx : x ∈ operands.filter isArray) :
    (rank? x).getD 0 = ((s.shapes.find? x).getD []).length := by
  rw [hrank x hx]
  cases s.shapes.find? x <;> rfl

theorem largestRank_eq (hrank : ∀ x ∈ operands.filter isArray,
    rank? x = (s.shapes.find? x).map List.length) :
    largestRank rank? (operands.filter isArray) = operandRank isArray operands s := by
  rw [largestRank, operandRank, maxRank, List.map_map]
  exact congrArg (List.foldl max 0) (List.map_congr_left fun x hx => getD_rank hrank hx)

/-- The classes that the operands show in a dimension are those of the aligned dimensions. -/
theorem exists_operandClass_iff (hrank : ∀ x ∈ operands.filter isArray,
    rank? x = (s.shapes.find? x).map List.length) {i : Nat} {c : Int} (hone : c ≠ Shape.sizeOne) :
    (∃ x ∈ operands, operandClass isArray (operandRank isArray operands s) i s x = c) ↔
      ∃ d ∈ alignedDimensions rank? (operandRank isArray operands s) i (operands.filter isArray),
        s.classAt? d = some c := by
  constructor
  · rintro ⟨x, hx, hclass⟩
    obtain ⟨harray, shape, j, hshape, hj, hi⟩ := exists_of_operandClass hclass hone
    have hle := length_le_operandRank hx harray hshape
    have hfilter : x ∈ operands.filter isArray := List.mem_filter.mpr ⟨hx, harray⟩
    have hlen := getD_rank hrank hfilter
    rw [hshape, Option.getD_some] at hlen
    refine ⟨⟨x, j⟩, mem_alignedDimensions.mpr ⟨x, hfilter, by omega, ?_⟩, ?_⟩
    · rw [hlen]
      exact congrArg _ (by omega)
    · rw [classAt?_of_find? hshape, hj]
  · rintro ⟨d, hd, hclass⟩
    obtain ⟨x, hx, hle, rfl⟩ := mem_alignedDimensions.mp hd
    obtain ⟨shape, hshape, hc⟩ := Option.bind_eq_some_iff.mp hclass
    have hlen := getD_rank hrank hx
    rw [hshape, Option.getD_some] at hlen
    rw [hlen] at hle hc
    obtain ⟨hmem, harray⟩ := List.mem_filter.mp hx
    refine ⟨x, hmem, ?_⟩
    rw [operandClass, if_pos harray, hshape, Option.getD_some, Shape.padLeading,
      List.getElem?_append_right (by rw [List.length_replicate]; omega), List.length_replicate]
    have hindex : i - (operandRank isArray operands s - shape.length) =
        i + shape.length - operandRank isArray operands s := by
      have hfits := length_le_operandRank hmem harray hshape
      omega
    rw [hindex, hc, Option.getD_some]

theorem exists_classAt?_of_aligned (hrank : ∀ x ∈ operands.filter isArray,
    rank? x = (s.shapes.find? x).map List.length)
    (hrec : ∀ x ∈ operands, isArray x = true → s.has x = true)
    {rank i : Nat} (hi : i < rank) {d : Dimension}
    (hd : d ∈ alignedDimensions rank? rank i (operands.filter isArray)) :
    ∃ c, s.classAt? d = some c := by
  obtain ⟨x, hx, hle, rfl⟩ := mem_alignedDimensions.mp hd
  obtain ⟨hmem, harray⟩ := List.mem_filter.mp hx
  obtain ⟨shape, hshape⟩ := (has_iff s x).mp (hrec x hmem harray)
  have hn := getD_rank hrank hx
  rw [hshape, Option.getD_some] at hn
  rw [classAt?_of_find? hshape]
  exact ⟨_, List.getElem?_eq_getElem (by omega)⟩

/-- The longest array has a dimension in every place. -/
theorem alignedDimensions_ne_nil (hrank : ∀ x ∈ operands.filter isArray,
    rank? x = (s.shapes.find? x).map List.length) (harr : ∃ x ∈ operands, isArray x = true)
    (hrec : ∀ x ∈ operands, isArray x = true → s.has x = true) (i : Nat) :
    alignedDimensions rank? (largestRank rank? (operands.filter isArray)) i
      (operands.filter isArray) ≠ [] := by
  obtain ⟨x, hx, harray, shape, hshape, hlong⟩ := exists_length_eq_operandRank harr hrec
  have hfilter : x ∈ operands.filter isArray := List.mem_filter.mpr ⟨hx, harray⟩
  have hn := getD_rank hrank hfilter
  rw [hshape, Option.getD_some, hlong, ← largestRank_eq hrank] at hn
  exact List.ne_nil_of_mem (mem_alignedDimensions.mpr ⟨x, hfilter, by omega, rfl⟩)

end Broadcast

namespace Store

open Broadcast

variable {isArray : Var → Bool} {operands : List Var} {s t : Store} {rank? : Var → Option Nat}

theorem getElem?_alignment {arrays : List Var} {i : Nat} {listed : List Dimension} :
    (alignment rank? arrays)[i]? = some listed ↔ i < largestRank rank? arrays ∧
      listed = alignedDimensions rank? (largestRank rank? arrays) i arrays := by
  rw [alignment, List.getElem?_map, Option.map_eq_some_iff]
  constructor
  · rintro ⟨j, hj, rfl⟩
    obtain ⟨hi, rfl⟩ := List.getElem?_eq_some_iff.mp hj
    rw [List.getElem_range]
    exact ⟨by simpa using hi, rfl⟩
  · rintro ⟨hi, rfl⟩
    exact ⟨i, List.getElem?_range hi, rfl⟩

section

variable (hs : s.Reserved)
  (hrank : ∀ x ∈ operands.filter isArray, rank? x = (s.shapes.find? x).map List.length)

include hs hrank

theorem carried_iff {i : Nat} {c : Int} :
    Carried isArray operands (operandRank isArray operands s) s i c ↔ ∃ d ∈
      alignedDimensions rank? (largestRank rank? (operands.filter isArray)) i
        (operands.filter isArray), s.known? d = some c := by
  rw [largestRank_eq hrank]
  constructor
  · rintro ⟨hknown, hone, hoperand⟩
    obtain ⟨d, hd, hclass⟩ := (exists_operandClass_iff hrank hone).mp hoperand
    exact ⟨d, hd, known?_eq_some_iff.mpr ⟨hclass, hknown⟩⟩
  · rintro ⟨d, hd, hc⟩
    obtain ⟨hclass, hknown⟩ := known?_eq_some_iff.mp hc
    have hone : c ≠ Shape.sizeOne := Int.ne_of_gt ((hs.usable_classAt? hclass).proper hknown).1
    exact ⟨hknown, hone, (exists_operandClass_iff hrank hone).mpr ⟨d, hd, hclass⟩⟩

/-- Aligned classes are those of dimensions that are listed together. -/
theorem aligned_iff {c d : Int} :
    Aligned isArray operands (operandRank isArray operands s) s c d ↔
      s.TogetherClasses (alignment rank? (operands.filter isArray)) c d := by
  constructor
  · rintro ⟨i, hi, hc, hd⟩
    rw [carried_iff hs hrank] at hc hd
    obtain ⟨x, hx, hc⟩ := hc
    obtain ⟨y, hy, hd⟩ := hd
    rw [← largestRank_eq hrank] at hi
    refine ⟨x, y, ⟨Option.isSome_of_eq_some hc, Option.isSome_of_eq_some hd, _, ?_, hx, hy⟩, hc, hd⟩
    exact List.mem_of_getElem? (getElem?_alignment.mpr ⟨hi, rfl⟩)
  · rintro ⟨x, y, ⟨-, -, group, hgroup, hx, hy⟩, hc, hd⟩
    obtain ⟨i, hi⟩ := List.mem_iff_getElem?.mp hgroup
    obtain ⟨hlt, rfl⟩ := getElem?_alignment.mp hi
    refine ⟨i, largestRank_eq hrank ▸ hlt, ?_, ?_⟩
    · exact (carried_iff hs hrank).mpr ⟨x, hx, hc⟩
    · exact (carried_iff hs hrank).mpr ⟨y, hy, hd⟩

theorem joined_broadcastAll : Joined s (broadcastAll isArray operands s).store
    (alignment rank? (operands.filter isArray)) := by
  obtain ⟨rep, base, hlen, h⟩ := exists_progress_broadcastAll isArray operands hs.bounded
  refine .of_rep rep h.collapse.find?_shapes ?_ ?_ ?_
  · intro d c hd
    exact h.rep_eq_special_iff hs.bounded (.inl rfl) (hs.classAt?_lt hd)
  · intro x y c d hx hy hcd
    rw [known?_eq_some_iff] at hx hy
    have hjustified := h.justified c (hs.classAt?_lt hx.1) d (hs.classAt?_lt hy.1) hcd
    exact EqvGen.mono (fun _ _ => (aligned_iff hs hrank).mp) _ _ hjustified
  · intro c d hcd
    obtain ⟨i, hi, hc, hd⟩ := (aligned_iff hs hrank).mpr hcd
    exact h.united i (hlen ▸ hi) c d hc hd

/-- The result is unknown where an aligned dimension is. -/
theorem done_unknown_iff {i : Nat} (hi : i < largestRank rank? (operands.filter isArray)) :
    (broadcastAll isArray operands s).done[i]? = some Shape.noClass ↔
      ∃ d ∈ alignedDimensions rank? (largestRank rank? (operands.filter isArray)) i
        (operands.filter isArray), s.classAt? d = some Shape.noClass := by
  obtain ⟨rep, base, hlen, h⟩ := exists_progress_broadcastAll isArray operands hs.bounded
  have heffect := h.effect hlen hs.bounded
  rw [largestRank_eq hrank] at hi ⊢
  rw [← exists_operandClass_iff hrank (by decide)]
  refine ⟨fun hout => ?_, heffect.out_of_unknown i hi⟩
  by_contra hnone
  by_cases hcarried : ∃ c, Carried isArray operands (operandRank isArray operands s) s i c
  · obtain ⟨c, hc⟩ := hcarried
    rw [heffect.out_of_carried i hi hnone c hc, Option.some.injEq,
      h.rep_eq_special_iff hs.bounded (.inl rfl) (hc.lt hs.bounded)] at hout
    exact hc.1 hout
  · rw [heffect.out_of_none i hi hnone (not_exists.mp hcarried)] at hout
    exact absurd hout (by decide)

/-- The result shows the class that an aligned dimension has come to have. -/
theorem classAt?_eq_done {i : Nat} (hi : i < largestRank rank? (operands.filter isArray))
    (hseen : (broadcastAll isArray operands s).done[i]? ≠ some Shape.noClass) {d : Dimension}
    (hd : d ∈ alignedDimensions rank? (largestRank rank? (operands.filter isArray)) i
      (operands.filter isArray)) {c : Int} (hc : s.classAt? d = some c) :
    (broadcastAll isArray operands s).store.classAt? d =
      (broadcastAll isArray operands s).done[i]? := by
  have hnone := mt (done_unknown_iff hs hrank hi).mpr hseen
  have hcarried : Carried isArray operands (operandRank isArray operands s) s i c := by
    refine (carried_iff hs hrank).mpr ⟨d, hd, known?_eq_some_iff.mpr ⟨hc, ?_⟩⟩
    rintro rfl
    exact hnone ⟨d, hd, hc⟩
  obtain ⟨rep, base, hlen, h⟩ := exists_progress_broadcastAll isArray operands hs.bounded
  rw [largestRank_eq hrank, ← exists_operandClass_iff hrank (by decide)] at hnone
  rw [(h.effect hlen hs.bounded).out_of_carried i (largestRank_eq hrank ▸ hi) hnone c hcarried]
  obtain ⟨shape, hshape, hget⟩ := Option.bind_eq_some_iff.mp hc
  simp [classAt?, h.collapse.find?_shapes, hshape, hget]

theorem derived_broadcastAll (harr : ∃ x ∈ operands, isArray x = true)
    (hrec : ∀ x ∈ operands, isArray x = true → s.has x = true) :
    Derived s (broadcastAll isArray operands s).store (broadcastAll isArray operands s).done
      (alignment rank? (operands.filter isArray)) [] := by
  refine ⟨?_, ?_, ?_, ?_, ?_⟩
  · rw [List.append_nil]
    exact joined_broadcastAll hs hrank
  · obtain ⟨rep, base, hlen, h⟩ := exists_progress_broadcastAll isArray operands hs.bounded
    rw [(h.effect hlen hs.bounded).length_out, alignment, List.length_map, List.length_range,
      largestRank_eq hrank]
  · intro i listed hlisted
    obtain ⟨hi, rfl⟩ := getElem?_alignment.mp hlisted
    exact done_unknown_iff hs hrank hi
  · intro i listed c hlisted hc hknown d hd
    obtain ⟨hi, rfl⟩ := getElem?_alignment.mp hlisted
    obtain ⟨e, he⟩ := exists_classAt?_of_aligned hrank hrec hi hd
    have hseen : (broadcastAll isArray operands s).done[i]? ≠ some Shape.noClass := by
      rw [hc]
      exact fun h => hknown (Option.some.inj h)
    rw [classAt?_eq_done hs hrank hi hseen hd he, hc]
  · intro i c hnone
    obtain ⟨-, hnil⟩ := getElem?_alignment.mp hnone
    exact absurd hnil.symm (alignedDimensions_ne_nil hrank harr hrec i)

end

/-- A broadcast that fails ends the analysis. -/
theorem isFatal_of_broadcast {e : ShapeError} (h : s.broadcast isArray operands = .error e) :
    e.isFatal = true := by
  rcases broadcast_eq_error h with ⟨rfl, -⟩ | ⟨x, -, -, rfl⟩ <;> rfl

/-! ### Matrix products -/

theorem matrixProduct_of_empty (callName : String) {a b : Var} {shape₁ shape₂ : Shape}
    (ha : s.shapes.find? a = some shape₁) (hb : s.shapes.find? b = some shape₂)
    (hempty : shape₁.length = 0 ∨ shape₂.length = 0) :
    s.matrixProduct callName a b = .error (.unsupported (.zeroDimensional callName)) := by
  rw [← lookup_eq_ok_iff] at ha hb
  simp only [matrixProduct, ha, hb, bind, Except.bind]
  split
  · rename_i h₁ h₂
    rcases hempty with hempty | hempty
    · rw [List.length_eq_zero_iff.mp hempty] at h₁
      cases h₁
    · rw [List.length_eq_zero_iff.mp hempty] at h₂
      cases h₂
  · rfl

theorem matrixProduct_of_nonempty (callName : String) {a b : Var} {shape₁ shape₂ : Shape}
    (ha : s.shapes.find? a = some shape₁) (hb : s.shapes.find? b = some shape₂)
    (hlong : ¬ (shape₁.length = 0 ∨ shape₂.length = 0)) :
    ∃ out t, s.matrixProduct callName a b = .ok (out, t) := by
  rw [not_or] at hlong
  have h₁ := List.getLast?_eq_some_getLast (List.ne_nil_of_length_pos (Nat.pos_of_ne_zero hlong.1))
  have h₂ := List.getElem?_eq_getElem (Nat.sub_lt (Nat.pos_of_ne_zero hlong.2) Nat.two_pos)
  obtain ⟨out, hok⟩ := matrixProduct_of_find? callName ha hb h₁ h₂
  exact ⟨out, _, hok⟩

/-- When two classes are contracted, the dimensions that have them are joined. -/
theorem joined_of_contract (hs : s.Reserved) {rep : Int → Int} (h : Collapse s t rep)
    {c₁ c₂ : Int} (hrep : ∀ c < s.nextClass, ∀ d < s.nextClass, (rep c = rep d ↔ c = d ∨
      (c₁ ≠ Shape.noClass ∧ c₂ ≠ Shape.noClass ∧ (c = c₁ ∨ c = c₂) ∧ (d = c₁ ∨ d = c₂))))
    {x y : Dimension} (hx : s.classAt? x = some c₁) (hy : s.classAt? y = some c₂)
    (singles : List Dimension) : Joined s t (singles.map (fun d => [d]) ++ [[x, y]]) := by
  have hunknown := h.rep_noClass_of_contract hs.bounded hrep
  have hshown : ∀ e, (∃ z ∈ [x, y], s.known? z = some e) ↔
      e ≠ Shape.noClass ∧ (e = c₁ ∨ e = c₂) := by
    intro e
    simp only [List.mem_cons, List.not_mem_nil, or_false, exists_eq_or_imp, exists_eq_left,
      known?_eq_some_iff, hx, hy, Option.some.injEq]
    tauto
  refine .of_rep rep h.find?_shapes ?_ ?_ ?_
  · intro d c hd
    refine ⟨fun he => ?_, fun he => he ▸ hunknown⟩
    rw [← hunknown, hrep c (hs.classAt?_lt hd) _ hs.bounded.noClass_lt] at he
    rcases he with he | ⟨hknown₁, hknown₂, -, he | he⟩
    · exact he
    · exact absurd he.symm hknown₁
    · exact absurd he.symm hknown₂
  · intro z w c d hz hw hcd
    rw [known?_eq_some_iff] at hz hw
    rcases (hrep c (hs.classAt?_lt hz.1) d (hs.classAt?_lt hw.1)).mp hcd with
      rfl | ⟨-, -, hc, hd⟩
    · exact .refl c
    · obtain ⟨x', hx', hxc⟩ := (hshown c).mpr ⟨hz.2, hc⟩
      obtain ⟨y', hy', hyd⟩ := (hshown d).mpr ⟨hw.2, hd⟩
      exact .rel c d ⟨x', y', ⟨Option.isSome_of_eq_some hxc, Option.isSome_of_eq_some hyd, _,
        List.mem_append_right _ List.mem_cons_self, hx', hy'⟩, hxc, hyd⟩
  · rintro c d ⟨z, w, ⟨-, -, group, hgroup, hz, hw⟩, hc, hd⟩
    have hlt := hs.classAt?_lt (known?_eq_some_iff.mp hc).1
    have hlt' := hs.classAt?_lt (known?_eq_some_iff.mp hd).1
    rcases List.mem_append.mp hgroup with hsingle | hpair
    · obtain ⟨e, -, rfl⟩ := List.mem_map.mp hsingle
      rw [List.mem_singleton.mp hz, ← List.mem_singleton.mp hw, hd] at hc
      rw [Option.some.inj hc]
    · rw [List.mem_singleton.mp hpair] at hz hw
      obtain ⟨hknown, hc'⟩ := (hshown c).mp ⟨z, hz, hc⟩
      obtain ⟨hknown', hd'⟩ := (hshown d).mp ⟨w, hw, hd⟩
      rw [hrep c hlt d hlt']
      rcases hc' with rfl | rfl <;> rcases hd' with rfl | rfl <;> simp_all

/-- Whatever classes have become one, a product is made of the dimensions that its operands keep. -/
theorem Collapse.forall₂_productShape {rep : Int → Int} (h : Collapse s t rep) {a b : Var}
    {shape₁ shape₂ : Shape} (ha : s.shapes.find? a = some shape₁)
    (hb : s.shapes.find? b = some shape₂) :
    List.Forall₂ (fun d c => t.classAt? d = some c)
      ((dimensionsOf a shape₁.length).dropLast ++
        (dimensionsOf b shape₂.length).eraseIdx (shape₂.length - 2))
      (productShape (shape₁.map rep) (shape₂.map rep)) := by
  have ha' : t.shapes.find? a = some (shape₁.map rep) := by
    rw [h.find?_shapes, ha, Option.map_some]
  have hb' : t.shapes.find? b = some (shape₂.map rep) := by
    rw [h.find?_shapes, hb, Option.map_some]
  have hcopied₁ := forall₂_dimensionsOf ha'
  have hcopied₂ := forall₂_dimensionsOf hb'
  rw [List.length_map] at hcopied₁ hcopied₂
  rw [productShape, contractedIndex_map]
  exact List.rel_append (forall₂_dropLast hcopied₁) (forall₂_eraseIdx hcopied₂ _)

/-- A matrix product makes one of the two dimensions that it contracts, and copies the others. -/
theorem derived_matrixProduct (hs : s.Reserved) {callName : String} {a b : Var} {out : Shape}
    {shape₁ shape₂ : Shape} (ha : s.shapes.find? a = some shape₁)
    (hb : s.shapes.find? b = some shape₂) (h : s.matrixProduct callName a b = .ok (out, t)) :
    Derived s t out
      (((dimensionsOf a shape₁.length).dropLast ++
        (dimensionsOf b shape₂.length).eraseIdx (shape₂.length - 2)).map fun d => [d])
      [[⟨a, shape₁.length - 1⟩, ⟨b, shape₂.length - 2⟩]] := by
  obtain ⟨shape₁', shape₂', c₁, c₂, rep, ha', hb', h₁, h₂, hcollapse, rfl, hrep⟩ :=
    matrixProduct_effect hs.bounded h
  obtain rfl := Option.some.inj (ha.symm.trans ha')
  obtain rfl := Option.some.inj (hb.symm.trans hb')
  have hclass₁ : s.classAt? ⟨a, shape₁.length - 1⟩ = some c₁ := by
    rw [classAt?_of_find? ha, ← List.getLast?_eq_getElem?, h₁]
  have hclass₂ : s.classAt? ⟨b, shape₂.length - 2⟩ = some c₂ := by
    rw [classAt?_of_find? hb]
    exact h₂
  exact .of_copies (joined_of_contract hs hcollapse hrep hclass₁ hclass₂ _)
    (hcollapse.forall₂_productShape ha hb)

end Store

/-! ### Every rule -/

namespace ShapeRule

open Store

variable {isArray : Var → Bool} {rank? : Var → Option Nat} {s : Store}

theorem followed_elementwise (hs : s.Reserved) (operands : List Var)
    (hranks : ∀ x ∈ operands.filter isArray, rank? x = (s.shapes.find? x).map List.length) :
    s.Followed ((elementwise operands).derive isArray rank?)
      (((elementwise operands).apply isArray).run s).1
      (((elementwise operands).apply isArray).run s).2 := by
  have hhas : ∀ x ∈ operands, isArray x = true → (s.has x = true ↔ (rank? x).isSome = true) := by
    intro x hx harray
    rw [hranks x (List.mem_filter.mpr ⟨hx, harray⟩), Option.isSome_map]
    rfl
  rw [apply, Attempt.run_ofExcept]
  cases h : s.broadcast isArray operands with
  | ok r =>
    obtain ⟨harr, hrec, rfl⟩ := broadcast_eq_ok_iff.mp h
    rw [derive, if_pos ⟨harr, fun x hx harray => (hhas x hx harray).mp (hrec x hx harray)⟩]
    exact .shape (derived_broadcastAll hs hranks harr hrec)
  | error e =>
    rw [derive, if_neg]
    · exact .failure (isFatal_of_broadcast h)
    · rintro ⟨harr, hrec⟩
      have hok := broadcast_eq_ok_iff.mpr
        ⟨harr, fun x hx harray => (hhas x hx harray).mpr (hrec x hx harray), rfl⟩
      rw [h] at hok
      cases hok

theorem followed_product (hs : s.Reserved) (callName : String) (a b : Var)
    (ha : rank? a = (s.shapes.find? a).map List.length)
    (hb : rank? b = (s.shapes.find? b).map List.length) :
    s.Followed ((product callName a b).derive isArray rank?)
      (((product callName a b).apply isArray).run s).1
      (((product callName a b).apply isArray).run s).2 := by
  rw [apply, Attempt.run_ofExcept, derive, ha, hb]
  cases hfa : s.shapes.find? a with
  | none =>
    have hfail : s.matrixProduct callName a b = .error (.unknownVariable a) := by
      simp [matrixProduct, lookup, hfa, bind, Except.bind]
    rw [hfail]
    exact .failure rfl
  | some shape₁ =>
    cases hfb : s.shapes.find? b with
    | none =>
      have hfail : s.matrixProduct callName a b = .error (.unknownVariable b) := by
        simp [matrixProduct, lookup, hfa, hfb, bind, Except.bind]
      rw [hfail]
      exact .failure rfl
    | some shape₂ =>
      by_cases hempty : shape₁.length = 0 ∨ shape₂.length = 0
      · simp only [matrixProduct_of_empty callName hfa hfb hempty, Option.map_some, if_pos hempty]
        exact .unknown (.of_shapes_eq rfl (by simp))
      · obtain ⟨out, t, hok⟩ := matrixProduct_of_nonempty callName hfa hfb hempty
        simp only [hok, Option.map_some, if_neg hempty]
        exact .shape (derived_matrixProduct hs hfa hfb hok)

/-- Applying a rule does what its derivation tells, if the derivation knows the numbers of dimensions
of what the rule reads. -/
theorem followed (hs : s.Reserved) (rule : ShapeRule)
    (hranks : ∀ x ∈ rule.reads isArray, rank? x = (s.shapes.find? x).map List.length)
    (hnew : ∀ name rank, rule = parameter name rank → s.shapes.find? name = none) :
    s.Followed (rule.derive isArray rank?) ((rule.apply isArray).run s).1
      ((rule.apply isArray).run s).2 := by
  cases rule with
  | fail made e =>
    rw [derive]
    cases hfatal : e.isFatal with
    | true => exact .failure hfatal
    | false =>
      obtain ⟨cause, rfl⟩ := e.isFatal_eq_false_iff.mp hfatal
      exact .unknown (.of_shapes_eq (shapes_addClasses made s) (by simp))
  | parameter name rank =>
    have hnone : s.has name = false := by
      rw [has, Table.contains, hnew name rank rfl]
      rfl
    have hrun : ((parameter name rank).apply isArray).run s =
        (Infer.newClasses (List.replicate rank none)).run s := by
      simp [apply, Attempt.run_bind, hnone]
    have hderived := derived_addClasses hs (List.replicate rank none)
    rw [List.length_replicate] at hderived
    rw [hrun]
    exact .shape hderived
  | copy x =>
    have hx := hranks x List.mem_cons_self
    simp only [apply, Infer.shapeOf, Attempt.run_ofReader, derive, hx, lookup]
    cases hfind : s.shapes.find? x with
    | none => exact .failure rfl
    | some shape => exact .shape (.of_unchanged (forall₂_dimensionsOf hfind))
  | reverse x =>
    have hx := hranks x List.mem_cons_self
    rw [run_apply_reverse]
    simp only [derive, hx, lookup]
    cases hfind : s.shapes.find? x with
    | none => exact .failure rfl
    | some shape => exact .shape (.of_unchanged (List.rel_reverse (forall₂_dimensionsOf hfind)))
  | create sizes => exact .shape (derived_addClasses hs sizes)
  | elementwise operands => exact followed_elementwise hs operands hranks
  | product callName a b =>
    exact followed_product hs callName a b (hranks a (by simp [reads])) (hranks b (by simp [reads]))

end ShapeRule

end DimEquiv
