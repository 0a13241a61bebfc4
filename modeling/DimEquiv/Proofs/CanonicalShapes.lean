import DimEquiv.Proofs.FirstAppearances
import DimEquiv.Shape.Canonical
import Mathlib.Data.List.Basic

/-!
# The canonical form decides equality up to renaming

Two tables of shapes have one canonical form exactly when they have the same names and a bijection
between their positive classes turns the shapes of the one into those of the other. The number that a
class gets is its place in the order of first appearance. A renaming changes the classes and leaves
their places, and equal numbers at equal places show which class is renamed to which.
-/

namespace DimEquiv

section

variable {α β : Type} [BEq α] [LawfulBEq α] [BEq β] [LawfulBEq β] {f : α → β}

theorem idxOf_map_of_injOn {xs : List α} {a : α} (hf : Set.InjOn f {x | x = a ∨ x ∈ xs}) :
    (xs.map f).idxOf (f a) = xs.idxOf a := by
  induction xs with
  | nil => rfl
  | cons x xs ih =>
    have hiff : f x = f a ↔ x = a := hf.eq_iff (.inr List.mem_cons_self) (.inl rfl)
    have hrest := ih (hf.mono fun y hy => hy.imp_right (List.mem_cons_of_mem x))
    have hsame : (f x == f a) = (x == a) := by
      rw [Bool.eq_iff_iff, beq_iff_eq, beq_iff_eq, hiff]
    rw [List.map_cons, List.idxOf_cons, List.idxOf_cons, hrest, hsame]

end

namespace Shape

/-- The positive classes that occur in a table. -/
def positives (shapes : Table String Shape) : Set Int :=
  {c | 0 < c ∧ ∃ x shape, shapes.find? x = some shape ∧ c ∈ shape}

/-- Renames the positive classes and keeps all other ids. -/
def relabel (f : Int → Int) (c : Int) : Int := if c ≤ sizeOne then c else f c

/-- The renaming `f` turns the shapes of `s` into those of `t`, name by name. -/
structure Relabels (f : Int → Int) (s t : Table String Shape) : Prop where
  names : ∀ x, x ∈ s.keys ↔ x ∈ t.keys
  bijOn : Set.BijOn f (positives s) (positives t)
  shapes : ∀ x shape, s.find? x = some shape → t.find? x = some (shape.map (relabel f))

/-- What stands for a class in the canonical form of a table. -/
def number (shapes : Table String Shape) : Int → Int := renumber (appearance (sorted shapes))

theorem relabel_of_nonpos (f : Int → Int) {c : Int} (h : ¬ 0 < c) : relabel f c = c :=
  if_pos (Int.not_lt.mp h)

theorem relabel_of_pos (f : Int → Int) {c : Int} (h : 0 < c) : relabel f c = f c :=
  if_neg (Int.not_le.mpr h)

variable {s t : Table String Shape} {c d : Int}

theorem mem_keys_iff {x : String} : x ∈ s.keys ↔ ∃ shape, s.find? x = some shape := by
  rw [← Table.contains_iff_mem_keys, Table.contains, Option.isSome_iff_exists]

/-! ### Numbers of classes -/

theorem mem_sorted {x : String} {shape : Shape} :
    (x, shape) ∈ sorted s ↔ s.find? x = some shape := by
  simp only [sorted, List.mem_map, UnitOrder.mem_sort, Prod.mk.injEq]
  constructor
  · rintro ⟨y, hy, rfl, hshape⟩
    obtain ⟨other, hother⟩ := mem_keys_iff.mp hy
    rw [← hshape, hother, Option.getD_some]
  · intro h
    exact ⟨x, mem_keys_iff.mpr ⟨shape, h⟩, rfl, by rw [h, Option.getD_some]⟩

/-- The order of appearance lists the positive classes. -/
theorem mem_appearance_sorted : c ∈ appearance (sorted s) ↔ c ∈ positives s := by
  simp only [appearance, List.mem_eraseDups, List.mem_filter, List.mem_flatMap, decide_eq_true_eq,
    Prod.exists, mem_sorted, positives, Set.mem_ofPred_eq]
  tauto

theorem mem_canonical {x : String} {numbers : Shape} : (x, numbers) ∈ canonical s ↔
    ∃ shape, s.find? x = some shape ∧ numbers = shape.map (number s) := by
  simp only [canonical, List.mem_map, Prod.mk.injEq, Prod.exists, mem_sorted]
  constructor
  · rintro ⟨y, shape, hshape, rfl, rfl⟩
    exact ⟨shape, hshape, rfl⟩
  · rintro ⟨shape, hshape, rfl⟩
    exact ⟨x, shape, hshape, rfl, rfl⟩

theorem number_of_nonpos (h : ¬ 0 < c) : number s c = c := renumber_of_nonpos _ (Int.not_lt.mp h)

theorem number_of_pos (h : 0 < c) : number s c = (appearance (sorted s)).idxOf c + 1 :=
  if_neg (Int.not_le.mpr h)

theorem number_pos_iff : 0 < number s c ↔ 0 < c := renumber_pos_iff _ c

/-- A number stands for one class. -/
theorem eq_of_number_eq (hc : c ∈ positives s) (h : number s c = number s d) : c = d := by
  have hd : 0 < d := by
    rw [← number_pos_iff (s := s), ← h, number_pos_iff]
    exact hc.1
  rw [number_of_pos hc.1, number_of_pos hd] at h
  exact (List.idxOf_inj (mem_appearance_sorted.mpr hc)).mp (by omega)

/-! ### A renaming leaves the canonical form -/

namespace Relabels

variable {f : Int → Int}

theorem sorted_eq (h : Relabels f s t) :
    sorted t = (sorted s).map fun entry => (entry.1, entry.2.map (relabel f)) := by
  have hperm : t.keys.Perm s.keys :=
    (List.perm_ext_iff_of_nodup t.keys_nodup s.keys_nodup).mpr fun x => (h.names x).symm
  rw [sorted, UnitOrder.sort_eq_sort_of_perm hperm, sorted, List.map_map]
  refine List.map_congr_left fun x hx => ?_
  obtain ⟨shape, hshape⟩ := mem_keys_iff.mp ((UnitOrder.mem_sort s.keys x).mp hx)
  rw [Function.comp_apply, h.shapes x shape hshape, hshape, Option.getD_some, Option.getD_some]

/-- Positive ids stay positive and the others stay as they are. -/
theorem filter_map_relabel {cs : List Int} (h : ∀ c ∈ cs, 0 < c → 0 < f c) :
    (cs.map (relabel f)).filter (fun c => 0 < c) = (cs.filter fun c => 0 < c).map f := by
  rw [List.filter_map]
  have hsame : cs.filter ((fun c => decide (0 < c)) ∘ relabel f) = cs.filter fun c => 0 < c := by
    refine List.filter_congr fun c hc => ?_
    rw [Function.comp_apply, decide_eq_decide]
    by_cases hpos : 0 < c
    · rw [relabel_of_pos f hpos]
      exact iff_of_true (h c hc hpos) hpos
    · rw [relabel_of_nonpos f hpos]
  rw [hsame]
  exact List.map_congr_left fun c hc => relabel_of_pos f (of_decide_eq_true (List.mem_filter.mp hc).2)

theorem appearance_sorted_eq (h : Relabels f s t) :
    appearance (sorted t) = (appearance (sorted s)).map f := by
  have hmem : ∀ c ∈ (sorted s).flatMap Prod.snd, 0 < c → c ∈ positives s := by
    intro c hc hpos
    rw [← mem_appearance_sorted, appearance, List.mem_eraseDups, List.mem_filter]
    exact ⟨hc, decide_eq_true hpos⟩
  have hflat : (sorted t).flatMap Prod.snd = ((sorted s).flatMap Prod.snd).map (relabel f) := by
    rw [h.sorted_eq, List.flatMap_map, List.map_flatMap]
  rw [appearance, hflat, filter_map_relabel fun c hc hpos => (h.bijOn.mapsTo (hmem c hc hpos)).1]
  refine eraseDups_map_of_injOn (h.bijOn.injOn.mono fun c hc => ?_)
  obtain ⟨hc, hpos⟩ := List.mem_filter.mp hc
  exact hmem c hc (of_decide_eq_true hpos)

/-- A class and what it is renamed to have the same number. -/
theorem number_relabel (h : Relabels f s t) (hc : 0 < c → c ∈ positives s) :
    number t (relabel f c) = number s c := by
  by_cases hpos : 0 < c
  · have hin : Set.InjOn f {d | d = c ∨ d ∈ appearance (sorted s)} := by
      refine h.bijOn.injOn.mono ?_
      rintro d (rfl | hd)
      · exact hc hpos
      · exact mem_appearance_sorted.mp hd
    rw [relabel_of_pos f hpos, number_of_pos (h.bijOn.mapsTo (hc hpos)).1, number_of_pos hpos,
      h.appearance_sorted_eq, idxOf_map_of_injOn hin]
  · rw [relabel_of_nonpos f hpos, number_of_nonpos hpos, number_of_nonpos hpos]

theorem canonical_eq (h : Relabels f s t) : canonical s = canonical t := by
  have hcanonical : canonical t = (sorted t).map fun entry => (entry.1, entry.2.map (number t)) := rfl
  rw [hcanonical, h.sorted_eq, List.map_map]
  refine List.map_congr_left fun entry hentry => Prod.ext rfl ?_
  rw [Function.comp_apply, List.map_map]
  refine List.map_congr_left fun c hc => (h.number_relabel fun hpos => ?_).symm
  exact ⟨hpos, entry.1, entry.2, mem_sorted.mp hentry, hc⟩

end Relabels

/-! ### The canonical form tells the renaming -/

/-- The class that stands in the order of `t` where `c` stands in that of `s`. -/
def counterpart (s t : Table String Shape) (c : Int) : Int :=
  (appearance (sorted t))[(appearance (sorted s)).idxOf c]?.getD 0

/-- Equal numbers stand for counterparts. -/
theorem eq_relabel_counterpart (hd : 0 < d → d ∈ positives t) (h : number s c = number t d) :
    d = relabel (counterpart s t) c := by
  have hiff : 0 < d ↔ 0 < c := by rw [← number_pos_iff (s := t), ← h, number_pos_iff]
  by_cases hpos : 0 < c
  · have hdpos := hiff.mpr hpos
    rw [number_of_pos hpos, number_of_pos hdpos] at h
    have hplace : (appearance (sorted s)).idxOf c = (appearance (sorted t)).idxOf d := by omega
    rw [relabel_of_pos _ hpos, counterpart, hplace,
      List.getElem?_idxOf (mem_appearance_sorted.mpr (hd hdpos)), Option.getD_some]
  · rw [number_of_nonpos hpos, number_of_nonpos (mt hiff.mp hpos)] at h
    rw [relabel_of_nonpos _ hpos, h]

theorem eq_map_of_map_eq {α β γ : Type} {g : α → γ} {h : β → γ} {k : α → β} {xs : List α}
    {ys : List β} (heq : xs.map g = ys.map h) (hk : ∀ x ∈ xs, ∀ y ∈ ys, g x = h y → y = k x) :
    ys = xs.map k := by
  induction xs generalizing ys with
  | nil => exact List.map_eq_nil_iff.mp heq.symm
  | cons x xs ih =>
    cases ys with
    | nil => cases heq
    | cons y ys =>
      obtain ⟨hhead, htail⟩ := List.cons.inj heq
      rw [List.map_cons, hk x List.mem_cons_self y List.mem_cons_self hhead,
        ← ih htail fun a ha b hb => hk a (List.mem_cons_of_mem x ha) b (List.mem_cons_of_mem y hb)]

section

variable (h : canonical s = canonical t)

include h

theorem mem_keys_iff_of_canonical_eq (x : String) : x ∈ s.keys ↔ x ∈ t.keys := by
  rw [← UnitOrder.mem_sort s.keys, ← map_fst_canonical, h, map_fst_canonical, UnitOrder.mem_sort]

/-- The shapes of one name have equal numbers in equal places. -/
theorem exists_find?_of_canonical_eq {x : String} {shape : Shape} (hshape : s.find? x = some shape) :
    t.find? x = some (shape.map (relabel (counterpart s t))) ∧
      ∀ c ∈ shape, number t (relabel (counterpart s t) c) = number s c := by
  obtain ⟨shape', hshape', heq⟩ := mem_canonical.mp (h ▸ mem_canonical.mpr ⟨shape, hshape, rfl⟩)
  have hmap : shape' = shape.map (relabel (counterpart s t)) :=
    eq_map_of_map_eq heq fun c _ d hd hcd =>
      eq_relabel_counterpart (fun hpos => ⟨hpos, x, shape', hshape', hd⟩) hcd
  subst hmap
  rw [List.map_map, List.map_eq_map_iff] at heq
  exact ⟨hshape', fun c hc => (heq c hc).symm⟩

/-- A class and its counterpart have the same number. -/
theorem counterpart_of_canonical_eq (hc : c ∈ positives s) :
    counterpart s t c ∈ positives t ∧ number t (counterpart s t c) = number s c := by
  obtain ⟨hpos, x, shape, hshape, hmem⟩ := hc
  obtain ⟨hshape', hnumbers⟩ := exists_find?_of_canonical_eq h hshape
  have hnumber := hnumbers c hmem
  rw [relabel_of_pos _ hpos] at hnumber
  have hpos' : 0 < counterpart s t c := by
    rw [← number_pos_iff (s := t), hnumber, number_pos_iff]
    exact hpos
  exact ⟨⟨hpos', x, _, hshape', List.mem_map.mpr ⟨c, hmem, relabel_of_pos _ hpos⟩⟩, hnumber⟩

theorem relabels_of_canonical_eq : Relabels (counterpart s t) s t where
  names := mem_keys_iff_of_canonical_eq h
  bijOn := by
    refine ⟨fun c hc => (counterpart_of_canonical_eq h hc).1, fun c hc d hd hcd => ?_, ?_⟩
    · refine eq_of_number_eq hc ?_
      rw [← (counterpart_of_canonical_eq h hc).2, ← (counterpart_of_canonical_eq h hd).2, hcd]
    · rintro d ⟨hpos, x, shape', hshape', hd⟩
      obtain ⟨shape, hshape⟩ := mem_keys_iff.mp
        ((mem_keys_iff_of_canonical_eq h x).mpr (mem_keys_iff.mpr ⟨shape', hshape'⟩))
      rw [(exists_find?_of_canonical_eq h hshape).1, Option.some.injEq] at hshape'
      subst hshape'
      obtain ⟨c, hc, rfl⟩ := List.mem_map.mp hd
      by_cases hcpos : 0 < c
      · exact ⟨c, ⟨hcpos, x, shape, hshape, hc⟩, (relabel_of_pos _ hcpos).symm⟩
      · rw [relabel_of_nonpos _ hcpos] at hpos
        exact absurd hpos hcpos
  shapes := fun _ _ hshape => (exists_find?_of_canonical_eq h hshape).1

end

/-- Two tables have one canonical form exactly when a renaming of positive classes turns the one into
the other. -/
theorem canonical_eq_iff (s t : Table String Shape) :
    canonical s = canonical t ↔ ∃ f, Relabels f s t :=
  ⟨fun h => ⟨_, relabels_of_canonical_eq h⟩, fun ⟨_, h⟩ => h.canonical_eq⟩

/-- Neither the order of entries nor the choice of ids is seen in the canonical form; the size-one class
and unknown dimensions are. -/
example : canonical (.ofList [("b", [7, 0, 9]), ("a", [9, -1])]) = [("a", [1, -1]), ("b", [2, 0, 1])] := by
  cbv

end Shape

end DimEquiv
