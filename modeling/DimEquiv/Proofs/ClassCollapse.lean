import DimEquiv.Store
import Mathlib.Data.List.Flatten
import Mathlib.Data.List.Nodup
import Mathlib.Logic.Relation

/-!
# Stores in which classes have been united

Unions compose. After any number of them a store differs from the one at the start by a map `rep`
that sends each class to the class it has become, so that two classes have been united exactly when
`rep` sends them to the same id. One union is one step of such a map, and what it does to recorded
shapes and to size values follows from the step alone.
-/

namespace DimEquiv

/-- A map that respects the generators of an equivalence respects the equivalence. -/
theorem map_eq_of_eqvGen {α β : Type} {R : α → α → Prop} {f : α → β}
    (hf : ∀ a b, R a b → f a = f b) {a b : α} (h : Relation.EqvGen R a b) : f a = f b := by
  induction h with
  | rel a b hab => exact hf a b hab
  | refl a => rfl
  | symm a b _ ih => exact ih.symm
  | trans a b c _ _ ih ih' => exact ih.trans ih'

/-- Connected values are shown by connected arguments, unless they are one value. -/
theorem eqvGen_lift {α β : Type} {f : α → Option β} {R : β → β → Prop} {S : α → α → Prop}
    (hS : ∀ x y c, f x = some c → f y = some c → Relation.EqvGen S x y)
    (hR : ∀ c d, R c d → ∃ x y, f x = some c ∧ f y = some d ∧ Relation.EqvGen S x y) {c d : β}
    (h : Relation.EqvGen R c d) :
    c = d ∨ ∃ x y, f x = some c ∧ f y = some d ∧ Relation.EqvGen S x y := by
  induction h with
  | rel c d hcd => exact .inr (hR c d hcd)
  | refl c => exact .inl rfl
  | symm c d _ ih =>
    rcases ih with rfl | ⟨x, y, hx, hy, hxy⟩
    · exact .inl rfl
    · exact .inr ⟨y, x, hy, hx, .symm _ _ hxy⟩
  | trans c d e _ _ ih ih' =>
    rcases ih with rfl | ⟨x, y, hx, hy, hxy⟩
    · exact ih'
    rcases ih' with rfl | ⟨x', y', hx', hy', hxy'⟩
    · exact .inr ⟨x, y, hx, hy, hxy⟩
    · exact .inr ⟨x, y', hx, hy', .trans _ _ _ hxy (.trans _ _ _ (hS y x' d hy hx') hxy')⟩

namespace Store

/-- Every class in use has an id below the next one, and ids are handed out from one on. -/
structure Bounded (s : Store) : Prop where
  next_pos : 0 < s.nextClass
  lt_of_recorded : ∀ x shape, s.shapes.find? x = some shape → ∀ c ∈ shape, c < s.nextClass
  lt_of_sized : ∀ c, c ∈ s.classSizes.keys → c < s.nextClass

theorem bounded_iff (s : Store) : s.Bounded ↔ 0 < s.nextClass ∧
    (∀ entry ∈ s.shapes.toList, ∀ c ∈ entry.2, c < s.nextClass) ∧
      ∀ c ∈ s.classSizes.keys, c < s.nextClass := by
  constructor
  · intro h
    refine ⟨h.next_pos, ?_, h.lt_of_sized⟩
    rintro ⟨x, shape⟩ hx
    exact h.lt_of_recorded x shape ((s.shapes.find?_eq_some_iff x shape).mpr hx)
  · rintro ⟨hpos, hshapes, hsizes⟩
    refine ⟨hpos, ?_, hsizes⟩
    intro x shape hx
    exact hshapes (x, shape) ((s.shapes.find?_eq_some_iff x shape).mp hx)

instance (s : Store) : Decidable s.Bounded := decidable_of_iff _ s.bounded_iff.symm

theorem Bounded.sizeOne_lt {s : Store} (h : s.Bounded) : Shape.sizeOne < s.nextClass := h.next_pos

theorem Bounded.noClass_lt {s : Store} (h : s.Bounded) : Shape.noClass < s.nextClass :=
  Int.lt_trans (by decide) h.next_pos

theorem bounded_empty : empty.Bounded := by decide

theorem find?_classSizes_of_le {s : Store} (h : s.Bounded) {c : Int} (hc : s.nextClass ≤ c) :
    s.classSizes.find? c = none := by
  have hn : c ∉ s.classSizes.keys := fun hm => absurd (h.lt_of_sized c hm) (by omega)
  rw [← Table.contains_iff_mem_keys] at hn
  simpa [Table.contains] using hn

theorem sizesOf_eq_nil_of_le {s : Store} (h : s.Bounded) {c : Int} (hc : s.nextClass ≤ c) :
    s.sizesOf c = [] := by
  simp [sizesOf, find?_classSizes_of_le h hc]

theorem sizesOf_putSizes (s : Store) (c d : Int) (sizes : List SizeValue) :
    (s.putSizes c sizes).sizesOf d = if c = d then sizes else s.sizesOf d := by
  simp only [sizesOf, putSizes, Table.find?_insert]
  split <;> rfl

theorem sizesOf_represent (s : Store) (c d : Int) (size : SizeValue) :
    (s.represent c size).sizesOf d =
      if c ≠ Shape.noClass ∧ c = d then [size] else s.sizesOf d := by
  unfold represent
  by_cases hunknown : c = Shape.noClass
  · simp [hunknown]
  · simp [hunknown, sizesOf_putSizes]

theorem find?_classSizes_unite (s : Store) (c₁ c₂ k : Int) :
    (s.unite c₁ c₂).2.classSizes.find? k =
      if s.nextClass = k then some (s.sizesOf c₁ ++ s.sizesOf c₂)
      else if c₂ = k ∨ c₁ = k then none else s.classSizes.find? k := by
  simp only [Store.unite, allocate, renameClasses, Table.find?_insert, Table.find?_erase]
  grind

/-- The store `t` arises from `s` by uniting classes; `rep c` is the class that `c` has become. -/
structure Collapse (s t : Store) (rep : Int → Int) : Prop where
  shapes : t.shapes = s.shapes.mapValues (List.map rep)
  sizeVars : t.sizeVars = s.sizeVars
  next_le : s.nextClass ≤ t.nextClass
  rep_lt : ∀ c < s.nextClass, rep c < t.nextClass
  /-- A class stays as it is or takes an id that was free. -/
  self_or_new : ∀ c < s.nextClass, rep c = c ∨ s.nextClass ≤ rep c
  /-- A class that was united with no other stays as it is. -/
  self_of_alone : ∀ c < s.nextClass, (∀ d < s.nextClass, rep d = rep c → d = c) → rep c = c
  /-- The size values of united classes are put together. -/
  sizes : ∀ c < s.nextClass, ∃ members : List Int, members.Nodup ∧
    (∀ d, d ∈ members ↔ d < s.nextClass ∧ rep d = rep c) ∧
    (t.sizesOf (rep c)).Perm (members.flatMap s.sizesOf)
  kept : ∀ c < s.nextClass, rep c = c → t.classSizes.find? c = s.classSizes.find? c
  /-- An id that no class has become has no entry. -/
  dropped : ∀ k, (∀ c < s.nextClass, rep c ≠ k) → t.classSizes.find? k = none

namespace Collapse

variable {s t : Store} {rep : Int → Int}

theorem refl (h : s.Bounded) : Collapse s s id where
  shapes := by
    apply Table.ext
    simp
  sizeVars := rfl
  next_le := Int.le_refl _
  rep_lt := fun _ hc => hc
  self_or_new := fun _ _ => .inl rfl
  self_of_alone := fun _ _ _ => rfl
  sizes := fun c hc => by
    refine ⟨[c], by simp, ?_, by simp⟩
    intro d
    simp only [List.mem_singleton, id]
    exact ⟨fun hd => ⟨hd ▸ hc, hd⟩, fun hd => hd.2⟩
  kept := fun _ _ _ => rfl
  dropped := fun k hk => find?_classSizes_of_le h (by
    by_contra hlt
    exact hk k (by omega) rfl)

theorem find?_shapes (h : Collapse s t rep) (x : Var) :
    t.shapes.find? x = (s.shapes.find? x).map (List.map rep) := by
  rw [h.shapes, Table.find?_mapValues]

/-- A class that became another one is nobody's representative. -/
theorem rep_ne_of_ne (h : Collapse s t rep) {c : Int} (hc : c < s.nextClass) (hne : rep c ≠ c)
    {d : Int} (hd : d < s.nextClass) : rep d ≠ c := by
  intro he
  rcases h.self_or_new d hd with hself | hnew
  · exact hne (by rw [← he, hself, hself])
  · omega

theorem bounded (h : Collapse s t rep) (hs : s.Bounded) : t.Bounded where
  next_pos := Int.lt_of_lt_of_le hs.next_pos h.next_le
  lt_of_recorded := by
    intro x shape hx c hc
    rw [h.find?_shapes, Option.map_eq_some_iff] at hx
    obtain ⟨shape, hx, rfl⟩ := hx
    obtain ⟨d, hd, rfl⟩ := List.mem_map.mp hc
    exact h.rep_lt d (hs.lt_of_recorded x shape hx d hd)
  lt_of_sized := by
    intro c hc
    rw [← Table.contains_iff_mem_keys] at hc
    by_contra hlt
    have hnone := h.dropped c (fun d hd he => hlt (he ▸ h.rep_lt d hd))
    simp [Table.contains, hnone] at hc

/-- Every size value of a class comes from a class that has become it. -/
theorem exists_of_mem_sizesOf (h : Collapse s t rep) {k : Int} {size : SizeValue}
    (hsize : size ∈ t.sizesOf k) : ∃ c < s.nextClass, rep c = k ∧ size ∈ s.sizesOf c := by
  by_cases hk : ∃ c < s.nextClass, rep c = k
  · obtain ⟨c, hc, rfl⟩ := hk
    obtain ⟨members, -, hmem, hperm⟩ := h.sizes c hc
    obtain ⟨d, hd, hin⟩ := List.mem_flatMap.mp (hperm.mem_iff.mp hsize)
    exact ⟨d, ((hmem d).mp hd).1, ((hmem d).mp hd).2, hin⟩
  · push Not at hk
    simp [sizesOf, h.dropped k hk] at hsize

/-- No size value of a class is lost when the class becomes another. -/
theorem mem_sizesOf_rep (h : Collapse s t rep) {c : Int} (hc : c < s.nextClass) {size : SizeValue}
    (hsize : size ∈ s.sizesOf c) : size ∈ t.sizesOf (rep c) := by
  obtain ⟨members, -, hmem, hperm⟩ := h.sizes c hc
  exact hperm.mem_iff.mpr (List.mem_flatMap.mpr ⟨c, (hmem c).mpr ⟨hc, rfl⟩, hsize⟩)

/-- The map that follows `rep` by the union of two of its values. -/
def uniteRep (rep : Int → Int) (a b next : Int) (c : Int) : Int :=
  if rep c = a ∨ rep c = b then next else rep c

theorem uniteRep_of_mem {a b next c : Int} (h : rep c = a ∨ rep c = b) :
    uniteRep rep a b next c = next := if_pos h

theorem uniteRep_of_notMem {a b next c : Int} (h : ¬ (rep c = a ∨ rep c = b)) :
    uniteRep rep a b next c = rep c := if_neg h

theorem uniteRep_congr (a b next : Int) {c d : Int} (h : rep c = rep d) :
    uniteRep rep a b next c = uniteRep rep a b next d := by
  simp only [uniteRep, h]

/-- A union identifies the classes that have become one of the two, and no others. -/
theorem uniteRep_eq_iff {a b next c d : Int} (hc : rep c < next) (hd : rep d < next) :
    uniteRep rep a b next c = uniteRep rep a b next d ↔
      rep c = rep d ∨ (rep c = a ∨ rep c = b) ∧ (rep d = a ∨ rep d = b) := by
  unfold uniteRep
  grind

private theorem sizes_unite (h : Collapse s t rep) {c d : Int} (hc : c < s.nextClass)
    (hd : d < s.nextClass) (hne : rep c ≠ rep d) (e : Int) (he : e < s.nextClass) :
    ∃ members : List Int, members.Nodup ∧
      (∀ k, k ∈ members ↔ k < s.nextClass ∧ uniteRep rep (rep c) (rep d) t.nextClass k =
        uniteRep rep (rep c) (rep d) t.nextClass e) ∧
      ((t.unite (rep c) (rep d)).2.sizesOf (uniteRep rep (rep c) (rep d) t.nextClass e)).Perm
        (members.flatMap s.sizesOf) := by
  have hlt : ∀ k < s.nextClass, rep k ≠ t.nextClass := fun k hk => Int.ne_of_lt (h.rep_lt k hk)
  by_cases hin : rep e = rep c ∨ rep e = rep d
  · obtain ⟨ms, hms, hmem, hperm⟩ := h.sizes c hc
    obtain ⟨ns, hns, hnem, hperm'⟩ := h.sizes d hd
    refine ⟨ms ++ ns, ?_, ?_, ?_⟩
    · apply hms.append hns
      intro k hk hk'
      exact hne (((hmem k).mp hk).2.symm.trans ((hnem k).mp hk').2)
    · intro k
      rw [uniteRep_of_mem hin, List.mem_append, hmem, hnem, ← and_or_left, and_congr_right_iff]
      intro hk
      by_cases hk' : rep k = rep c ∨ rep k = rep d
      · simp [uniteRep_of_mem hk', hk']
      · simp [uniteRep_of_notMem hk', hk', hlt k hk]
    · rw [uniteRep_of_mem hin, sizesOf_unite, if_pos rfl, List.flatMap_append]
      exact hperm.append hperm'
  · obtain ⟨ms, hms, hmem, hperm⟩ := h.sizes e he
    refine ⟨ms, hms, ?_, ?_⟩
    · intro k
      rw [uniteRep_of_notMem hin, hmem, and_congr_right_iff]
      intro hk
      by_cases hk' : rep k = rep c ∨ rep k = rep d
      · rw [uniteRep_of_mem hk']
        refine ⟨fun heq => absurd (heq ▸ hk') hin, fun heq => absurd heq.symm (hlt e he)⟩
      · rw [uniteRep_of_notMem hk']
    · rw [uniteRep_of_notMem hin, sizesOf_unite, if_neg (hlt e he).symm, if_neg (by tauto)]
      exact hperm

/-- One more union. -/
theorem unite (h : Collapse s t rep) {c d : Int} (hc : c < s.nextClass) (hd : d < s.nextClass)
    (hne : rep c ≠ rep d) :
    Collapse s (t.unite (rep c) (rep d)).2 (uniteRep rep (rep c) (rep d) t.nextClass) where
  shapes := by
    apply Table.ext
    simp only [Store.unite, allocate, renameClasses, h.shapes, Table.toList_mapValues, List.map_map]
    apply List.map_congr_left
    intro entry _
    simp only [Function.comp_def, Shape.rename, List.map_map, List.mem_cons, List.not_mem_nil,
      or_false]
    rfl
  sizeVars := h.sizeVars
  next_le := by
    have hnext := h.next_le
    rw [nextClass_unite]
    omega
  rep_lt := by
    intro k hk
    have hlt := h.rep_lt k hk
    simp only [nextClass_unite, uniteRep]
    split <;> omega
  self_or_new := by
    intro k hk
    simp only [uniteRep]
    split
    · exact .inr h.next_le
    · exact h.self_or_new k hk
  self_of_alone := by
    intro k hk halone
    by_cases hin : rep k = rep c ∨ rep k = rep d
    · have hck := halone c hc (by rw [uniteRep_of_mem (.inl rfl), uniteRep_of_mem hin])
      have hdk := halone d hd (by rw [uniteRep_of_mem (.inr rfl), uniteRep_of_mem hin])
      exact absurd (by rw [hck, hdk]) hne
    · rw [uniteRep_of_notMem hin]
      exact h.self_of_alone k hk (fun e he heq => halone e he (uniteRep_congr _ _ _ heq))
  sizes := sizes_unite h hc hd hne
  kept := by
    intro k hk hself
    have hnext := h.next_le
    have hin : ¬ (rep k = rep c ∨ rep k = rep d) := by
      intro hin
      rw [uniteRep_of_mem hin] at hself
      omega
    rw [uniteRep_of_notMem hin] at hself
    rw [find?_classSizes_unite, if_neg (by omega), if_neg (by rw [hself] at hin; tauto)]
    exact h.kept k hk hself
  dropped := by
    intro k hk
    have hck := hk c hc
    rw [uniteRep_of_mem (.inl rfl)] at hck
    rw [find?_classSizes_unite, if_neg hck]
    split
    · rfl
    · refine h.dropped k (fun e he heq => hk e he ?_)
      rw [uniteRep_of_notMem (by rw [heq]; tauto), heq]

end Collapse

end Store

end DimEquiv
