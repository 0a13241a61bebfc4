import DimEquiv.Proofs.BroadcastEffect

/-!
# Dimensions counted from the last

A broadcast aligns its operands at their last dimensions, and so it is described without padding when
dimensions are counted from there. What matters of a list of shapes is which classes stand in one
place. The result of a broadcast presents its operands: in each place it shows what they show there,
with the classes that they have become.
-/

namespace DimEquiv

open Relation

namespace Shape

/-- The class of the dimension with `j` dimensions behind it, of size one where the shape has none. -/
def trailing (shape : Shape) (j : Nat) : Int := (shape.reverse[j]?).getD sizeOne

theorem getElem?_eq_trailing {shape : Shape} {i : Nat} (h : i < shape.length) :
    shape[i]? = some (shape.trailing (shape.length - 1 - i)) := by
  have hlt : shape.length - 1 - i < shape.length := by omega
  rw [trailing, List.getElem?_reverse hlt, List.getElem?_eq_getElem h,
    List.getElem?_eq_getElem (by omega), Option.getD_some]
  simp only [Option.some.injEq]
  congr 1
  omega

theorem trailing_of_le {shape : Shape} {j : Nat} (h : shape.length ≤ j) :
    shape.trailing j = sizeOne := by
  rw [trailing, List.getElem?_eq_none (by simpa using h), Option.getD_none]

theorem trailing_map {rep : Int → Int} (h : rep sizeOne = sizeOne) (shape : Shape) (j : Nat) :
    trailing (shape.map rep) j = rep (shape.trailing j) := by
  rw [trailing, trailing, ← List.map_reverse, List.getElem?_map]
  cases shape.reverse[j]? with
  | none => exact h.symm
  | some c => rfl

theorem trailing_padLeading (rank : Nat) (shape : Shape) (j : Nat) :
    (padLeading rank shape).trailing j = shape.trailing j := by
  rw [trailing, trailing, padLeading, List.reverse_append, List.reverse_replicate]
  by_cases h : j < shape.reverse.length
  · rw [List.getElem?_append_left h]
  · rw [List.getElem?_append_right (Nat.le_of_not_lt h), List.getElem?_eq_none (Nat.le_of_not_lt h),
      List.getElem?_replicate]
    split <;> rfl

/-- Shapes with as many dimensions and the same classes, counted from the last, are one. -/
theorem ext_trailing {shape shape' : Shape} (hlen : shape.length = shape'.length)
    (h : ∀ j, shape.trailing j = shape'.trailing j) : shape = shape' := by
  refine List.ext_getElem? fun i => ?_
  by_cases hi : i < shape.length
  · rw [getElem?_eq_trailing hi, getElem?_eq_trailing (hlen ▸ hi), h, hlen]
  · rw [List.getElem?_eq_none (Nat.le_of_not_lt hi),
      List.getElem?_eq_none (hlen ▸ Nat.le_of_not_lt hi)]

theorem lt_length_of_trailing {shape : Shape} {j : Nat} (h : shape.trailing j ≠ sizeOne) :
    j < shape.length := by
  by_contra hle
  exact h (trailing_of_le (Nat.le_of_not_lt hle))

theorem mem_of_trailing {shape : Shape} {j : Nat} {c : Int} (h : shape.trailing j = c)
    (hc : c ≠ sizeOne) : c ∈ shape := by
  rw [trailing] at h
  cases hj : shape.reverse[j]? with
  | none =>
    rw [hj] at h
    exact absurd h.symm hc
  | some d =>
    rw [hj] at h
    exact h ▸ List.mem_reverse.mp (List.mem_of_getElem? hj)

/-! ### Classes that face each other -/

/-- One of the shapes is unknown in place `j`. -/
def HiddenAt (shapes : List Shape) (j : Nat) : Prop := ∃ shape ∈ shapes, shape.trailing j = noClass

/-- The class `c`, neither unknown nor of size one, stands in place `j` of one of the shapes. -/
def StandsAt (shapes : List Shape) (j : Nat) (c : Int) : Prop :=
  c ≠ noClass ∧ c ≠ sizeOne ∧ ∃ shape ∈ shapes, shape.trailing j = c

/-- The classes stand in one place. -/
def Facing (shapes : List Shape) (c d : Int) : Prop :=
  ∃ j, StandsAt shapes j c ∧ StandsAt shapes j d

variable {A B C D : List Shape}

@[simp] theorem hiddenAt_singleton {shape : Shape} {j : Nat} :
    HiddenAt [shape] j ↔ shape.trailing j = noClass := by
  simp [HiddenAt]

@[simp] theorem standsAt_singleton {shape : Shape} {j : Nat} {c : Int} :
    StandsAt [shape] j c ↔ c ≠ noClass ∧ c ≠ sizeOne ∧ shape.trailing j = c := by
  simp [StandsAt]

theorem hiddenAt_append {j : Nat} : HiddenAt (A ++ B) j ↔ HiddenAt A j ∨ HiddenAt B j := by
  simp only [HiddenAt, List.mem_append, or_and_right, exists_or]

theorem standsAt_append {j : Nat} {c : Int} :
    StandsAt (A ++ B) j c ↔ StandsAt A j c ∨ StandsAt B j c := by
  simp only [StandsAt, List.mem_append, or_and_right, exists_or, and_or_left]

theorem StandsAt.mono {j : Nat} {c : Int} (h : StandsAt A j c) (hsub : A ⊆ B) : StandsAt B j c := by
  obtain ⟨hknown, hlong, shape, hshape, hc⟩ := h
  exact ⟨hknown, hlong, shape, hsub hshape, hc⟩

theorem HiddenAt.mono {j : Nat} (h : HiddenAt A j) (hsub : A ⊆ B) : HiddenAt B j := by
  obtain ⟨shape, hshape, hc⟩ := h
  exact ⟨shape, hsub hshape, hc⟩

theorem Facing.mono {c d : Int} (h : Facing A c d) (hsub : A ⊆ B) : Facing B c d := by
  obtain ⟨j, hc, hd⟩ := h
  exact ⟨j, hc.mono hsub, hd.mono hsub⟩

/-- No class is connected with a special one. -/
theorem eq_of_eqvGen_facing {z c : Int} (hz : z = noClass ∨ z = sizeOne)
    (h : EqvGen (Facing A) c z) : c = z := by
  have hplain : ∀ a b, Facing A a b → (a = z) = (b = z) := by
    rintro a b ⟨j, ha, hb⟩
    have ha' : a ≠ z := by
      rintro rfl
      exact hz.elim ha.1 ha.2.1
    have hb' : b ≠ z := by
      rintro rfl
      exact hz.elim hb.1 hb.2.1
    simp [ha', hb']
  have heq : (c = z) = (z = z) := map_eq_of_eqvGen (f := fun a => a = z) hplain h
  exact heq.mpr rfl

theorem maxRank_le_iff {n : Nat} : Store.maxRank A ≤ n ↔ ∀ shape ∈ A, shape.length ≤ n := by
  rw [Store.maxRank, Store.foldl_max_le_iff, and_iff_right (Nat.zero_le n)]
  exact List.forall_mem_map

theorem maxRank_eq_of_iff
    (h : ∀ n, (∀ shape ∈ A, shape.length ≤ n) ↔ ∀ shape ∈ B, shape.length ≤ n) :
    Store.maxRank A = Store.maxRank B :=
  Nat.le_antisymm (maxRank_le_iff.mpr ((h _).mpr (maxRank_le_iff.mp (Nat.le_refl _))))
    (maxRank_le_iff.mpr ((h _).mp (maxRank_le_iff.mp (Nat.le_refl _))))

/-- The shapes in `B` show in each place what those in `A` show there, with the classes that `rep` makes
of them, and the largest number of dimensions is the same. -/
structure Presents (rep : Int → Int) (A B : List Shape) : Prop where
  rank_eq : Store.maxRank B = Store.maxRank A
  hidden_iff : ∀ j, HiddenAt B j ↔ HiddenAt A j
  exists_of_standsAt : ∀ j c, StandsAt B j c → ∃ d, StandsAt A j d ∧ rep d = c
  standsAt : ∀ j c, ¬ HiddenAt A j → StandsAt A j c → StandsAt B j (rep c)

namespace Presents

variable {rep rep' : Int → Int} {out : Shape} {j : Nat} {c : Int}

theorem nil : Presents rep [] [] where
  rank_eq := rfl
  hidden_iff := fun _ => Iff.rfl
  exists_of_standsAt := by
    rintro j c ⟨-, -, shape, hshape, -⟩
    cases hshape
  standsAt := by
    rintro j c - ⟨-, -, shape, hshape, -⟩
    cases hshape

theorem trans (h : Presents rep A B) (h' : Presents rep' B C) : Presents (rep' ∘ rep) A C where
  rank_eq := h'.rank_eq.trans h.rank_eq
  hidden_iff := fun j => (h'.hidden_iff j).trans (h.hidden_iff j)
  exists_of_standsAt := by
    intro j c hc
    obtain ⟨d, hd, rfl⟩ := h'.exists_of_standsAt j c hc
    obtain ⟨e, he, rfl⟩ := h.exists_of_standsAt j d hd
    exact ⟨e, he, rfl⟩
  standsAt := fun j c hj hc =>
    h'.standsAt j (rep c) (mt (h.hidden_iff j).mp hj) (h.standsAt j c hj hc)

theorem append (h : Presents rep A B) (h' : Presents rep C D) : Presents rep (A ++ C) (B ++ D) where
  rank_eq := by
    refine maxRank_eq_of_iff fun n => ?_
    simp only [List.forall_mem_append, ← maxRank_le_iff, h.rank_eq, h'.rank_eq]
  hidden_iff := by
    intro j
    rw [hiddenAt_append, hiddenAt_append, h.hidden_iff, h'.hidden_iff]
  exists_of_standsAt := by
    intro j c hc
    rcases standsAt_append.mp hc with hc | hc
    · obtain ⟨d, hd, hrep⟩ := h.exists_of_standsAt j c hc
      exact ⟨d, standsAt_append.mpr (.inl hd), hrep⟩
    · obtain ⟨d, hd, hrep⟩ := h'.exists_of_standsAt j c hc
      exact ⟨d, standsAt_append.mpr (.inr hd), hrep⟩
  standsAt := by
    intro j c hj hc
    obtain ⟨hA, hC⟩ := not_or.mp (mt hiddenAt_append.mpr hj)
    rcases standsAt_append.mp hc with hc | hc
    · exact standsAt_append.mpr (.inl (h.standsAt j c hA hc))
    · exact standsAt_append.mpr (.inr (h'.standsAt j c hC hc))

/-- Shapes with renamed classes present what they were, if special classes are kept apart. -/
theorem map (hone : ∀ shape ∈ A, ∀ j, rep (shape.trailing j) = sizeOne ↔ shape.trailing j = sizeOne)
    (hnone : ∀ shape ∈ A, ∀ j, rep (shape.trailing j) = noClass ↔ shape.trailing j = noClass)
    (hrep : rep sizeOne = sizeOne) : Presents rep A (A.map (List.map rep)) where
  rank_eq := by
    refine maxRank_eq_of_iff fun n => ?_
    simp only [List.forall_mem_map, List.length_map]
  hidden_iff := by
    intro j
    constructor
    · rintro ⟨_, hmem, hc⟩
      obtain ⟨shape, hshape, rfl⟩ := List.mem_map.mp hmem
      rw [trailing_map hrep] at hc
      exact ⟨shape, hshape, (hnone shape hshape j).mp hc⟩
    · rintro ⟨shape, hshape, hc⟩
      refine ⟨_, List.mem_map_of_mem hshape, ?_⟩
      rw [trailing_map hrep]
      exact (hnone shape hshape j).mpr hc
  exists_of_standsAt := by
    rintro j c ⟨hknown, hlong, _, hmem, rfl⟩
    obtain ⟨shape, hshape, rfl⟩ := List.mem_map.mp hmem
    rw [trailing_map hrep] at hknown hlong ⊢
    exact ⟨trailing shape j, ⟨mt (hnone shape hshape j).mpr hknown,
      mt (hone shape hshape j).mpr hlong, shape, hshape, rfl⟩, rfl⟩
  standsAt := by
    rintro j c - ⟨hknown, hlong, shape, hshape, rfl⟩
    exact ⟨mt (hnone shape hshape j).mp hknown, mt (hone shape hshape j).mp hlong, _,
      List.mem_map_of_mem hshape, trailing_map hrep shape j⟩

/-- Only the members of the lists matter. -/
theorem congr_left (h : Presents rep A B) (hsub : A ⊆ C) (hsub' : C ⊆ A) : Presents rep C B where
  rank_eq := by
    refine h.rank_eq.trans (maxRank_eq_of_iff fun n => ?_)
    exact ⟨fun hle shape hshape => hle shape (hsub' hshape),
      fun hle shape hshape => hle shape (hsub hshape)⟩
  hidden_iff := fun j =>
    (h.hidden_iff j).trans ⟨fun hidden => hidden.mono hsub, fun hidden => hidden.mono hsub'⟩
  exists_of_standsAt := by
    intro j c hc
    obtain ⟨d, hd, hrep⟩ := h.exists_of_standsAt j c hc
    exact ⟨d, hd.mono hsub, hrep⟩
  standsAt := fun j c hj hc =>
    h.standsAt j c (fun hidden => hj (hidden.mono hsub)) (hc.mono hsub')

/-! A single shape is settled by what it presents. -/

theorem length_eq (h : Presents rep A [out]) : out.length = Store.maxRank A := by
  rw [← h.rank_eq]
  simp [Store.maxRank]

theorem trailing_eq_noClass_iff (h : Presents rep A [out]) :
    out.trailing j = noClass ↔ HiddenAt A j := by
  rw [← h.hidden_iff, hiddenAt_singleton]

theorem trailing_of_standsAt (h : Presents rep A [out]) (hj : ¬ HiddenAt A j) (hc : StandsAt A j c) :
    out.trailing j = rep c :=
  (standsAt_singleton.mp (h.standsAt j c hj hc)).2.2

theorem trailing_of_none (h : Presents rep A [out]) (hj : ¬ HiddenAt A j)
    (hnone : ∀ c, ¬ StandsAt A j c) : out.trailing j = sizeOne := by
  by_contra hlong
  have hstands : StandsAt [out] j (out.trailing j) :=
    standsAt_singleton.mpr ⟨mt h.trailing_eq_noClass_iff.mp hj, hlong, rfl⟩
  obtain ⟨d, hd, -⟩ := h.exists_of_standsAt j _ hstands
  exact hnone d hd

end Presents

end Shape

namespace Store

open Shape

/-- The shapes recorded for the variables. -/
def shapesOf (s : Store) (xs : List Var) : List Shape := xs.map fun x => (s.shapes.find? x).getD []

/-- The store `t` arises from `s` by unions of classes that the shapes connect, and it may record more
arrays; `rep c` is the class that `c` has become. -/
structure Advance (s t : Store) (rep : Int → Int) (shapes : List Shape) : Prop where
  bounded : t.Bounded
  recorded : ∀ x shape, s.shapes.find? x = some shape → t.shapes.find? x = some (shape.map rep)
  rep_lt : ∀ c < s.nextClass, rep c < t.nextClass
  rep_sizeOne : rep sizeOne = sizeOne
  rep_noClass : rep noClass = noClass
  justified : ∀ c < s.nextClass, ∀ d < s.nextClass, rep c = rep d → EqvGen (Facing shapes) c d

variable {s t u : Store} {rep rep' : Int → Int} {A B C : List Shape} {xs ys : List Var}

theorem shapesOf_append (s : Store) (xs ys : List Var) :
    s.shapesOf (xs ++ ys) = s.shapesOf xs ++ s.shapesOf ys := List.map_append

theorem shapesOf_singleton {x : Var} {shape : Shape} (h : s.shapes.find? x = some shape) :
    s.shapesOf [x] = [shape] := by
  rw [shapesOf, List.map_singleton, h, Option.getD_some]

theorem shapesOf_subset (s : Store) (h : xs ⊆ ys) : s.shapesOf xs ⊆ s.shapesOf ys :=
  List.map_subset _ h

theorem Bounded.trailing_lt (hs : s.Bounded) {shape : Shape} (hshape : shape ∈ s.shapesOf xs)
    (j : Nat) : shape.trailing j < s.nextClass := by
  by_cases hone : shape.trailing j = sizeOne
  · rw [hone]
    exact hs.sizeOne_lt
  · have hmem := mem_of_trailing rfl hone
    obtain ⟨x, -, rfl⟩ := List.mem_map.mp hshape
    cases hx : s.shapes.find? x with
    | none =>
      rw [hx] at hmem
      cases hmem
    | some known => exact hs.lt_of_recorded x known hx _ (by simpa [hx] using hmem)

theorem Bounded.standsAt_lt (hs : s.Bounded) {j : Nat} {c : Int} (h : StandsAt (s.shapesOf xs) j c) :
    c < s.nextClass := by
  obtain ⟨-, -, shape, hshape, rfl⟩ := h
  exact hs.trailing_lt hshape j

namespace Advance

theorem refl (hs : s.Bounded) (shapes : List Shape) : Advance s s id shapes where
  bounded := hs
  recorded := by simp
  rep_lt := fun _ hc => hc
  rep_sizeOne := rfl
  rep_noClass := rfl
  justified := by
    rintro c - d - rfl
    exact .refl c

theorem has (h : Advance s t rep A) {x : Var} (hx : s.has x = true) : t.has x = true := by
  obtain ⟨shape, hx⟩ := (has_iff s x).mp hx
  exact (has_iff t x).mpr ⟨_, h.recorded x shape hx⟩

theorem shapesOf_eq (h : Advance s t rep A) (hxs : ∀ x ∈ xs, s.has x = true) :
    t.shapesOf xs = (s.shapesOf xs).map (List.map rep) := by
  rw [shapesOf, shapesOf, List.map_map]
  refine List.map_congr_left fun x hx => ?_
  obtain ⟨shape, hshape⟩ := (has_iff s x).mp (hxs x hx)
  rw [h.recorded x shape hshape, Function.comp_apply, hshape]
  rfl

/-- A special class is what it was, and nothing else has become special. -/
theorem rep_eq_special_iff (h : Advance s t rep A) (hs : s.Bounded) {z : Int}
    (hz : z = noClass ∨ z = sizeOne) {c : Int} (hc : c < s.nextClass) : rep c = z ↔ c = z := by
  have hself : rep z = z ∧ z < s.nextClass := by
    rcases hz with rfl | rfl
    · exact ⟨h.rep_noClass, hs.noClass_lt⟩
    · exact ⟨h.rep_sizeOne, hs.sizeOne_lt⟩
  constructor
  · intro heq
    exact eq_of_eqvGen_facing hz (h.justified c hc z hself.2 (heq.trans hself.1.symm))
  · rintro rfl
    exact hself.1

theorem rep_eq_noClass_iff (h : Advance s t rep A) (hs : s.Bounded) {c : Int}
    (hc : c < s.nextClass) : rep c = noClass ↔ c = noClass :=
  h.rep_eq_special_iff hs (.inl rfl) hc

theorem rep_eq_sizeOne_iff (h : Advance s t rep A) (hs : s.Bounded) {c : Int}
    (hc : c < s.nextClass) : rep c = sizeOne ↔ c = sizeOne :=
  h.rep_eq_special_iff hs (.inr rfl) hc

/-- Recorded arrays present what they showed before. -/
theorem presents (h : Advance s t rep A) (hs : s.Bounded) (hxs : ∀ x ∈ xs, s.has x = true) :
    Presents rep (s.shapesOf xs) (t.shapesOf xs) := by
  rw [h.shapesOf_eq hxs]
  exact .map (fun shape hshape j => h.rep_eq_sizeOne_iff hs (hs.trailing_lt hshape j))
    (fun shape hshape j => h.rep_eq_noClass_iff hs (hs.trailing_lt hshape j)) h.rep_sizeOne

/-- Classes that are connected further on were connected before, where the shapes at hand present
others. -/
theorem trans (h : Advance s t rep A) (h' : Advance t u rep' B) (hs : s.Bounded)
    (hpresents : Presents rep (s.shapesOf xs) B) (hA : A ⊆ C) (hxs : s.shapesOf xs ⊆ C) :
    Advance s u (rep' ∘ rep) C where
  bounded := h'.bounded
  recorded := by
    intro x shape hx
    rw [h'.recorded x _ (h.recorded x shape hx), List.map_map]
  rep_lt := fun c hc => h'.rep_lt _ (h.rep_lt c hc)
  rep_sizeOne := by rw [Function.comp_apply, h.rep_sizeOne, h'.rep_sizeOne]
  rep_noClass := by rw [Function.comp_apply, h.rep_noClass, h'.rep_noClass]
  justified := by
    have hbefore : ∀ c < s.nextClass, ∀ d < s.nextClass, rep c = rep d → EqvGen (Facing C) c d :=
      fun c hc d hd heq => (h.justified c hc d hd heq).mono fun _ _ hface => hface.mono hA
    have hshown : ∀ {c k : Int}, (if c < s.nextClass then some (rep c) else none) = some k ↔
        c < s.nextClass ∧ rep c = k := by simp
    intro c hc d hd heq
    have hconnected := h'.justified _ (h.rep_lt c hc) _ (h.rep_lt d hd) heq
    have hlift := eqvGen_lift (S := Facing C)
      (f := fun c => if c < s.nextClass then some (rep c) else none) ?_ ?_ hconnected
    · rcases hlift with heq | ⟨x, y, hx, hy, hxy⟩
      · exact hbefore c hc d hd heq
      · obtain ⟨hx, hcx⟩ := hshown.mp hx
        obtain ⟨hy, hyd⟩ := hshown.mp hy
        exact .trans _ _ _ (hbefore c hc x hx hcx.symm) (.trans _ _ _ hxy (hbefore y hy d hd hyd))
    · intro x y k hx hy
      obtain ⟨hxlt, rfl⟩ := hshown.mp hx
      obtain ⟨hylt, hxy⟩ := hshown.mp hy
      exact hbefore x hxlt y hylt hxy.symm
    · rintro a b ⟨j, ha, hb⟩
      obtain ⟨x, hx, rfl⟩ := hpresents.exists_of_standsAt j a ha
      obtain ⟨y, hy, rfl⟩ := hpresents.exists_of_standsAt j b hb
      exact ⟨x, y, hshown.mpr ⟨hs.standsAt_lt hx, rfl⟩, hshown.mpr ⟨hs.standsAt_lt hy, rfl⟩,
        .rel x y ⟨j, hx.mono hxs, hy.mono hxs⟩⟩

/-- Recording a shape for a new array is no union. -/
theorem record (h : Advance s t rep A) {y : Var} (hy : t.has y = false) {out : Shape}
    (hout : ∀ c ∈ out, c < t.nextClass) : Advance s (t.record y out).2 rep A := by
  have hnone : t.shapes.find? y = none := Option.not_isSome_iff_eq_none.mp (Bool.eq_false_iff.mp hy)
  have hstore : (t.record y out).2 = { t with shapes := t.shapes.insert y out } := by
    simp only [Store.record, hnone]
  rw [hstore]
  refine ⟨⟨h.bounded.next_pos, fun x shape hx => ?_, h.bounded.lt_of_sized⟩, fun x shape hx => ?_,
    h.rep_lt, h.rep_sizeOne, h.rep_noClass, h.justified⟩
  · rw [Table.find?_insert] at hx
    split at hx
    · exact Option.some.inj hx ▸ hout
    · exact h.bounded.lt_of_recorded x shape hx
  · have hx' := h.recorded x shape hx
    have hne : y ≠ x := by
      rintro rfl
      rw [hnone] at hx'
      cases hx'
    rw [Table.find?_insert, if_neg hne, hx']

end Advance

/-! ### Broadcasts of arrays -/

open Broadcast

/-- An operand that is no array takes no part in a dimension. -/
theorem dimension_filter (isArray : Var → Bool) (operands : List Var) (rank : Nat) :
    Broadcast.dimension isArray operands rank =
      Broadcast.dimension (fun _ => true) (operands.filter isArray) rank := by
  funext b i
  have htake : ∀ (b : Broadcast) (x : Var), b.take (operandClass isArray rank i b.store x) =
      if isArray x then b.take (operandClass (fun _ => true) rank i b.store x) else b := by
    intro b x
    cases hx : isArray x with
    | true => simp [operandClass, hx]
    | false =>
      have hone : operandClass isArray rank i b.store x = sizeOne := by
        simp [operandClass, hx, padLeading, List.getElem?_replicate]
        split <;> rfl
      rw [hone, Broadcast.take]
      rfl
  simp only [Broadcast.dimension, htake, List.foldl_filter]

theorem broadcast_filter (isArray : Var → Bool) {operands : List Var}
    (harray : ∃ x ∈ operands, isArray x = true) (s : Store) :
    s.broadcast isArray operands = s.broadcast (fun _ => true) (operands.filter isArray) := by
  unfold Store.broadcast
  simp only [List.filter_true, dimension_filter isArray operands]
  cases hfilter : operands.filter isArray with
  | nil =>
    obtain ⟨x, hx, hax⟩ := harray
    have hmem : x ∈ operands.filter isArray := List.mem_filter.mpr ⟨hx, hax⟩
    rw [hfilter] at hmem
    cases hmem
  | cons x xs => rfl

variable {rank i : Nat} {c d : Int}

theorem operandClass_eq_trailing {x : Var} (hle : ((s.shapes.find? x).getD []).length ≤ rank)
    (hi : i < rank) :
    operandClass (fun _ => true) rank i s x =
      trailing ((s.shapes.find? x).getD []) (rank - 1 - i) := by
  have hlen : (padLeading rank ((s.shapes.find? x).getD [])).length = rank := by
    rw [length_padLeading]
    omega
  rw [operandClass, if_pos rfl, getElem?_eq_trailing (by omega), Option.getD_some, hlen,
    trailing_padLeading]

theorem exists_operandClass_iff_trailing (hle : maxRank (s.shapesOf xs) ≤ rank) (hi : i < rank) :
    (∃ x ∈ xs, operandClass (fun _ => true) rank i s x = c) ↔
      ∃ shape ∈ s.shapesOf xs, trailing shape (rank - 1 - i) = c := by
  rw [maxRank_le_iff, shapesOf, List.forall_mem_map] at hle
  simp only [shapesOf, List.mem_map, exists_exists_and_eq_and]
  exact exists_congr fun x => and_congr_right fun hx => by
    rw [operandClass_eq_trailing (hle x hx) hi]

theorem hasUnknown_iff_hiddenAt (hle : maxRank (s.shapesOf xs) ≤ rank) (hi : i < rank) :
    HasUnknown (fun _ => true) xs rank s i ↔ HiddenAt (s.shapesOf xs) (rank - 1 - i) :=
  exists_operandClass_iff_trailing hle hi

theorem carried_iff_standsAt (hle : maxRank (s.shapesOf xs) ≤ rank) (hi : i < rank) :
    Carried (fun _ => true) xs rank s i c ↔ StandsAt (s.shapesOf xs) (rank - 1 - i) c :=
  and_congr_right fun _ => and_congr_right fun _ => exists_operandClass_iff_trailing hle hi

/-- No class stands before the first dimension. -/
theorem lt_maxRank_of_trailing {shape : Shape} {j : Nat} (hshape : shape ∈ A)
    (h : shape.trailing j ≠ sizeOne) : j < maxRank A :=
  Nat.lt_of_lt_of_le (lt_length_of_trailing h) (maxRank_le_iff.mp (Nat.le_refl _) shape hshape)

theorem lt_maxRank_of_standsAt {j : Nat} (h : StandsAt A j c) : j < maxRank A := by
  obtain ⟨-, hlong, shape, hshape, rfl⟩ := h
  exact lt_maxRank_of_trailing hshape hlong

theorem lt_maxRank_of_hiddenAt {j : Nat} (h : HiddenAt A j) : j < maxRank A := by
  obtain ⟨shape, hshape, hunknown⟩ := h
  exact lt_maxRank_of_trailing hshape (by rw [hunknown]; decide)

theorem aligned_iff_facing :
    Aligned (fun _ => true) xs (maxRank (s.shapesOf xs)) s c d ↔ Facing (s.shapesOf xs) c d := by
  have hle := Nat.le_refl (maxRank (s.shapesOf xs))
  constructor
  · rintro ⟨i, hi, hc, hd⟩
    exact ⟨_, (carried_iff_standsAt hle hi).mp hc, (carried_iff_standsAt hle hi).mp hd⟩
  · rintro ⟨j, hc, hd⟩
    have hj := lt_maxRank_of_standsAt hc
    have hplace : maxRank (s.shapesOf xs) - 1 - (maxRank (s.shapesOf xs) - 1 - j) = j := by omega
    refine ⟨maxRank (s.shapesOf xs) - 1 - j, by omega, ?_, ?_⟩
    · rwa [carried_iff_standsAt hle (by omega), hplace]
    · rwa [carried_iff_standsAt hle (by omega), hplace]

/-- What the result of a broadcast shows in a place, before any union. -/
theorem exists_trailing_of_progress {b : Broadcast} {base : Shape}
    (h : Progress (fun _ => true) xs (maxRank (s.shapesOf xs)) s b rep base) (hs : s.Bounded)
    (hlen : base.length = maxRank (s.shapesOf xs)) {j : Nat} (hj : j < maxRank (s.shapesOf xs)) :
    ∃ c < s.nextClass, trailing b.done j = rep c ∧
      (HiddenAt (s.shapesOf xs) j → c = noClass) ∧
      (¬ HiddenAt (s.shapesOf xs) j →
        (c = sizeOne ∧ ∀ d, ¬ StandsAt (s.shapesOf xs) j d) ∨ StandsAt (s.shapesOf xs) j c) := by
  have hle := Nat.le_refl (maxRank (s.shapesOf xs))
  have hi : maxRank (s.shapesOf xs) - 1 - j < maxRank (s.shapesOf xs) := by omega
  have hplace : maxRank (s.shapesOf xs) - 1 - (maxRank (s.shapesOf xs) - 1 - j) = j := by omega
  have hdone : b.done.length = maxRank (s.shapesOf xs) := by rw [h.done, List.length_map, hlen]
  have hi' : maxRank (s.shapesOf xs) - 1 - j < base.length := by rwa [hlen]
  obtain ⟨c, hout, hresult⟩ := h.exists_getElem? hi'
  rw [getElem?_eq_trailing (by rwa [hdone]), hdone, hplace] at hout
  have hlt := hresult.lt hs
  simp only [ResultClass, hasUnknown_iff_hiddenAt hle hi, carried_iff_standsAt hle hi, hplace] at hresult
  exact ⟨c, hlt, Option.some.inj hout, hresult.1, hresult.2⟩

/-- The result of a broadcast presents the operands. -/
theorem presents_of_progress {b : Broadcast} {base : Shape}
    (h : Progress (fun _ => true) xs (maxRank (s.shapesOf xs)) s b rep base) (hs : s.Bounded)
    (hlen : base.length = maxRank (s.shapesOf xs)) (hadvance : Advance s b.store rep (s.shapesOf xs))
    (hunited : ∀ c d, Facing (s.shapesOf xs) c d → rep c = rep d) :
    Presents rep (s.shapesOf xs) [b.done] := by
  have hdone : b.done.length = maxRank (s.shapesOf xs) := by rw [h.done, List.length_map, hlen]
  have hlt : ∀ {j}, trailing b.done j ≠ sizeOne → j < maxRank (s.shapesOf xs) :=
    fun hlong => hdone ▸ lt_length_of_trailing hlong
  refine ⟨?_, fun j => ?_, fun j k hk => ?_, fun j c hj hc => ?_⟩
  · simpa [maxRank] using hdone
  · rw [hiddenAt_singleton]
    constructor
    · intro hunknown
      have hj := hlt (j := j) (by rw [hunknown]; decide)
      obtain ⟨c, hc, hplace, -, hplain⟩ := exists_trailing_of_progress h hs hlen hj
      rw [hplace, hadvance.rep_eq_noClass_iff hs hc] at hunknown
      by_contra hseen
      rcases hplain hseen with ⟨hone, -⟩ | hstands
      · exact absurd (hunknown.symm.trans hone) (by decide)
      · exact hstands.1 hunknown
    · intro hidden
      obtain ⟨c, -, hplace, hunknown, -⟩ :=
        exists_trailing_of_progress h hs hlen (lt_maxRank_of_hiddenAt hidden)
      rw [hplace, hunknown hidden, hadvance.rep_noClass]
  · obtain ⟨hknown, hlong, rfl⟩ := standsAt_singleton.mp hk
    obtain ⟨c, hc, hplace, hunknown, hplain⟩ := exists_trailing_of_progress h hs hlen (hlt hlong)
    rw [hplace] at hknown hlong ⊢
    rw [ne_eq, hadvance.rep_eq_noClass_iff hs hc] at hknown
    rw [ne_eq, hadvance.rep_eq_sizeOne_iff hs hc] at hlong
    rcases hplain (mt hunknown hknown) with ⟨hone, -⟩ | hstands
    · exact absurd hone hlong
    · exact ⟨c, hstands, rfl⟩
  · obtain ⟨d, hd, hplace, -, hplain⟩ :=
      exists_trailing_of_progress h hs hlen (lt_maxRank_of_standsAt hc)
    rcases hplain hj with ⟨-, hnone⟩ | hstands
    · exact absurd hc (hnone c)
    have hclt := hs.standsAt_lt hc
    refine standsAt_singleton.mpr ⟨?_, ?_, hplace.trans (hunited d c ⟨j, hstands, hc⟩)⟩
    · exact mt (hadvance.rep_eq_noClass_iff hs hclt).mp hc.1
    · exact mt (hadvance.rep_eq_sizeOne_iff hs hclt).mp hc.2.1

/-- Broadcasting recorded arrays unites the classes that face each other and no others, and the result
presents the arrays. -/
theorem broadcast_presents (hs : s.Bounded) (hne : xs ≠ []) (hxs : ∀ x ∈ xs, s.has x = true) :
    ∃ out t rep, s.broadcast (fun _ => true) xs = .ok (out, t) ∧
      Advance s t rep (s.shapesOf xs) ∧ Presents rep (s.shapesOf xs) [out] ∧
      (∀ c d, Facing (s.shapesOf xs) c d → rep c = rep d) ∧ ∀ c ∈ out, c < t.nextClass := by
  obtain ⟨x, hx⟩ := List.exists_mem_of_ne_nil xs hne
  obtain ⟨rep, base, hlen, h⟩ := exists_progress_broadcastAll (fun _ => true) xs hs
  have hrank : operandRank (fun _ => true) xs s = maxRank (s.shapesOf xs) := by
    rw [operandRank, List.filter_true, shapesOf]
  have hok : s.broadcast (fun _ => true) xs = .ok _ :=
    broadcast_eq_ok_iff.mpr ⟨⟨x, hx, rfl⟩, fun x hx _ => hxs x hx, rfl⟩
  generalize broadcastAll (fun _ => true) xs s = b at h hok
  rw [hrank] at hlen h
  have hunited : ∀ c d, Facing (s.shapesOf xs) c d → rep c = rep d := by
    intro c d hface
    obtain ⟨i, hi, hc, hd⟩ := aligned_iff_facing.mpr hface
    exact h.united i (hlen ▸ hi) c d hc hd
  have hadvance : Advance s b.store rep (s.shapesOf xs) := by
    refine ⟨h.collapse.bounded hs, fun x shape hx => ?_, h.collapse.rep_lt, h.rep_sizeOne hs,
      h.rep_noClass hs, fun c hc d hd heq => ?_⟩
    · rw [h.collapse.find?_shapes, hx, Option.map_some]
    · exact (h.justified c hc d hd heq).mono fun _ _ => aligned_iff_facing.mp
  refine ⟨b.done, b.store, rep, hok, hadvance, ?_, hunited, fun c hc => ?_⟩
  · exact presents_of_progress h hs hlen hadvance hunited
  · rw [h.done] at hc
    obtain ⟨d, hd, rfl⟩ := List.mem_map.mp hc
    obtain ⟨i, hi⟩ := List.getElem?_of_mem hd
    exact h.collapse.rep_lt d ((h.result i d hi).lt hs)

end Store

end DimEquiv
