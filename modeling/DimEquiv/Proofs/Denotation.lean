import DimEquiv.Proofs.InferenceEffect
import DimEquiv.Valuation

/-!
# Classes that stand for lengths

Under a valuation every class stands for one length. What an operation does to the tables keeps a
denotation of the classes, as long as it unites only classes that stand for the same length.
-/

namespace DimEquiv

theorem exists_getElem?_of_forall₂ {α β : Type} {r : α → β → Prop} {as : List α} {bs : List β}
    (h : List.Forall₂ r as bs) {i : Nat} {a : α} (ha : as[i]? = some a) :
    ∃ b, bs[i]? = some b ∧ r a b := by
  obtain ⟨hi, rfl⟩ := List.getElem?_eq_some_iff.mp ha
  have hi' : i < bs.length := h.length_eq ▸ hi
  exact ⟨bs[i], List.getElem?_eq_getElem hi', h.get hi hi'⟩

theorem forall₂_dropLast {α β : Type} {r : α → β → Prop} {as : List α} {bs : List β}
    (h : List.Forall₂ r as bs) : List.Forall₂ r as.dropLast bs.dropLast := by
  rw [List.dropLast_eq_take, List.dropLast_eq_take, h.length_eq]
  exact List.forall₂_take _ h

theorem forall₂_eraseIdx {α β : Type} {r : α → β → Prop} {as : List α} {bs : List β}
    (h : List.Forall₂ r as bs) (i : Nat) : List.Forall₂ r (as.eraseIdx i) (bs.eraseIdx i) := by
  rw [List.eraseIdx_eq_take_drop_succ, List.eraseIdx_eq_take_drop_succ]
  exact List.rel_append (List.forall₂_take i h) (List.forall₂_drop (i + 1) h)

/-- The known classes of a shape stand for the lengths. -/
def Shape.Fits (den : Int → Number) (shape : Shape) (lengths : List Nat) : Prop :=
  List.Forall₂ (fun (c : Int) (l : Nat) => c ≠ Shape.noClass → den c = .int l) shape lengths

namespace Shape.Fits

variable {den den' : Int → Number} {shape : Shape} {lengths : List Nat}

theorem exists_of_getElem? (h : shape.Fits den lengths) {i : Nat} {c : Int}
    (hc : shape[i]? = some c) (hknown : c ≠ Shape.noClass) :
    ∃ l, lengths[i]? = some l ∧ den c = .int l := by
  obtain ⟨l, hl, hden⟩ := exists_getElem?_of_forall₂ h hc
  exact ⟨l, hl, hden hknown⟩

theorem den_eq (h : shape.Fits den lengths) {i l : Nat} {c : Int} (hc : shape[i]? = some c)
    (hl : lengths[i]? = some l) (hknown : c ≠ Shape.noClass) : den c = .int l := by
  obtain ⟨k, hk, hden⟩ := h.exists_of_getElem? hc hknown
  cases hk.symm.trans hl
  exact hden

theorem ne_nil (h : shape.Fits den lengths) {c : Int} (hc : c ∈ shape) : lengths ≠ [] := by
  rintro rfl
  rw [List.length_eq_zero_iff.mp h.length_eq] at hc
  cases hc

theorem of_getElem? (hlen : shape.length = lengths.length)
    (h : ∀ (i : Nat) (c : Int), shape[i]? = some c → c ≠ Shape.noClass →
      ∃ l, lengths[i]? = some l ∧ den c = .int l) : shape.Fits den lengths := by
  induction shape generalizing lengths with
  | nil =>
    cases lengths with
    | nil => exact .nil
    | cons l ls => cases hlen
  | cons c cs ih =>
    cases lengths with
    | nil => cases hlen
    | cons l ls =>
      refine .cons (fun hknown => ?_) (ih (by simpa using hlen) fun i d hd hknown => ?_)
      · obtain ⟨l', hl', hden⟩ := h 0 c rfl hknown
        cases hl'
        exact hden
      · exact h (i + 1) d hd hknown

/-- Nothing has to be said of dimensions that are not known. -/
theorem unknown (den : Int → Number) (lengths : List Nat) :
    (Shape.unknown lengths.length).Fits den lengths := by
  refine of_getElem? (Shape.length_unknown _) fun i c hc hknown => ?_
  exact absurd (Shape.eq_noClass_of_mem (List.mem_of_getElem? hc)) hknown

theorem map {rep : Int → Int} (h : shape.Fits den lengths)
    (hunknown : rep Shape.noClass = Shape.noClass) (hden : ∀ c ∈ shape, den' (rep c) = den c) :
    Shape.Fits den' (shape.map rep) lengths := by
  induction h with
  | nil => exact .nil
  | @cons c l cs ls hc _ ih =>
    refine .cons (fun hknown => ?_) (ih fun d hd => hden d (List.mem_cons_of_mem c hd))
    have hc' : c ≠ Shape.noClass := by
      rintro rfl
      exact hknown hunknown
    rw [hden c List.mem_cons_self]
    exact hc hc'

theorem congr (h : shape.Fits den lengths) (hden : ∀ c ∈ shape, den' c = den c) :
    shape.Fits den' lengths := by
  have hmap : Shape.Fits den' (shape.map id) lengths := h.map rfl hden
  rwa [List.map_id] at hmap

theorem append {other : Shape} {rest : List Nat} (h : shape.Fits den lengths)
    (h' : other.Fits den rest) : Shape.Fits den (shape ++ other) (lengths ++ rest) :=
  List.rel_append h h'

theorem dropLast (h : shape.Fits den lengths) : Shape.Fits den shape.dropLast lengths.dropLast :=
  forall₂_dropLast h

theorem eraseIdx (h : shape.Fits den lengths) (i : Nat) :
    Shape.Fits den (shape.eraseIdx i) (lengths.eraseIdx i) :=
  forall₂_eraseIdx h i

theorem reverse (h : shape.Fits den lengths) : Shape.Fits den shape.reverse lengths.reverse :=
  List.rel_reverse h

end Shape.Fits

namespace Store

/-- Recorded shapes fit the lengths of their arrays, and the size values of a class have the value
that it stands for. Of the latter nothing is said before the reads are `told` apart. -/
structure Denotes (v : Valuation) (told : Prop) (den : Int → Number) (s : Store) : Prop where
  recorded : ∀ x shape, s.shapes.find? x = some shape → shape.Fits den (v.lengths x)
  sizes : told → ∀ c, ∀ size ∈ s.sizesOf c, v.sizeOf size = den c

variable {v : Valuation} {told : Prop} {den den' : Int → Number} {s t : Store}

/-- Classes that have become one stand for one length. -/
theorem Collapse.exists_denotation (s : Store) (rep : Int → Int) (den : Int → Number)
    (h : ∀ c < s.nextClass, ∀ d < s.nextClass, rep c = rep d → den c = den d) :
    ∃ den' : Int → Number, ∀ c < s.nextClass, den' (rep c) = den c := by
  classical
  -- A class takes the length of any class that has become it; by `h` it does not matter which.
  refine ⟨fun k => if hk : ∃ c < s.nextClass, rep c = k then den hk.choose else den k, ?_⟩
  intro c hc
  have hk : ∃ d < s.nextClass, rep d = rep c := ⟨c, hc, rfl⟩
  simp only [dif_pos hk]
  exact h _ hk.choose_spec.1 c hc hk.choose_spec.2

theorem Denotes.collapse {rep : Int → Int} (h : s.Denotes v told den) (hs : s.Bounded)
    (hcollapse : Collapse s t rep) (hunknown : rep Shape.noClass = Shape.noClass)
    (hden : ∀ c < s.nextClass, den' (rep c) = den c) : t.Denotes v told den' where
  recorded := by
    intro x shape hx
    rw [hcollapse.find?_shapes, Option.map_eq_some_iff] at hx
    obtain ⟨shape, hx, rfl⟩ := hx
    exact (h.recorded x shape hx).map hunknown fun c hc => hden c (hs.lt_of_recorded x shape hx c hc)
  sizes := by
    intro htold c size hsize
    obtain ⟨d, hd, rfl, hmem⟩ := hcollapse.exists_of_mem_sizesOf hsize
    rw [hden d hd]
    exact h.sizes htold d size hmem

/-- The size of a new class, if it is told. -/
def backing? (sizes : List (Option SizeValue)) (i : Nat) : Option SizeValue :=
  (sizes[i]?).bind fun size => size.filter fun value => !value.isPlaceholder

theorem backing?_eq_some_iff {sizes : List (Option SizeValue)} {i : Nat} {size : SizeValue} :
    backing? sizes i = some size ↔ sizes[i]? = some (some size) ∧ size.isPlaceholder = false := by
  simp [backing?, Option.bind_eq_some_iff, Option.filter_eq_some_iff]

/-- A size value of a class stood there before or backs the class, which is new. -/
theorem mem_sizesOf_addClasses (hs : s.Bounded) {sizes : List (Option SizeValue)} {c : Int}
    {size : SizeValue} (hsize : size ∈ (addClasses sizes s).2.sizesOf c) :
    (c < s.nextClass ∧ size ∈ s.sizesOf c) ∨
      ∃ i : Nat, c = s.nextClass + i ∧ backing? sizes i = some size := by
  by_cases hc : c < s.nextClass
  · rw [sizesOf_addClasses_of_lt sizes hc] at hsize
    exact .inl ⟨hc, hsize⟩
  · refine .inr ⟨(c - s.nextClass).toNat, by omega, ?_⟩
    have hcast : c = s.nextClass + ((c - s.nextClass).toNat : Int) := by omega
    cases hi : sizes[(c - s.nextClass).toNat]? with
    | none =>
      have hle := List.getElem?_eq_none_iff.mp hi
      rw [sizesOf_eq_nil_of_le (hs.addClasses sizes)
        (by rw [nextClass_addClasses]; omega)] at hsize
      cases hsize
    | some given =>
      rw [hcast, sizesOf_addClasses_new hs sizes hi, Option.mem_toList] at hsize
      simp only [backing?, hi, Option.bind_some]
      exact hsize

/-- New classes stand for their sizes, and where no size is told for anything. -/
theorem Denotes.addClasses (h : s.Denotes v told den) (hs : s.Bounded)
    (sizes : List (Option SizeValue)) (other : Nat → Number) :
    ∃ den', (addClasses sizes s).2.Denotes v told den' ∧ (∀ c < s.nextClass, den' c = den c) ∧
      ∀ i : Nat, den' (s.nextClass + i) = ((backing? sizes i).map v.sizeOf).getD (other i) := by
  refine ⟨fun c => if c < s.nextClass then den c
    else ((backing? sizes (c - s.nextClass).toNat).map v.sizeOf).getD
      (other (c - s.nextClass).toNat), ⟨?_, ?_⟩, fun c hc => if_pos hc, fun i => ?_⟩
  · intro x shape hx
    rw [shapes_addClasses] at hx
    exact (h.recorded x shape hx).congr fun c hc => if_pos (hs.lt_of_recorded x shape hx c hc)
  · intro htold c size hsize
    rcases mem_sizesOf_addClasses hs hsize with ⟨hc, hmem⟩ | ⟨i, rfl, hback⟩
    · simp only [if_pos hc]
      exact h.sizes htold c size hmem
    · have hge : ¬ s.nextClass + (i : Int) < s.nextClass := by omega
      have hindex : (s.nextClass + (i : Int) - s.nextClass).toNat = i := by omega
      simp only [if_neg hge, hindex, hback]
      rfl
  · have hge : ¬ s.nextClass + (i : Int) < s.nextClass := by omega
    have hindex : (s.nextClass + (i : Int) - s.nextClass).toNat = i := by omega
    simp only [if_neg hge, hindex]

theorem Denotes.represent (h : s.Denotes v told den) {c : Int} {size : SizeValue}
    (hsize : told → c ≠ Shape.noClass → v.sizeOf size = den c) :
    (s.represent c size).Denotes v told den where
  recorded := by
    intro x shape hx
    apply h.recorded x shape
    unfold Store.represent at hx
    split at hx
    · exact hx
    · exact hx
  sizes := by
    intro htold d value hvalue
    rw [sizesOf_represent] at hvalue
    split at hvalue
    · rename_i hd
      rw [List.mem_singleton] at hvalue
      rw [hvalue, ← hd.2]
      exact hsize htold hd.1
    · exact h.sizes htold d value hvalue

theorem Denotes.record (h : s.Denotes v told den) {x : Var} {shape : Shape}
    (hfits : shape.Fits den (v.lengths x)) : (s.record x shape).2.Denotes v told den where
  recorded := by
    intro y other hy
    rw [find?_shapes_record] at hy
    split at hy
    · rename_i hxy
      subst hxy
      split at hy
      · cases hy
        exact hfits
      · rename_i previous hprevious
        cases hy
        split
        · exact hfits
        · rw [(h.recorded x previous hprevious).length_eq]
          exact .unknown den _
    · exact h.recorded y other hy
  sizes := by
    intro htold c size hsize
    simp only [sizesOf, classSizes_record] at hsize
    exact h.sizes htold c size hsize

/-! ### Broadcasting -/

open Broadcast

variable {isArray : Var → Bool} {operands : List Var} {target : Var}

theorem exists_of_padLeading {rank i : Nat} {shape : Shape} {c : Int}
    (hc : ((Shape.padLeading rank shape)[i]?).getD Shape.sizeOne = c) (hone : c ≠ Shape.sizeOne) :
    ∃ j : Nat, shape[j]? = some c ∧ i = rank - shape.length + j := by
  have hsome : (Shape.padLeading rank shape)[i]? = some c := by
    cases hi : (Shape.padLeading rank shape)[i]? with
    | none =>
      rw [hi, Option.getD_none] at hc
      exact absurd hc.symm hone
    | some d =>
      rw [hi, Option.getD_some] at hc
      rw [hc]
  rw [Shape.padLeading] at hsome
  by_cases hi : i < rank - shape.length
  · rw [List.getElem?_append_left (by simpa using hi)] at hsome
    exact absurd (List.eq_of_mem_replicate (List.mem_of_getElem? hsome)) hone
  · rw [List.getElem?_append_right (by simpa using hi), List.length_replicate] at hsome
    exact ⟨i - (rank - shape.length), hsome, by omega⟩

/-- A class that an operand carries is one of its recorded shape, aligned from the last dimension. -/
theorem exists_of_operandClass {rank i : Nat} {x : Var} {c : Int}
    (hc : operandClass isArray rank i s x = c) (hone : c ≠ Shape.sizeOne) :
    isArray x = true ∧ ∃ (shape : Shape) (j : Nat), s.shapes.find? x = some shape ∧
      shape[j]? = some c ∧ i = rank - shape.length + j := by
  obtain ⟨j, hj, hi⟩ := exists_of_padLeading hc hone
  by_cases harray : isArray x = true
  · refine ⟨harray, ?_⟩
    rw [if_pos harray] at hj hi
    cases hx : s.shapes.find? x with
    | none =>
      rw [hx] at hj
      cases hj
    | some shape =>
      rw [hx] at hj hi
      exact ⟨shape, j, rfl, hj, hi⟩
  · rw [if_neg harray] at hj
    cases hj

/-- The length that a known class of an operand stands for is found in the result. -/
theorem Denotes.exists_length (h : s.Denotes v told den)
    (helementwise : v.Elementwise isArray operands target) {x : Var} (hx : x ∈ operands)
    (harray : isArray x = true) {shape : Shape} (hshape : s.shapes.find? x = some shape) {j : Nat}
    {c : Int} (hc : shape[j]? = some c) (hknown : c ≠ Shape.noClass) :
    ∃ k l, k + shape.length = (v.lengths target).length + j ∧ (v.lengths target)[k]? = some l ∧
      den c = .int l := by
  have hfits := h.recorded x shape hshape
  obtain ⟨l, hl, hden⟩ := hfits.exists_of_getElem? hc hknown
  obtain ⟨front, hfront⟩ := helementwise x hx harray
  refine ⟨front.length + j, l, ?_, ?_, hden⟩
  · have hlen := hfits.length_eq
    rw [← hfront, List.length_append]
    omega
  · rw [← hfront, List.getElem?_append_right (Nat.le_add_right _ _), Nat.add_sub_cancel_left]
    exact hl

/-- All classes that the operands carry in one dimension stand for the same length of the result. -/
theorem Denotes.exists_length_of_carried (h : s.Denotes v told den)
    (helementwise : v.Elementwise isArray operands target) {i : Nat} {c : Int}
    (hc : Carried isArray operands (operandRank isArray operands s) s i c) :
    ∃ k l, k + operandRank isArray operands s = (v.lengths target).length + i ∧
      (v.lengths target)[k]? = some l ∧ den c = .int l := by
  obtain ⟨hknown, hone, x, hx, hclass⟩ := hc
  obtain ⟨harray, shape, j, hshape, hj, hi⟩ := exists_of_operandClass hclass hone
  obtain ⟨k, l, hk, hl, hden⟩ := h.exists_length helementwise hx harray hshape hj hknown
  have hle := length_le_operandRank hx harray hshape
  exact ⟨k, l, by omega, hl, hden⟩

/-- Broadcasting unites only classes that stand for the same length. -/
theorem Denotes.den_eq_of_eqvGen (h : s.Denotes v told den)
    (helementwise : v.Elementwise isArray operands target) {c d : Int}
    (hcd : Relation.EqvGen (Aligned isArray operands (operandRank isArray operands s) s) c d) :
    den c = den d := by
  refine map_eq_of_eqvGen ?_ hcd
  rintro c d ⟨i, -, hc, hd⟩
  obtain ⟨k, l, hk, hl, hden⟩ := h.exists_length_of_carried helementwise hc
  obtain ⟨k', l', hk', hl', hden'⟩ := h.exists_length_of_carried helementwise hd
  obtain rfl : k = k' := by omega
  cases hl.symm.trans hl'
  rw [hden, hden']

/-- The longest operand shows every dimension of the result. -/
theorem exists_operandClass_eq (harr : ∃ x ∈ operands, isArray x = true)
    (hrec : ∀ x ∈ operands, isArray x = true → s.has x = true) {i : Nat}
    (hi : i < operandRank isArray operands s) :
    ∃ x ∈ operands, isArray x = true ∧ ∃ (shape : Shape) (c : Int),
      s.shapes.find? x = some shape ∧ shape[i]? = some c ∧
        shape.length = operandRank isArray operands s ∧
        operandClass isArray (operandRank isArray operands s) i s x = c := by
  obtain ⟨x, hx, harray, shape, hshape, hlen⟩ := exists_length_eq_operandRank harr hrec
  have hi' : i < shape.length := by omega
  have hget : shape[i]? = some shape[i] := List.getElem?_eq_getElem hi'
  refine ⟨x, hx, harray, shape, _, hshape, hget, hlen, ?_⟩
  simp only [operandClass, if_pos harray, hshape, Option.getD_some]
  rw [Shape.padLeading_of_le (Nat.le_of_eq hlen.symm), hget, Option.getD_some]

/-- The class of a known dimension of the result stands for its length. -/
theorem Denotes.exists_length_of_resultClass (h : s.Denotes v told den)
    (helementwise : v.Elementwise isArray operands target)
    (harr : ∃ x ∈ operands, isArray x = true)
    (hrec : ∀ x ∈ operands, isArray x = true → s.has x = true) {i : Nat} {c : Int}
    (hi : i < operandRank isArray operands s)
    (hc : ResultClass isArray operands (operandRank isArray operands s) s i c)
    (hknown : c ≠ Shape.noClass) :
    ∃ k l, k + operandRank isArray operands s = (v.lengths target).length + i ∧
      (v.lengths target)[k]? = some l ∧ den c = .int l := by
  have hseen : ¬ HasUnknown isArray operands (operandRank isArray operands s) s i :=
    fun hunknown => hknown (hc.1 hunknown)
  rcases hc.2 hseen with ⟨rfl, hnone⟩ | hcarried
  -- Here all operands show padding or the class of length one, and the longest has no padding.
  · obtain ⟨x, hx, harray, shape, d, hshape, hd, hlen, hclass⟩ :=
      exists_operandClass_eq harr hrec hi
    have hd' : d ≠ Shape.noClass := fun hd => hseen ⟨x, hx, hclass.trans hd⟩
    have hone : d = Shape.sizeOne := by
      by_contra hone
      exact hnone d ⟨hd', hone, x, hx, hclass⟩
    obtain ⟨k, l, hk, hl, hden⟩ := h.exists_length helementwise hx harray hshape hd hd'
    rw [hlen] at hk
    rw [hone] at hden
    exact ⟨k, l, hk, hl, hden⟩
  · exact h.exists_length_of_carried helementwise hcarried

/-- The result of a broadcast fits the lengths of an array that the operands give its lengths, and
classes that it unites stand for what they stood for. -/
theorem Denotes.exists_collapse_broadcast (h : s.Denotes v told den) (hs : s.Bounded)
    (helementwise : v.Elementwise isArray operands target) {out : Shape}
    (hrun : s.broadcast isArray operands = .ok (out, t)) :
    ∃ rep den', Collapse s t rep ∧ (∀ c < s.nextClass, den' (rep c) = den c) ∧
      t.Denotes v told den' ∧
      (out.length = (v.lengths target).length → out.Fits den' (v.lengths target)) := by
  obtain ⟨harr, hrec, hr⟩ := broadcast_eq_ok_iff.mp hrun
  cases hr
  obtain ⟨rep, base, hlen, hprogress⟩ := exists_progress_broadcastAll isArray operands hs
  obtain ⟨den', hden⟩ := Collapse.exists_denotation s rep den
    fun c hc d hd hcd => h.den_eq_of_eqvGen helementwise (hprogress.justified c hc d hd hcd)
  have hunknown := hprogress.rep_noClass hs
  refine ⟨rep, den', hprogress.collapse, hden, h.collapse hs hprogress.collapse hunknown hden,
    fun hlength => ?_⟩
  rw [hprogress.done] at hlength ⊢
  have hbase : Shape.Fits den base (v.lengths target) := by
    rw [List.length_map] at hlength
    refine .of_getElem? hlength fun i c hc hknown => ?_
    have hi : i < base.length := (List.getElem?_eq_some_iff.mp hc).1
    obtain ⟨k, l, hk, hl, hden⟩ := h.exists_length_of_resultClass helementwise harr hrec
      (by rwa [← hlen]) (hprogress.result i c hc) hknown
    obtain rfl : k = i := by omega
    exact ⟨l, hl, hden⟩
  refine hbase.map hunknown fun c hc => ?_
  obtain ⟨i, hi⟩ := List.mem_iff_getElem?.mp hc
  exact hden c ((hprogress.result i c hi).lt hs)

theorem Denotes.broadcast (h : s.Denotes v told den) (hs : s.Bounded)
    (helementwise : v.Elementwise isArray operands target) {out : Shape}
    (hrun : s.broadcast isArray operands = .ok (out, t)) :
    ∃ den', t.Denotes v told den' ∧
      (out.length = (v.lengths target).length → out.Fits den' (v.lengths target)) := by
  obtain ⟨rep, den', -, -, hden', hfits⟩ := h.exists_collapse_broadcast hs helementwise hrun
  exact ⟨den', hden', hfits⟩

/-! ### Matrix products -/

theorem contractedIndex_map (f : Int → Int) (shape : Shape) :
    contractedIndex (shape.map f) = contractedIndex shape := by
  simp only [contractedIndex, List.length_map]

/-- The lengths of a product are found in the same places as its classes. -/
theorem contracted_of_product {left right out : List Nat} (h : Valuation.Product left right out) :
    ∃ k, left.getLast? = some k ∧ right[right.length - 2]? = some k ∧
      out = left.dropLast ++ right.eraseIdx (right.length - 2) := by
  cases h with
  | vector rows k => exact ⟨k, by simp, by simp, by simp⟩
  | matrix rows front k n =>
    have hlen : (front ++ [k, n]).length - 2 = front.length := by simp
    rw [hlen]
    refine ⟨k, by simp, by simp, ?_⟩
    rw [List.eraseIdx_append_of_length_le (Nat.le_refl _)]
    simp

/-- A matrix product unites only classes that stand for the same length, and its result fits. -/
theorem Denotes.matrixProduct (h : s.Denotes v told den) (hs : s.Bounded) {callName : String}
    {a b : Var} {out : Shape} (hrun : s.matrixProduct callName a b = .ok (out, t))
    (hproduct : v.lengths a ≠ [] → v.lengths b ≠ [] →
      Valuation.Product (v.lengths a) (v.lengths b) (v.lengths target)) :
    ∃ den', t.Denotes v told den' ∧ out.Fits den' (v.lengths target) := by
  obtain ⟨shape₁, shape₂, c₁, c₂, rep, ha, hb, hc₁, hc₂, hcollapse, rfl, hrep⟩ :=
    matrixProduct_effect hs hrun
  have hfits₁ := h.recorded a shape₁ ha
  have hfits₂ := h.recorded b shape₂ hb
  have hne₁ := hfits₁.ne_nil (List.mem_of_getLast? hc₁)
  have hne₂ := hfits₂.ne_nil (List.mem_of_getElem? hc₂)
  obtain ⟨k, hk₁, hk₂, hout⟩ := contracted_of_product (hproduct hne₁ hne₂)
  rw [List.getLast?_eq_getElem?, hfits₁.length_eq] at hc₁
  rw [List.getLast?_eq_getElem?] at hk₁
  rw [contractedIndex, hfits₂.length_eq] at hc₂
  have hden₁ := hfits₁.den_eq hc₁ hk₁
  have hden₂ := hfits₂.den_eq hc₂ hk₂
  obtain ⟨den', hden⟩ := Collapse.exists_denotation s rep den (by
    intro c hc d hd hcd
    rcases (hrep c hc d hd).mp hcd with rfl | ⟨h₁, h₂, hc, hd⟩
    · rfl
    · rcases hc with rfl | rfl <;> rcases hd with rfl | rfl <;> simp [hden₁, hden₂, h₁, h₂])
  have hunknown := hcollapse.rep_noClass_of_contract hs hrep
  refine ⟨den', h.collapse hs hcollapse hunknown hden, ?_⟩
  have hmap₁ : Shape.Fits den' (shape₁.map rep) (v.lengths a) :=
    hfits₁.map hunknown fun c hc => hden c (hs.lt_of_recorded a shape₁ ha c hc)
  have hmap₂ : Shape.Fits den' (shape₂.map rep) (v.lengths b) :=
    hfits₂.map hunknown fun c hc => hden c (hs.lt_of_recorded b shape₂ hb c hc)
  rw [hout, productShape, contractedIndex_map, contractedIndex, hfits₂.length_eq]
  exact hmap₁.dropLast.append (hmap₂.eraseIdx _)

end Store

end DimEquiv
