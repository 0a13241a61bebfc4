import DimEquiv.Proofs.TableAgreement
import DimEquiv.UnionLog

/-!
# The size-one class and the mark of unknown dimensions

Padding brings the size-one class into broadcasts, and nothing in a union would protect it. It is safe
since it never stands in a recorded shape: in each dimension of a broadcast an operand of the largest
rank shows a recorded class. Unions are made of positive classes only.
-/

namespace DimEquiv

namespace Store

/-- A positive id that was handed out. -/
def Proper (s : Store) (c : Int) : Prop := 0 < c ∧ c < s.nextClass

/-- What may stand in a recorded shape. -/
def Usable (s : Store) (c : Int) : Prop := c = Shape.noClass ∨ s.Proper c

/-- The special classes have kept their places. -/
structure Reserved (s : Store) : Prop where
  next_pos : 0 < s.nextClass
  recorded : ∀ x shape, s.shapes.find? x = some shape → ∀ c ∈ shape, s.Usable c
  sizeOne : s.classSizes.find? Shape.sizeOne = some [.literal 1]
  sized : ∀ c ∈ s.classSizes.keys, c = Shape.sizeOne ∨ s.Proper c

/-- The store `t` arises from `s` by operations that respect the special classes, among them the
unions in `us`, oldest first. -/
inductive Evolution (s : Store) : List (Int × Int) → Store → Prop
  | refl : Evolution s [] s
  | addClass {us : List (Int × Int)} {t : Store} (h : Evolution s us t)
    (size : Option SizeValue) : Evolution s us (t.addClass size).2
  | unite {us : List (Int × Int)} {t : Store} (h : Evolution s us t) {c d : Int}
    (hc : t.Proper c) (hd : t.Proper d) (hne : c ≠ d) :
    Evolution s (us ++ [(c, d)]) (t.unite c d).2
  | record {us : List (Int × Int)} {t : Store} (h : Evolution s us t) (x : Var) {shape : Shape}
    (hshape : ∀ c ∈ shape, t.Usable c) : Evolution s us (t.record x shape).2
  | represent {us : List (Int × Int)} {t : Store} (h : Evolution s us t) {c : Int}
    (hc : t.Usable c) (size : SizeValue) : Evolution s us (t.represent c size)
  | setSizeVars {us : List (Int × Int)} {t : Store} (h : Evolution s us t) (x : Var)
    (sizes : List SizeValue) : Evolution s us (t.setSizeVars x sizes)

variable {s t u : Store} {us vs : List (Int × Int)}

/-! ### Each operation respects the special classes -/

theorem Proper.mono {c : Int} (hc : s.Proper c) (h : s.nextClass ≤ t.nextClass) : t.Proper c :=
  ⟨hc.1, Int.lt_of_lt_of_le hc.2 h⟩

theorem Usable.mono {c : Int} (hc : s.Usable c) (h : s.nextClass ≤ t.nextClass) : t.Usable c :=
  hc.imp_right fun hc => hc.mono h

theorem usable_of_unknown {rank : Nat} {c : Int} (hc : c ∈ Shape.unknown rank) : s.Usable c :=
  .inl (Shape.eq_noClass_of_mem hc)

theorem Usable.proper {c : Int} (hc : s.Usable c) (hknown : c ≠ Shape.noClass) : s.Proper c :=
  hc.resolve_left hknown

@[simp] theorem nextClass_represent (s : Store) (c : Int) (size : SizeValue) :
    (s.represent c size).nextClass = s.nextClass := by
  unfold represent
  split <;> rfl

namespace Reserved

theorem bounded (h : s.Reserved) : s.Bounded where
  next_pos := h.next_pos
  lt_of_recorded := by
    intro x shape hx c hc
    rcases h.recorded x shape hx c hc with rfl | hc
    · exact Int.lt_trans (by decide) h.next_pos
    · exact hc.2
  lt_of_sized := by
    intro c hc
    rcases h.sized c hc with rfl | hc
    · exact h.next_pos
    · exact hc.2

theorem find?_noClass (h : s.Reserved) : s.classSizes.find? Shape.noClass = none := by
  rw [← Option.not_isSome_iff_eq_none]
  intro hsome
  rcases h.sized _ ((Table.contains_iff_mem_keys ..).mp hsome) with heq | hproper
  · exact absurd heq (by decide)
  · exact absurd hproper.1 (by decide)

theorem empty : Store.empty.Reserved where
  next_pos := by decide
  recorded := by
    intro x shape hx
    cases hx
  sizeOne := rfl
  sized := by
    intro c hc
    rcases (Table.mem_keys_insert ..).mp hc with rfl | hc
    · exact .inl rfl
    · cases hc

theorem addClass (h : s.Reserved) (size : Option SizeValue) : (s.addClass size).2.Reserved := by
  have hnext : s.nextClass < (s.addClass size).2.nextClass := by
    rw [nextClass_addClass]
    exact Int.lt_succ _
  refine ⟨(h.bounded.addClass size).next_pos, fun x shape hx c hc => ?_, ?_, fun c hc => ?_⟩
  · rw [shapes_addClass] at hx
    exact (h.recorded x shape hx c hc).mono (Int.le_of_lt hnext)
  · have hne : s.nextClass ≠ Shape.sizeOne := Int.ne_of_gt h.next_pos
    simp only [Store.addClass, allocate]
    split
    · rw [putSizes, Table.find?_insert, if_neg hne]
      exact h.sizeOne
    · exact h.sizeOne
  · rcases keys_addClass size hc with hc | rfl
    · exact (h.sized c hc).imp_right fun hc => hc.mono (Int.le_of_lt hnext)
    · exact .inr ⟨h.next_pos, hnext⟩

/-- Unions of proper classes leave the special ones alone. -/
theorem unite (h : s.Reserved) {c d : Int} (hc : s.Proper c) (hd : s.Proper d) :
    (s.unite c d).2.Reserved := by
  have hnext : s.nextClass < (s.unite c d).2.nextClass := by
    rw [nextClass_unite]
    exact Int.lt_succ _
  have hmerged : (s.unite c d).2.Proper s.nextClass := ⟨h.next_pos, hnext⟩
  refine ⟨Int.lt_trans h.next_pos hnext, fun x shape hx e he => ?_, ?_, fun e he => ?_⟩
  · rw [find?_shapes_unite, Option.map_eq_some_iff] at hx
    obtain ⟨before, hbefore, rfl⟩ := hx
    obtain ⟨e, hmem, rfl⟩ := List.mem_map.mp he
    split
    · exact .inr hmerged
    · exact (h.recorded x before hbefore e hmem).mono (Int.le_of_lt hnext)
  · have hne : s.nextClass ≠ Shape.sizeOne := Int.ne_of_gt h.next_pos
    have hcd : ¬ (d = Shape.sizeOne ∨ c = Shape.sizeOne) :=
      not_or.mpr ⟨Int.ne_of_gt hd.1, Int.ne_of_gt hc.1⟩
    rw [find?_classSizes_unite, if_neg hne, if_neg hcd]
    exact h.sizeOne
  · rw [← Table.contains_iff_mem_keys, Table.contains, find?_classSizes_unite] at he
    split at he
    · rename_i hnew
      exact .inr (hnew ▸ hmerged)
    · split at he
      · cases he
      · exact (h.sized e ((Table.contains_iff_mem_keys ..).mp he)).imp_right
          fun he => he.mono (Int.le_of_lt hnext)

theorem record (h : s.Reserved) (x : Var) {shape : Shape} (hshape : ∀ c ∈ shape, s.Usable c) :
    (s.record x shape).2.Reserved := by
  refine ⟨?_, fun y other hy c hc => ?_, ?_, fun c hc => ?_⟩
  · rw [nextClass_record]
    exact h.next_pos
  · refine Usable.mono ?_ (Int.le_of_eq (nextClass_record s x shape).symm)
    rw [find?_shapes_record] at hy
    split at hy
    · split at hy
      · cases hy
        exact hshape c hc
      · cases hy
        split at hc
        · exact hshape c hc
        · exact usable_of_unknown hc
    · exact h.recorded y other hy c hc
  · rw [classSizes_record]
    exact h.sizeOne
  · rw [classSizes_record] at hc
    exact (h.sized c hc).imp_right fun hc => hc.mono (Int.le_of_eq (nextClass_record s x shape).symm)

theorem represent (h : s.Reserved) {c : Int} (hc : s.Usable c) (size : SizeValue) :
    (s.represent c size).Reserved := by
  unfold Store.represent
  split
  · exact h
  · rename_i hknown
    have hproper := hc.proper hknown
    refine ⟨h.next_pos, h.recorded, ?_, fun d hd => ?_⟩
    · rw [putSizes, Table.find?_insert, if_neg (Int.ne_of_gt hproper.1)]
      exact h.sizeOne
    · rcases (Table.mem_keys_insert ..).mp hd with rfl | hd
      · exact .inr hproper
      · exact h.sized d hd

theorem setSizeVars (h : s.Reserved) (x : Var) (sizes : List SizeValue) :
    (s.setSizeVars x sizes).Reserved :=
  ⟨h.next_pos, h.recorded, h.sizeOne, h.sized⟩

end Reserved

namespace Evolution

theorem trans (h : s.Evolution us t) (h' : t.Evolution vs u) : s.Evolution (us ++ vs) u := by
  induction h' with
  | refl => simpa using h
  | addClass _ size ih => exact ih.addClass size
  | unite _ hc hd hne ih =>
    rw [← List.append_assoc]
    exact ih.unite hc hd hne
  | record _ x hshape ih => exact ih.record x hshape
  | represent _ hc size ih => exact ih.represent hc size
  | setSizeVars _ x sizes ih => exact ih.setSizeVars x sizes

/-- A store with special classes in their places evolves into one. -/
theorem reserved (h : s.Evolution us t) (hs : s.Reserved) : t.Reserved := by
  induction h with
  | refl => exact hs
  | addClass _ size ih => exact ih.addClass size
  | unite _ hc hd _ ih => exact ih.unite hc hd
  | record _ x hshape ih => exact ih.record x hshape
  | represent _ hc size ih => exact ih.represent hc size
  | setSizeVars _ x sizes ih => exact ih.setSizeVars x sizes

theorem nextClass_le (h : s.Evolution us t) : s.nextClass ≤ t.nextClass := by
  induction h with
  | refl => exact Int.le_refl _
  | addClass _ size ih =>
    rw [nextClass_addClass]
    omega
  | unite _ _ _ _ ih =>
    rw [nextClass_unite]
    omega
  | record _ x _ ih =>
    rw [nextClass_record]
    exact ih
  | represent _ _ size ih =>
    rw [nextClass_represent]
    exact ih
  | setSizeVars _ x sizes ih => exact ih

/-- All unions are made of two positive classes. -/
theorem positive (h : s.Evolution us t) : ∀ c d, (c, d) ∈ us → 0 < c ∧ 0 < d ∧ c ≠ d := by
  induction h with
  | refl => simp
  | unite _ hc hd hne ih =>
    intro c d hcd
    rcases List.mem_append.mp hcd with hcd | hcd
    · exact ih c d hcd
    · cases List.mem_singleton.mp hcd
      exact ⟨hc.1, hd.1, hne⟩
  | addClass _ _ ih => exact ih
  | record _ _ _ ih => exact ih
  | represent _ _ _ ih => exact ih
  | setSizeVars _ _ _ ih => exact ih

theorem addClasses (s : Store) (sizes : List (Option SizeValue)) :
    s.Evolution [] (addClasses sizes s).2 := by
  induction sizes generalizing s with
  | nil => exact .refl
  | cons size sizes ih => exact (addClass .refl size).trans (ih _)

end Evolution

end Store

/-! ### Broadcasts -/

namespace Broadcast

open Store

variable {isArray : Var → Bool} {operands : List Var} {rank : Nat} {b : Broadcast} {s : Store}

/-- Between two operands the tables are in order and the candidate can be united. -/
structure Guarded (b : Broadcast) : Prop where
  store : b.store.Reserved
  candidate : b.candidate = Shape.sizeOne ∨ b.store.Proper b.candidate

theorem operandClass_usable (isArray : Var → Bool) (rank : Nat) (hs : s.Reserved) (i : Nat) (x : Var) :
    operandClass isArray rank i s x = Shape.sizeOne ∨
      s.Usable (operandClass isArray rank i s x) := by
  simp only [operandClass]
  cases hc : (Shape.padLeading rank (if isArray x then (s.shapes.find? x).getD [] else []))[i]? with
  | none => exact .inl rfl
  | some c =>
    rw [Option.getD_some]
    rcases List.mem_append.mp (List.mem_of_getElem? hc) with hc | hc
    · exact .inl (List.eq_of_mem_replicate hc)
    · split at hc
      · cases hx : s.shapes.find? x with
        | none => simp [hx] at hc
        | some shape =>
          rw [hx, Option.getD_some] at hc
          exact .inr (hs.recorded x shape hx c hc)
      · cases hc

/-- A class is taken in without a union, or united with the candidate. -/
theorem take_cases (b : Broadcast) (c : Int) :
    (b.unions c = [] ∧ (b.take c).store = b.store ∧ (b.take c).done = b.done ∧
        ((b.take c).candidate = b.candidate ∨ (b.take c).candidate = c ∧ c ≠ Shape.noClass)) ∨
      (b.candidate ≠ Shape.sizeOne ∧ c ≠ Shape.noClass ∧ c ≠ Shape.sizeOne ∧ b.candidate ≠ c ∧
        b.unions c = [(b.candidate, c)] ∧
        b.take c = { b with
          store := (b.store.unite b.candidate c).2
          done := b.done.rename [b.candidate, c] b.store.nextClass
          candidate := b.store.nextClass }) := by
  by_cases hunknown : c = Shape.noClass
  · rw [take, unions, if_pos hunknown, if_pos (.inl hunknown)]
    exact .inl ⟨rfl, rfl, rfl, .inl rfl⟩
  by_cases hsame : c = Shape.sizeOne ∨ c = b.candidate
  · rw [take, unions, if_neg hunknown, if_pos hsame, if_pos (by tauto)]
    exact .inl ⟨rfl, rfl, rfl, .inl rfl⟩
  by_cases hfirst : b.candidate = Shape.sizeOne
  · rw [take, unions, if_neg hunknown, if_neg hsame, if_pos hfirst, if_pos (by tauto)]
    exact .inl ⟨rfl, rfl, rfl, .inr ⟨rfl, hunknown⟩⟩
  · rw [take, unions, if_neg hunknown, if_neg hsame, if_neg hfirst, if_neg (by tauto)]
    rw [not_or] at hsame
    exact .inr ⟨hfirst, hunknown, hsame.1, Ne.symm hsame.2, rfl, rfl⟩

theorem take_guarded (hb : b.Guarded) {c : Int} (hc : c = Shape.sizeOne ∨ b.store.Usable c) :
    (b.take c).Guarded ∧ b.store.Evolution (b.unions c) (b.take c).store := by
  rcases take_cases b c with
    ⟨hunions, hstore, -, hcandidate⟩ | ⟨hfirst, hunknown, hlong, hne, hunions, htake⟩
  · rw [hunions]
    refine ⟨⟨hstore ▸ hb.store, ?_⟩, hstore ▸ .refl⟩
    rw [hstore]
    rcases hcandidate with hcandidate | ⟨hcandidate, hknown⟩
    · rw [hcandidate]
      exact hb.candidate
    · rw [hcandidate]
      exact hc.imp_right fun hc => hc.proper hknown
  · have hcandidate := hb.candidate.resolve_left hfirst
    have hproper : b.store.Proper c := (hc.resolve_left hlong).proper hunknown
    rw [hunions, htake]
    exact ⟨⟨hb.store.unite hcandidate hproper, .inr ⟨hb.store.next_pos, Int.lt_succ _⟩⟩,
      Evolution.refl.unite hcandidate hproper hne⟩

theorem takeAll_guarded (isArray : Var → Bool) (rank : Nat) (hb : b.Guarded) (i : Nat)
    (xs : List Var) :
    (xs.foldl (fun b x => b.take (operandClass isArray rank i b.store x)) b).Guarded ∧
      b.store.Evolution (operandUnions isArray rank i xs b)
        (xs.foldl (fun b x => b.take (operandClass isArray rank i b.store x)) b).store := by
  induction xs generalizing b with
  | nil => exact ⟨hb, .refl⟩
  | cons x xs ih =>
    obtain ⟨hguarded, hevolution⟩ :=
      take_guarded hb (operandClass_usable isArray rank hb.store i x)
    obtain ⟨hguarded', hevolution'⟩ := ih hguarded
    exact ⟨hguarded', hevolution.trans hevolution'⟩

theorem dimension_guarded (isArray : Var → Bool) (operands : List Var) (rank : Nat)
    (hb : b.store.Reserved) (i : Nat) :
    (b.dimension isArray operands rank i).store.Reserved ∧
      b.store.Evolution
        (operandUnions isArray rank i operands
          { b with candidate := Shape.sizeOne, sawUnknown := false })
        (b.dimension isArray operands rank i).store := by
  have hstart : { b with candidate := Shape.sizeOne, sawUnknown := false }.Guarded := ⟨hb, .inl rfl⟩
  obtain ⟨hguarded, hevolution⟩ := takeAll_guarded isArray rank hstart i operands
  exact ⟨hguarded.store, hevolution⟩

theorem dimensions_evolution (hb : b.store.Reserved) (is : List Nat) :
    b.store.Evolution (dimensionUnions isArray operands rank is b)
      (is.foldl (Broadcast.dimension isArray operands rank) b).store := by
  induction is generalizing b with
  | nil => exact .refl
  | cons i is ih =>
    obtain ⟨hreserved, hevolution⟩ := dimension_guarded isArray operands rank hb i
    exact hevolution.trans (ih hreserved)

end Broadcast

namespace Store

open Broadcast

variable {isArray : Var → Bool} {operands : List Var} {s t : Store} {out : Shape}

/-- The unions of a broadcast are those of its log. -/
theorem broadcast_evolution (hs : s.Reserved) :
    s.Evolution (s.broadcastUnions isArray operands)
      ((Attempt.ofExcept (Store.broadcast isArray operands)).run s).2 := by
  rw [Attempt.run_ofExcept, broadcastUnions, Store.broadcast]
  cases operands.filter isArray with
  | nil => exact .refl
  | cons x xs =>
    simp only
    cases (x :: xs).mapM s.lookup with
    | error e => exact .refl
    | ok shapes => exact dimensions_evolution (b := .start s) hs _

/-- In each dimension an operand of the largest rank shows a recorded class. -/
theorem broadcast_usable (hs : s.Reserved) (h : s.broadcast isArray operands = .ok (out, t)) :
    ∀ c ∈ out, t.Usable c := by
  obtain ⟨harr, hrec, hr⟩ := broadcast_eq_ok_iff.mp h
  obtain ⟨rep, base, hlen, hprogress⟩ := exists_progress_broadcastAll isArray operands hs.bounded
  obtain ⟨x, hx, hax, shape, hshape, hfull⟩ := exists_length_eq_operandRank harr hrec
  cases hr
  intro c hc
  rw [hprogress.done] at hc
  obtain ⟨d, hd, rfl⟩ := List.mem_map.mp hc
  obtain ⟨j, hj⟩ := List.mem_iff_getElem?.mp hd
  have hjlt : j < shape.length := by
    rw [hfull, ← hlen]
    exact (List.getElem?_eq_some_iff.mp hj).1
  have hshown : operandClass isArray (operandRank isArray operands s) j s x = shape[j] := by
    rw [operandClass, if_pos hax, hshape, Option.getD_some, Shape.padLeading_of_le (by omega),
      List.getElem?_eq_getElem hjlt, Option.getD_some]
  have hresult := hprogress.result j d hj
  by_cases hunknown : HasUnknown isArray operands (operandRank isArray operands s) s j
  · rw [hresult.1 hunknown, hprogress.rep_noClass hs.bounded]
    exact .inl rfl
  rcases hresult.2 hunknown with ⟨-, hnone⟩ | hcarried
  · have husable := hs.recorded x shape hshape shape[j] (List.getElem_mem hjlt)
    rcases husable with hclass | hproper
    · exact absurd ⟨x, hx, hshown.trans hclass⟩ hunknown
    · refine absurd ⟨?_, ?_, x, hx, hshown⟩ (hnone shape[j])
      · rintro hclass
        exact absurd (hclass ▸ hproper.1) (by decide)
      · exact Int.ne_of_gt hproper.1
  · have hproper : s.Proper d := by
      obtain ⟨hknown, hlong, y, -, hy⟩ := hcarried
      have husable := operandClass_usable isArray (operandRank isArray operands s) hs j y
      rw [hy] at husable
      exact (husable.resolve_left hlong).proper hknown
    refine .inr ⟨?_, hprogress.collapse.rep_lt d hproper.2⟩
    rcases hprogress.collapse.self_or_new d hproper.2 with hself | hnew
    · rw [hself]
      exact hproper.1
    · exact Int.lt_of_lt_of_le hs.next_pos hnew

/-! ### Matrix products -/

theorem matrixProduct_of_find? (callName : String) {a b : Var} {shape₁ shape₂ : Shape} {c₁ c₂ : Int}
    (ha : s.shapes.find? a = some shape₁) (hb : s.shapes.find? b = some shape₂)
    (h₁ : shape₁.getLast? = some c₁) (h₂ : shape₂[contractedIndex shape₂]? = some c₂) :
    ∃ out, s.matrixProduct callName a b =
      .ok (out, if c₁ = Shape.noClass ∨ c₂ = Shape.noClass then s else (s.equate c₁ c₂).2) := by
  have hlook : ∀ x shape, s.shapes.find? x = some shape → ∃ shape',
      (if c₁ = Shape.noClass ∨ c₂ = Shape.noClass then s else (s.equate c₁ c₂).2).lookup x =
        .ok shape' := by
    intro x shape hx
    simp only [lookup_eq_ok_iff]
    split
    · exact ⟨shape, hx⟩
    · by_cases hne : c₁ = c₂
      · rw [hne, equate_self]
        exact ⟨shape, hx⟩
      · rw [equate_of_ne s hne, find?_shapes_unite, hx]
        exact ⟨_, rfl⟩
  obtain ⟨shape₁', ha'⟩ := hlook a shape₁ ha
  obtain ⟨shape₂', hb'⟩ := hlook b shape₂ hb
  rw [← lookup_eq_ok_iff] at ha hb
  refine ⟨productShape shape₁' shape₂', ?_⟩
  simp only [matrixProduct, ha, hb, bind, Except.bind, h₁, h₂, ha', hb']
  rfl

/-- A product leaves the store alone, or unites two classes in it. -/
theorem run_matrixProduct_cases (hs : s.Reserved) (callName : String) (a b : Var) :
    (s.productUnions a b = [] ∧ ((Attempt.ofExcept (matrixProduct callName a b)).run s).2 = s) ∨
      ∃ c d, s.Proper c ∧ s.Proper d ∧ c ≠ d ∧ s.productUnions a b = [(c, d)] ∧
        ((Attempt.ofExcept (matrixProduct callName a b)).run s).2 = (s.unite c d).2 := by
  rw [Attempt.run_ofExcept]
  cases h : s.matrixProduct callName a b with
  | error e =>
    refine .inl ⟨?_, rfl⟩
    unfold productUnions
    split
    · rename_i ha hb
      split
      · rename_i h₁ h₂
        obtain ⟨out, hok⟩ := matrixProduct_of_find? callName ha hb h₁ h₂
        rw [hok] at h
        cases h
      · rfl
    · rfl
  | ok r =>
    obtain ⟨out, t⟩ := r
    obtain ⟨shape₁, shape₂, c₁, c₂, -, ha, hb, h₁, h₂, -⟩ := matrixProduct_effect hs.bounded h
    obtain ⟨out', hok⟩ := matrixProduct_of_find? callName ha hb h₁ h₂
    obtain ⟨rfl, rfl⟩ := Prod.mk.inj (Except.ok.inj (h.symm.trans hok))
    have hc₁ := hs.recorded a shape₁ ha c₁ (List.mem_of_getLast? h₁)
    have hc₂ := hs.recorded b shape₂ hb c₂ (List.mem_of_getElem? h₂)
    simp only [productUnions, ha, hb, h₁, h₂]
    by_cases hunknown : c₁ = Shape.noClass ∨ c₂ = Shape.noClass
    · rw [if_pos hunknown, if_pos (by tauto)]
      exact .inl ⟨rfl, rfl⟩
    by_cases hne : c₁ = c₂
    · rw [if_neg hunknown, if_pos (by tauto), hne, equate_self]
      exact .inl ⟨rfl, rfl⟩
    · rw [if_neg hunknown, if_neg (by tauto), equate_of_ne s hne]
      rw [not_or] at hunknown
      exact .inr ⟨c₁, c₂, hc₁.proper hunknown.1, hc₂.proper hunknown.2, hne, rfl, rfl⟩

theorem product_evolution (hs : s.Reserved) (callName : String) (a b : Var) :
    s.Evolution (s.productUnions a b)
      ((Attempt.ofExcept (matrixProduct callName a b)).run s).2 := by
  rcases run_matrixProduct_cases hs callName a b with
    ⟨hunions, hstore⟩ | ⟨c, d, hc, hd, hne, hunions, hstore⟩
  · rw [hunions, hstore]
    exact .refl
  · rw [hunions, hstore]
    exact Evolution.refl.unite hc hd hne

/-- The dimensions of a product are among those of its operands. -/
theorem product_usable (hs : s.Reserved) {callName : String} {a b : Var} (ht : t.Reserved)
    (h : s.matrixProduct callName a b = .ok (out, t)) : ∀ c ∈ out, t.Usable c := by
  obtain ⟨shape₁, shape₂, -, -, rep, ha, hb, -, -, hcollapse, rfl, -⟩ :=
    matrixProduct_effect hs.bounded h
  have hfind : ∀ x shape, s.shapes.find? x = some shape →
      t.shapes.find? x = some (shape.map rep) := by
    intro x shape hx
    rw [hcollapse.find?_shapes, hx, Option.map_some]
  intro c hc
  rcases List.mem_append.mp hc with hc | hc
  · exact ht.recorded a _ (hfind a shape₁ ha) c (List.dropLast_subset _ hc)
  · exact ht.recorded b _ (hfind b shape₂ hb) c (List.mem_of_mem_eraseIdx hc)

end Store

/-! ### Every rule -/

namespace ShapeRule

open Store

variable {isArray : Var → Bool} {s t : Store}

theorem apply_evolution (isArray : Var → Bool) (hs : s.Reserved) (rule : ShapeRule) :
    s.Evolution (rule.unions isArray s) ((rule.apply isArray).run s).2 := by
  cases rule with
  | fail made e => exact .addClasses s made
  | parameter name rank =>
    simp only [apply, Attempt.run_bind, Attempt.run_ofReader]
    split
    · exact .refl
    · exact .addClasses s _
  | copy x => exact .refl
  | reverse x =>
    rw [run_apply_reverse]
    exact .refl
  | create sizes => exact .addClasses s sizes
  | elementwise operands => exact broadcast_evolution hs
  | product callName a b => exact product_evolution hs callName a b

theorem apply_usable (hs : s.Reserved) (rule : ShapeRule) {shape : Shape}
    (h : (rule.apply isArray).run s = (.ok shape, t)) : ∀ c ∈ shape, t.Usable c := by
  have ht : t.Reserved := by
    have hevolution := apply_evolution isArray hs rule
    rw [h] at hevolution
    exact hevolution.reserved hs
  have hnew : ∀ sizes, (Infer.newClasses sizes).run s = (.ok shape, t) →
      ∀ c ∈ shape, t.Usable c := by
    intro sizes hsizes c hc
    cases hsizes
    obtain ⟨hle, hlt⟩ := mem_addClasses hc
    exact .inr ⟨Int.lt_of_lt_of_le hs.next_pos hle, hlt⟩
  have hrecorded : ∀ x before, t.lookup x = .ok before → ∀ c ∈ before, t.Usable c := by
    intro x before hlook
    exact ht.recorded x before ((lookup_eq_ok_iff ..).mp hlook)
  have hcopy : ∀ x, (Infer.shapeOf x).run s = (.ok shape, t) → ∀ c ∈ shape, t.Usable c := by
    intro x hx
    obtain ⟨hlook, rfl⟩ := Prod.mk.inj hx
    exact hrecorded x shape hlook
  cases rule with
  | fail made e => cases h
  | parameter name rank =>
    simp only [apply, Attempt.run_bind, Attempt.run_ofReader] at h
    split at h
    · exact hcopy name h
    · exact hnew _ h
  | copy x => exact hcopy x h
  | reverse x =>
    rw [run_apply_reverse] at h
    obtain ⟨hreverse, rfl⟩ := Prod.mk.inj h
    cases hlook : s.lookup x with
    | error e =>
      rw [hlook] at hreverse
      cases hreverse
    | ok before =>
      rw [hlook] at hreverse
      cases hreverse
      intro c hc
      exact hrecorded x before hlook c (List.mem_reverse.mp hc)
  | create sizes => exact hnew sizes h
  | elementwise operands => exact broadcast_usable hs (Attempt.eq_ok_of_run_ofExcept h)
  | product callName a b => exact product_usable hs ht (Attempt.eq_ok_of_run_ofExcept h)

end ShapeRule

/-! ### The analysis -/

namespace SizeRead

variable {array : Var} {dim : Nat} {s t : State} {us : List (Int × Int)}

theorem Visited.evolution {c : Int} {reads : List Assign} {size : SizeValue}
    (h : Visited array dim c s reads size t) (hc : s.store.Usable c) :
    s.store.Evolution [] t.store := by
  rcases h.store_eq with ⟨-, hstore⟩ | ⟨-, hstore⟩
  · rw [hstore]
    exact .refl
  · rw [hstore]
    exact .represent .refl hc size

theorem VisitedAll.evolution {cs : Shape} {r : SizeReads} (h : VisitedAll array dim cs s r t)
    (hcs : ∀ c ∈ cs, s.store.Usable c) : s.store.Evolution [] t.store := by
  induction h with
  | nil => exact .refl
  | @cons dim c cs s t u reads size rest h hrest ih =>
    have hfirst := h.evolution (hcs c List.mem_cons_self)
    refine hfirst.trans (ih fun d hd => ?_)
    exact (hcs d (List.mem_cons_of_mem c hd)).mono hfirst.nextClass_le

end SizeRead

namespace Pass

variable {options : Options} {s t : State}

theorem Recorded.evolution {a : Assign} {shape : Shape} {reads : List Assign}
    (h : Recorded a shape s reads t) (hshape : ∀ c ∈ shape, s.store.Usable c) :
    s.store.Evolution [] t.store := by
  have hrecord : s.store.Evolution [] (s.store.record a.target shape).2 :=
    .record .refl a.target hshape
  cases h with
  | conflict h hne => exact hrecord
  | sized h hvisited =>
    refine .setSizeVars (hrecord.trans (hvisited.evolution fun c hc => ?_)) _ _
    exact (hshape c hc).mono hrecord.nextClass_le

theorem instructionUnions_of_scalar (options : Options) (a : Assign) (h : s.rank? a.target = none) :
    instructionUnions options (.assign a) s = [] := by
  rw [State.rank?] at h
  simp only [instructionUnions, h]
  rfl

theorem instructionUnions_of_array (options : Options) (a : Assign) {rank : Nat}
    (h : s.rank? a.target = some rank) :
    instructionUnions options (.assign a) s =
      (((s.observe a).scope options).reading.ruleOf a.target a.value).unions
        ((s.observe a).scope options).isArray s.store := by
  rw [State.rank?] at h
  simp only [instructionUnions, h, Option.isSome_some, if_true]

/-- Inference for an assignment applies the rule of its value. -/
theorem inferred_eq_apply (options : Options) (a : Assign) (s : State) :
    inferred options a s =
      ((((s.observe a).scope options).reading.ruleOf a.target a.value).apply
        ((s.observe a).scope options).isArray).run s.store := by
  rw [Scope.apply_ruleOf]
  rfl

theorem Assigned.evolution {a : Assign} {reads : List Assign} (h : Assigned options a s reads t)
    (hs : s.store.Reserved) :
    s.store.Evolution (instructionUnions options (.assign a) s) t.store := by
  cases h with
  | scalar hrank =>
    rw [instructionUnions_of_scalar options a hrank]
    exact .refl
  | @array rank shape ds reads t hrank hsettle hrecorded =>
    have hinfer : s.store.Evolution (instructionUnions options (.assign a) s)
        (inferred options a s).2 := by
      rw [instructionUnions_of_array options a hrank, inferred_eq_apply]
      exact ShapeRule.apply_evolution _ hs _
    have hshape : ∀ c ∈ shape, (inferred options a s).2.Usable c := by
      rcases eq_of_settle hsettle with hok | rfl
      · exact ShapeRule.apply_usable hs _
          ((inferred_eq_apply options a s).symm.trans (Prod.ext hok rfl))
      · exact fun c hc => Store.usable_of_unknown hc
    have hrest : (inferred options a s).2.Evolution [] t.store := hrecorded.evolution hshape
    simpa using hinfer.trans hrest

theorem instruction_evolution {i : Instruction} {out : List Instruction} (hs : s.store.Reserved)
    (h : (instruction options i).run s = (.ok out, t)) :
    s.store.Evolution (instructionUnions options i s) t.store := by
  cases i with
  | assign a =>
    simp only [instruction, Attempt.run_bind] at h
    split at h
    · rename_i reads t' ha
      cases h
      exact (assigned_of_run ha).evolution hs
    · cases h
  | ret => cases h; exact .refl
  | jump => cases h; exact .refl
  | branch => cases h; exact .refl
  | del => cases h; exact .refl

/-- The log of a run lists its unions. -/
theorem body_evolution {is out : List Instruction} (hs : s.store.Reserved)
    (h : (body options is).run s = (.ok out, t)) :
    s.store.Evolution (unions options is s) t.store := by
  induction is generalizing out s with
  | nil =>
    cases h
    exact .refl
  | cons i is ih =>
    simp only [body, Attempt.run_bind] at h
    split at h
    · rename_i first s₁ hfirst
      split at h
      · rename_i rest s₂ hrest
        cases h
        have hstep := instruction_evolution hs hfirst
        simp only [unions, hfirst]
        exact hstep.trans (ih (hstep.reserved hs) hrest)
      · cases h
    · cases h

end Pass

/-- At every point of a run, also of one that fails later, the special classes are in their places:
recorded classes are unknown or positive, the size-one class keeps its entry, and all unions so far
were made of two positive classes. -/
theorem reaches_reserved {options : Options} {p : Program} {types : Types} {callTypes : CallTypes}
    {before : List Instruction} {t : State} (h : Reaches options p types callTypes before t) :
    t.store.Reserved ∧ t.store.classSizes.find? Shape.noClass = none ∧
      Store.empty.Evolution (Pass.unions options before (.start p types callTypes)) t.store ∧
      ∀ c d, (c, d) ∈ Pass.unions options before (.start p types callTypes) →
        0 < c ∧ 0 < d ∧ c ≠ d := by
  obtain ⟨out, hrun⟩ := h.run
  have hstart : (State.start p types callTypes).store.Reserved := .empty
  have hevolution := Pass.body_evolution hstart hrun
  have hreserved := hevolution.reserved hstart
  exact ⟨hreserved, hreserved.find?_noClass, hevolution, hevolution.positive⟩

/-- A sum and a matrix product in one block, and in the next a copy of an array that was never
assigned. -/
def brokenProgram : Program where
  name := "broken"
  argNames := ["a", "b"]
  blocks := [
    ⟨0, [
      .assign ⟨"a", .arg 0 "a", none, 0⟩,
      .assign ⟨"b", .arg 1 "b", none, 1⟩,
      .assign ⟨"np", .global "np" ⟨.moduleRef, "numpy"⟩, none, 2⟩,
      .assign ⟨"dot", .getattr "np" "dot", none, 3⟩,
      .assign ⟨"c", .binop "+" "a" "b", none, 4⟩,
      .assign ⟨"d", .call "dot" ["a", "c"], none, 5⟩,
      .jump 1]⟩,
    ⟨1, [.assign ⟨"e", .var "z", none, 6⟩]⟩]

def brokenTypes : Types :=
  .ofList [("a", .arrayOf 2), ("b", .arrayOf 1), ("c", .arrayOf 2), ("d", .arrayOf 2),
    ("e", .arrayOf 1), ("z", .arrayOf 1)]

theorem reaches_reserved_broken :
    ∃ t, Reaches .standard brokenProgram brokenTypes (.empty 7) (brokenProgram.instructions.take 7) t ∧
      t.store.Reserved ∧ t.store.shapes.find? "c" = some [5, 5] ∧
      Pass.unions .standard (brokenProgram.instructions.take 7)
        (.start brokenProgram brokenTypes (.empty 7)) = [(2, 3), (4, 1)] ∧
      (analyze .standard brokenProgram brokenTypes (.empty 7)).outcome.isOk = false := by
  have hreaches : Reaches .standard brokenProgram brokenTypes (.empty 7)
      (brokenProgram.instructions.take 7) _ :=
    reaches_of_isOk (List.take_prefix _ _) (by decide +kernel)
  obtain ⟨hreserved, -⟩ := reaches_reserved hreaches
  exact ⟨_, hreaches, hreserved, by decide +kernel, by decide +kernel, by decide +kernel⟩

end DimEquiv
