import DimEquiv.Broadcast
import DimEquiv.Proofs.ClassCollapse
import Mathlib.Logic.Relation

/-!
# The exact effect of a broadcast

The classes that the operands carry in one dimension become one class, and nothing else is made
equal. The loop reads the tables that it changes, so every class is traced back to the one that
stood in its place at the start: the state of the loop is the start, seen through the map that
sends each class to the class it has become.
-/

namespace DimEquiv.Broadcast

open Relation Store

section

variable (isArray : Var → Bool) (operands : List Var) (rank : Nat) (s : Store)

/-- The class `c`, neither unknown nor of size one, stands in dimension `i` of an operand. -/
def Carried (i : Nat) (c : Int) : Prop :=
  c ≠ Shape.noClass ∧ c ≠ Shape.sizeOne ∧ ∃ x ∈ operands, operandClass isArray rank i s x = c

/-- Two classes that the operands carry in the same dimension. -/
def Aligned (c d : Int) : Prop :=
  ∃ i < rank, Carried isArray operands rank s i c ∧ Carried isArray operands rank s i d

/-- Dimension `i` of some operand is unknown. -/
def HasUnknown (i : Nat) : Prop :=
  ∃ x ∈ operands, operandClass isArray rank i s x = Shape.noClass

/-- The class `c` stands for dimension `i` of the result, before any union. -/
def ResultClass (i : Nat) (c : Int) : Prop :=
  (HasUnknown isArray operands rank s i → c = Shape.noClass) ∧
    (¬ HasUnknown isArray operands rank s i →
      (c = Shape.sizeOne ∧ ∀ d, ¬ Carried isArray operands rank s i d) ∨
        Carried isArray operands rank s i c)

/-- The loop has finished the dimensions of `base`, which holds their classes before any union. -/
structure Progress (b : Broadcast) (rep : Int → Int) (base : Shape) : Prop where
  collapse : s.Collapse b.store rep
  justified : ∀ c < s.nextClass, ∀ d < s.nextClass, rep c = rep d →
    EqvGen (Aligned isArray operands rank s) c d
  done : b.done = base.map rep
  result : ∀ j c, base[j]? = some c → ResultClass isArray operands rank s j c
  united : ∀ j < base.length, ∀ c d, Carried isArray operands rank s j c →
    Carried isArray operands rank s j d → rep c = rep d

/-- Within dimension `i` the loop has taken the operands in `seen`; the candidate is what `c₀` has
become. -/
structure Midway (i : Nat) (seen : List Var) (b : Broadcast) (rep : Int → Int) (base : Shape)
    (c₀ : Int) : Prop extends Progress isArray operands rank s b rep base where
  candidate : b.candidate = rep c₀
  started : c₀ = Shape.sizeOne ∨ Carried isArray seen rank s i c₀
  agree : ∀ c, Carried isArray seen rank s i c → rep c = rep c₀
  unknown : b.sawUnknown = true ↔ HasUnknown isArray seen rank s i

end

/-- The state after the candidate `c` was united with `d`. -/
def unite (b : Broadcast) (c d : Int) : Broadcast :=
  { b with
    store := (b.store.unite c d).2
    done := b.done.rename [c, d] b.store.nextClass
    candidate := b.store.nextClass }

/-- The state in which the dimension at hand has joined the finished ones. -/
def finish (b : Broadcast) : Broadcast :=
  { b with done := b.done ++ [if b.sawUnknown then Shape.noClass else b.candidate] }

variable {isArray : Var → Bool} {operands : List Var} {rank : Nat} {s : Store}

theorem Carried.mono {seen : List Var} {i : Nat} {c : Int} (h : Carried isArray seen rank s i c)
    (hsub : ∀ x ∈ seen, x ∈ operands) : Carried isArray operands rank s i c := by
  obtain ⟨hn, ho, x, hx, he⟩ := h
  exact ⟨hn, ho, x, hsub x hx, he⟩

theorem carried_append {seen : List Var} {x : Var} {i : Nat} {c : Int} :
    Carried isArray (seen ++ [x]) rank s i c ↔ Carried isArray seen rank s i c ∨
      c ≠ Shape.noClass ∧ c ≠ Shape.sizeOne ∧ operandClass isArray rank i s x = c := by
  constructor
  · rintro ⟨hn, ho, y, hy, he⟩
    rcases List.mem_append.mp hy with hy | hy
    · exact .inl ⟨hn, ho, y, hy, he⟩
    · rw [List.mem_singleton.mp hy] at he
      exact .inr ⟨hn, ho, he⟩
  · rintro (h | ⟨hn, ho, he⟩)
    · exact h.mono (fun y hy => List.mem_append_left _ hy)
    · exact ⟨hn, ho, x, by simp, he⟩

theorem hasUnknown_append {seen : List Var} {x : Var} {i : Nat} :
    HasUnknown isArray (seen ++ [x]) rank s i ↔
      HasUnknown isArray seen rank s i ∨ operandClass isArray rank i s x = Shape.noClass := by
  constructor
  · rintro ⟨y, hy, he⟩
    rcases List.mem_append.mp hy with hy | hy
    · exact .inl ⟨y, hy, he⟩
    · rw [List.mem_singleton.mp hy] at he
      exact .inr he
  · rintro (⟨y, hy, he⟩ | he)
    · exact ⟨y, List.mem_append_left _ hy, he⟩
    · exact ⟨x, by simp, he⟩

theorem operandClass_lt (hs : s.Bounded) (i : Nat) (x : Var) :
    operandClass isArray rank i s x < s.nextClass := by
  simp only [operandClass]
  cases he : (Shape.padLeading rank (if isArray x then (s.shapes.find? x).getD [] else []))[i]? with
  | none => exact hs.sizeOne_lt
  | some c =>
    rw [Option.getD_some]
    have hc := List.mem_of_getElem? he
    rw [Shape.padLeading, List.mem_append] at hc
    rcases hc with hc | hc
    · rw [List.eq_of_mem_replicate hc]
      exact hs.sizeOne_lt
    · split at hc
      · cases hx : s.shapes.find? x with
        | none => simp [hx] at hc
        | some shape =>
          rw [hx, Option.getD_some] at hc
          exact hs.lt_of_recorded x shape hx c hc
      · simp at hc

theorem Carried.lt (hs : s.Bounded) {i : Nat} {c : Int} (h : Carried isArray operands rank s i c) :
    c < s.nextClass := by
  obtain ⟨-, -, x, -, rfl⟩ := h
  exact operandClass_lt hs i x

theorem ResultClass.lt (hs : s.Bounded) {i : Nat} {c : Int}
    (h : ResultClass isArray operands rank s i c) : c < s.nextClass := by
  by_cases hunknown : HasUnknown isArray operands rank s i
  · rw [h.1 hunknown]
    exact hs.noClass_lt
  · rcases h.2 hunknown with ⟨rfl, -⟩ | hc
    · exact hs.sizeOne_lt
    · exact hc.lt hs

/-- No class is made equal to the size-one class or to an unknown dimension. -/
theorem eq_of_eqvGen_special {z : Int} (hz : z = Shape.noClass ∨ z = Shape.sizeOne) {c d : Int}
    (h : EqvGen (Aligned isArray operands rank s) c d) : c = z ∨ d = z → c = d := by
  induction h with
  | rel c d h =>
    obtain ⟨i, -, hc, hd⟩ := h
    have := hc.1
    have := hc.2.1
    have := hd.1
    have := hd.2.1
    rintro (rfl | rfl) <;> tauto
  | refl c => exact fun _ => rfl
  | symm c d _ ih => exact fun h => (ih h.symm).symm
  | trans c d e _ _ ih ih' =>
    rintro (rfl | rfl)
    · have hd := ih (.inl rfl)
      exact hd.trans (ih' (.inl hd.symm))
    · have hd := ih' (.inr rfl)
      exact (ih (.inr hd)).trans hd

/-- Only classes below the next id are made equal to others. -/
theorem lt_of_eqvGen (hs : s.Bounded) {c d : Int}
    (h : EqvGen (Aligned isArray operands rank s) c d) : c < s.nextClass ↔ d < s.nextClass := by
  induction h with
  | rel c d h =>
    obtain ⟨i, -, hc, hd⟩ := h
    exact iff_of_true (hc.lt hs) (hd.lt hs)
  | refl c => rfl
  | symm c d _ ih => exact ih.symm
  | trans c d e _ _ ih ih' => exact ih.trans ih'

namespace Progress

variable {b : Broadcast} {rep : Int → Int} {base : Shape}

theorem rep_eq_special_iff (h : Progress isArray operands rank s b rep base) (hs : s.Bounded)
    {z : Int} (hz : z = Shape.noClass ∨ z = Shape.sizeOne) {c : Int} (hc : c < s.nextClass) :
    rep c = z ↔ c = z := by
  have hzlt : z < s.nextClass := by
    rcases hz with rfl | rfl
    · exact hs.noClass_lt
    · exact hs.sizeOne_lt
  have hself : rep z = z := h.collapse.self_of_alone z hzlt (fun d hd he =>
    eq_of_eqvGen_special hz (h.justified d hd z hzlt he) (.inr rfl))
  constructor
  · intro he
    exact eq_of_eqvGen_special hz (h.justified c hc z hzlt (by rw [he, hself])) (.inr rfl)
  · rintro rfl
    exact hself

theorem rep_sizeOne (h : Progress isArray operands rank s b rep base) (hs : s.Bounded) :
    rep Shape.sizeOne = Shape.sizeOne :=
  (h.rep_eq_special_iff hs (.inr rfl) hs.sizeOne_lt).mpr rfl

theorem rep_noClass (h : Progress isArray operands rank s b rep base) (hs : s.Bounded) :
    rep Shape.noClass = Shape.noClass :=
  (h.rep_eq_special_iff hs (.inl rfl) hs.noClass_lt).mpr rfl

/-- An operand read from the tables as they are carries what its class has become. -/
theorem operandClass_eq (h : Progress isArray operands rank s b rep base) (hs : s.Bounded)
    (i : Nat) (x : Var) :
    operandClass isArray rank i b.store x = rep (operandClass isArray rank i s x) := by
  have hone := h.rep_sizeOne hs
  have hpad : ∀ shape : Shape,
      Shape.padLeading rank (shape.map rep) = (Shape.padLeading rank shape).map rep := by
    intro shape
    simp [Shape.padLeading, hone]
  have hshape : (if isArray x then (b.store.shapes.find? x).getD [] else []) =
      (if isArray x then (s.shapes.find? x).getD [] else []).map rep := by
    rw [h.collapse.find?_shapes]
    split
    · cases s.shapes.find? x <;> simp
    · simp
  simp only [operandClass, hshape, hpad, List.getElem?_map]
  cases (Shape.padLeading rank (if isArray x then (s.shapes.find? x).getD [] else []))[i]? with
  | none => simp [hone]
  | some c => simp

/-- Uniting two aligned classes. -/
theorem unite (h : Progress isArray operands rank s b rep base) {c d : Int} (hc : c < s.nextClass)
    (hd : d < s.nextClass) (hcd : Aligned isArray operands rank s c d) (hne : rep c ≠ rep d) :
    Progress isArray operands rank s (b.unite (rep c) (rep d))
      (Collapse.uniteRep rep (rep c) (rep d) b.store.nextClass) base where
  collapse := h.collapse.unite hc hd hne
  justified := by
    have hjoin : ∀ e < s.nextClass, rep e = rep c ∨ rep e = rep d →
        EqvGen (Aligned isArray operands rank s) e c := by
      rintro e he (he' | he')
      · exact h.justified e he c hc he'
      · exact .trans _ _ _ (h.justified e he d hd he') (.symm _ _ (.rel _ _ hcd))
    intro e he f hf heq
    by_cases hein : rep e = rep c ∨ rep e = rep d
    · by_cases hfin : rep f = rep c ∨ rep f = rep d
      · exact .trans _ _ _ (hjoin e he hein) (.symm _ _ (hjoin f hf hfin))
      · rw [Collapse.uniteRep_of_mem hein, Collapse.uniteRep_of_notMem hfin] at heq
        exact absurd heq.symm (Int.ne_of_lt (h.collapse.rep_lt f hf))
    · by_cases hfin : rep f = rep c ∨ rep f = rep d
      · rw [Collapse.uniteRep_of_notMem hein, Collapse.uniteRep_of_mem hfin] at heq
        exact absurd heq (Int.ne_of_lt (h.collapse.rep_lt e he))
      · rw [Collapse.uniteRep_of_notMem hein, Collapse.uniteRep_of_notMem hfin] at heq
        exact h.justified e he f hf heq
  done := by
    simp only [Broadcast.unite, h.done, Shape.rename, List.map_map, Function.comp_def,
      List.mem_cons, List.not_mem_nil, or_false]
    rfl
  result := h.result
  united := fun j hj e f he hf => Collapse.uniteRep_congr _ _ _ (h.united j hj e f he hf)

end Progress

namespace Midway

variable {b : Broadcast} {rep : Int → Int} {base : Shape} {i : Nat} {seen : List Var} {c₀ : Int}

theorem c₀_lt (h : Midway isArray operands rank s i seen b rep base c₀) (hs : s.Bounded) :
    c₀ < s.nextClass := by
  rcases h.started with rfl | hc
  · exact hs.sizeOne_lt
  · exact hc.lt hs

/-- An unknown dimension is only noted. -/
private theorem take_unknown (h : Midway isArray operands rank s i seen b rep base c₀) {x : Var}
    (he : operandClass isArray rank i s x = Shape.noClass) :
    Midway isArray operands rank s i (seen ++ [x]) { b with sawUnknown := true } rep base c₀ where
  toProgress := { h.toProgress with collapse := h.collapse, done := h.done }
  candidate := h.candidate
  started := h.started.imp id (fun hc => carried_append.mpr (.inl hc))
  agree := by
    intro c hc
    rcases carried_append.mp hc with hc | ⟨hn, -, hc⟩
    · exact h.agree c hc
    · exact absurd (hc.symm.trans he) hn
  unknown := iff_of_true rfl (hasUnknown_append.mpr (.inr he))

/-- Nothing happens where the class is of size one or the candidate already. -/
private theorem take_same (h : Midway isArray operands rank s i seen b rep base c₀) {x : Var}
    (hn : operandClass isArray rank i s x ≠ Shape.noClass)
    (he : operandClass isArray rank i s x = Shape.sizeOne ∨
      rep (operandClass isArray rank i s x) = rep c₀) :
    Midway isArray operands rank s i (seen ++ [x]) b rep base c₀ where
  toProgress := h.toProgress
  candidate := h.candidate
  started := h.started.imp id (fun hc => carried_append.mpr (.inl hc))
  agree := by
    intro c hc
    rcases carried_append.mp hc with hc | ⟨-, ho, hc⟩
    · exact h.agree c hc
    · rw [← hc] at ho ⊢
      exact he.resolve_left ho
  unknown := by
    rw [hasUnknown_append, or_iff_left hn]
    exact h.unknown

/-- The first class becomes the candidate. -/
private theorem take_first (h : Midway isArray operands rank s i seen b rep base Shape.sizeOne)
    (hs : s.Bounded) {x : Var} (hn : operandClass isArray rank i s x ≠ Shape.noClass)
    (ho : operandClass isArray rank i s x ≠ Shape.sizeOne) :
    Midway isArray operands rank s i (seen ++ [x])
      { b with candidate := rep (operandClass isArray rank i s x) } rep base
      (operandClass isArray rank i s x) where
  toProgress := { h.toProgress with collapse := h.collapse, done := h.done }
  candidate := rfl
  started := .inr (carried_append.mpr (.inr ⟨hn, ho, rfl⟩))
  agree := by
    intro c hc
    rcases carried_append.mp hc with hc | ⟨-, -, hc⟩
    · have he := h.agree c hc
      rw [h.rep_sizeOne hs, h.rep_eq_special_iff hs (.inr rfl) (hc.lt hs)] at he
      exact absurd he hc.2.1
    · rw [hc]
  unknown := by
    rw [hasUnknown_append, or_iff_left hn]
    exact h.unknown

/-- Another class is united with the candidate. -/
private theorem take_unite (h : Midway isArray operands rank s i seen b rep base c₀)
    (hs : s.Bounded) {x : Var} (hx : x ∈ operands) (hseen : ∀ y ∈ seen, y ∈ operands)
    (hn : operandClass isArray rank i s x ≠ Shape.noClass)
    (ho : operandClass isArray rank i s x ≠ Shape.sizeOne) (hc₀ : Carried isArray seen rank s i c₀)
    (hne : rep c₀ ≠ rep (operandClass isArray rank i s x)) (hi : i < rank) :
    Midway isArray operands rank s i (seen ++ [x])
      (b.unite (rep c₀) (rep (operandClass isArray rank i s x)))
      (Collapse.uniteRep rep (rep c₀) (rep (operandClass isArray rank i s x)) b.store.nextClass)
      base c₀ where
  toProgress := by
    have he : Carried isArray operands rank s i (operandClass isArray rank i s x) :=
      ⟨hn, ho, x, hx, rfl⟩
    exact h.toProgress.unite (h.c₀_lt hs) (he.lt hs) ⟨i, hi, hc₀.mono hseen, he⟩ hne
  candidate := by
    rw [Collapse.uniteRep_of_mem (.inl rfl)]
    rfl
  started := .inr (carried_append.mpr (.inl hc₀))
  agree := by
    intro c hc
    rcases carried_append.mp hc with hc | ⟨-, -, hc⟩
    · exact Collapse.uniteRep_congr _ _ _ (h.agree c hc)
    · rw [← hc, Collapse.uniteRep_of_mem (.inr rfl), Collapse.uniteRep_of_mem (.inl rfl)]
  unknown := by
    rw [hasUnknown_append, or_iff_left hn]
    exact h.unknown

/-- Taking one more operand, as the tables show it now. -/
theorem take (h : Midway isArray operands rank s i seen b rep base c₀) (hs : s.Bounded) {x : Var}
    (hx : x ∈ operands) (hseen : ∀ y ∈ seen, y ∈ operands) (hi : i < rank) :
    ∃ rep' c₀', Midway isArray operands rank s i (seen ++ [x])
      (b.take (operandClass isArray rank i b.store x)) rep' base c₀' := by
  have hlt : operandClass isArray rank i s x < s.nextClass := operandClass_lt hs i x
  have hnone := h.rep_eq_special_iff hs (.inl rfl) hlt
  have hone := h.rep_eq_special_iff hs (.inr rfl) hlt
  rw [h.operandClass_eq hs, Broadcast.take]
  by_cases hn : operandClass isArray rank i s x = Shape.noClass
  · rw [if_pos (hnone.mpr hn)]
    exact ⟨rep, c₀, h.take_unknown hn⟩
  rw [if_neg (mt hnone.mp hn)]
  by_cases he : rep (operandClass isArray rank i s x) = Shape.sizeOne ∨
      rep (operandClass isArray rank i s x) = b.candidate
  · rw [if_pos he]
    rw [hone, h.candidate] at he
    exact ⟨rep, c₀, h.take_same hn he⟩
  rw [if_neg he]
  rw [hone, h.candidate, not_or] at he
  rcases h.started with rfl | hc₀
  · rw [if_pos (h.candidate.trans (h.rep_sizeOne hs))]
    exact ⟨rep, _, h.take_first hs hn he.1⟩
  · have hcand := mt (h.rep_eq_special_iff hs (.inr rfl) (h.c₀_lt hs)).mp hc₀.2.1
    rw [h.candidate, if_neg hcand]
    exact ⟨_, c₀, h.take_unite hs hx hseen hn he.1 hc₀ (Ne.symm he.2) hi⟩

/-- Taking the remaining operands. -/
theorem takeAll (h : Midway isArray operands rank s i seen b rep base c₀) (hs : s.Bounded)
    (rest : List Var) (hrest : ∀ x ∈ rest, x ∈ operands) (hseen : ∀ y ∈ seen, y ∈ operands)
    (hi : i < rank) :
    ∃ rep' c₀', Midway isArray operands rank s i (seen ++ rest)
      (rest.foldl (fun b x => b.take (operandClass isArray rank i b.store x)) b) rep' base c₀' := by
  induction rest generalizing seen b rep c₀ with
  | nil => exact ⟨rep, c₀, by simpa using h⟩
  | cons x rest ih =>
    have hx := hrest x List.mem_cons_self
    obtain ⟨rep', c₀', h'⟩ := h.take hs hx hseen hi
    have hseen' : ∀ y ∈ seen ++ [x], y ∈ operands := by
      intro y hy
      rcases List.mem_append.mp hy with hy | hy
      · exact hseen y hy
      · exact List.mem_singleton.mp hy ▸ hx
    have hrest' : ∀ y ∈ rest, y ∈ operands := fun y hy => hrest y (List.mem_cons_of_mem x hy)
    simpa using ih h' hrest' hseen'

/-- When all operands are taken, the class of the dimension is settled. -/
theorem finish (h : Midway isArray operands rank s base.length operands b rep base c₀)
    (hs : s.Bounded) : ∃ c, Progress isArray operands rank s b.finish rep (base ++ [c]) := by
  have hmain : ∀ c, rep c = (if b.sawUnknown then Shape.noClass else b.candidate) →
      ResultClass isArray operands rank s base.length c →
      Progress isArray operands rank s b.finish rep (base ++ [c]) := by
    intro c hc hresult
    refine ⟨h.collapse, h.justified, ?_, ?_, ?_⟩
    · simp only [Broadcast.finish, h.done, List.map_append, List.map_cons, List.map_nil, hc]
    · intro j d hd
      by_cases hj : j < base.length
      · rw [List.getElem?_append_left hj] at hd
        exact h.result j d hd
      · obtain ⟨hlt, -⟩ := List.getElem?_eq_some_iff.mp hd
        rw [List.length_append, List.length_singleton] at hlt
        obtain rfl : j = base.length := by omega
        rw [List.getElem?_concat_length, Option.some.injEq] at hd
        exact hd ▸ hresult
    · intro j hj d e hd he
      rw [List.length_append, List.length_singleton] at hj
      by_cases hlt : j < base.length
      · exact h.united j hlt d e hd he
      · obtain rfl : j = base.length := by omega
        rw [h.agree d hd, h.agree e he]
  by_cases hu : HasUnknown isArray operands rank s base.length
  · refine ⟨Shape.noClass, hmain _ ?_ ⟨fun _ => rfl, fun hn => absurd hu hn⟩⟩
    rw [if_pos (h.unknown.mpr hu), h.rep_noClass hs]
  · refine ⟨c₀, hmain _ ?_ ⟨fun hu' => absurd hu' hu, fun _ => ?_⟩⟩
    · rw [if_neg (mt h.unknown.mp hu), h.candidate]
    · rcases h.started with rfl | hc₀
      · refine .inl ⟨rfl, fun d hd => hd.2.1 ?_⟩
        rw [← h.rep_eq_special_iff hs (.inr rfl) (hd.lt hs), h.agree d hd, h.rep_sizeOne hs]
      · exact .inr hc₀

end Midway

namespace Progress

variable {b : Broadcast} {rep : Int → Int} {base : Shape}

theorem start (hs : s.Bounded) : Progress isArray operands rank s (.start s) id [] where
  collapse := .refl hs
  justified := by
    rintro c - d - rfl
    exact .refl c
  done := rfl
  result := by simp
  united := by simp

/-- The next dimension is begun without operands. -/
theorem midway (h : Progress isArray operands rank s b rep base) (hs : s.Bounded) (i : Nat) :
    Midway isArray operands rank s i []
      { b with candidate := Shape.sizeOne, sawUnknown := false } rep base Shape.sizeOne := by
  refine ⟨{ h with collapse := h.collapse, done := h.done }, (h.rep_sizeOne hs).symm, .inl rfl,
    ?_, ?_⟩
  · rintro c ⟨-, -, x, hx, -⟩
    simp at hx
  · simp [HasUnknown]

/-- One more dimension of the result. -/
theorem dimension (h : Progress isArray operands rank s b rep base) (hs : s.Bounded)
    (hlt : base.length < rank) :
    ∃ rep' c, Progress isArray operands rank s (b.dimension isArray operands rank base.length)
      rep' (base ++ [c]) := by
  obtain ⟨rep', c₀, h'⟩ :=
    (h.midway hs base.length).takeAll hs operands (fun _ hx => hx) (by simp) hlt
  obtain ⟨c, h''⟩ := h'.finish hs
  exact ⟨rep', c, h''⟩

/-- The first `n` dimensions of the result. -/
theorem dimensions (hs : s.Bounded) (n : Nat) (hn : n ≤ rank) :
    ∃ rep base, base.length = n ∧ Progress isArray operands rank s
      ((List.range n).foldl (Broadcast.dimension isArray operands rank) (.start s)) rep base := by
  induction n with
  | zero => exact ⟨id, [], rfl, start hs⟩
  | succ n ih =>
    obtain ⟨rep, base, rfl, h⟩ := ih (by omega)
    obtain ⟨rep', c, h'⟩ := h.dimension hs hn
    refine ⟨rep', base ++ [c], by simp, ?_⟩
    rw [List.range_succ, List.foldl_append]
    exact h'

end Progress

end DimEquiv.Broadcast

namespace DimEquiv.Store

open Relation

variable {s t : Store} {isArray : Var → Bool} {operands : List Var} {out : Shape}

theorem has_iff (s : Store) (x : Var) : s.has x = true ↔ ∃ shape, s.shapes.find? x = some shape := by
  rw [has, Table.contains, Option.isSome_iff_exists]

theorem lookup_eq_error_iff (s : Store) (x : Var) (e : ShapeError) :
    s.lookup x = .error e ↔ s.has x = false ∧ e = .unknownVariable x := by
  unfold lookup has Table.contains
  cases s.shapes.find? x with
  | none => simpa using eq_comm
  | some shape => simp

theorem mapM_lookup (s : Store) (xs : List Var) (h : ∀ x ∈ xs, s.has x = true) :
    xs.mapM s.lookup = .ok (xs.map fun x => (s.shapes.find? x).getD []) := by
  induction xs with
  | nil => rfl
  | cons x xs ih =>
    obtain ⟨shape, hx⟩ := (has_iff s x).mp (h x List.mem_cons_self)
    rw [List.mapM_cons, ih (fun y hy => h y (List.mem_cons_of_mem x hy))]
    simp [lookup, hx, bind, Except.bind, pure, Except.pure]

theorem has_of_mapM_lookup {s : Store} {xs : List Var} {shapes : List Shape}
    (h : xs.mapM s.lookup = .ok shapes) : ∀ x ∈ xs, s.has x = true := by
  induction xs generalizing shapes with
  | nil => simp
  | cons x xs ih =>
    rw [List.mapM_cons] at h
    cases hx : s.lookup x with
    | error e => simp [hx, bind, Except.bind] at h
    | ok shape =>
      cases hxs : xs.mapM s.lookup with
      | error e => simp [hx, hxs, bind, Except.bind] at h
      | ok rest =>
        intro y hy
        rcases List.mem_cons.mp hy with rfl | hy
        · exact (has_iff s y).mpr ⟨shape, (lookup_eq_ok_iff s y shape).mp hx⟩
        · exact ih hxs y hy

/-- The look-ups fail at an array without a shape. -/
theorem exists_of_mapM_lookup_error {s : Store} {xs : List Var} {e : ShapeError}
    (h : xs.mapM s.lookup = .error e) : ∃ x ∈ xs, s.has x = false ∧ e = .unknownVariable x := by
  induction xs with
  | nil => cases h
  | cons x xs ih =>
    rw [List.mapM_cons] at h
    cases hx : s.lookup x with
    | error e' =>
      obtain ⟨hnone, rfl⟩ := (lookup_eq_error_iff s x e').mp hx
      simp only [hx, bind, Except.bind, Except.error.injEq] at h
      exact ⟨x, List.mem_cons_self, hnone, h.symm⟩
    | ok shape =>
      cases hxs : xs.mapM s.lookup with
      | error e' =>
        simp only [hx, hxs, bind, Except.bind, Except.error.injEq] at h
        obtain ⟨y, hy, hfound⟩ := ih (h ▸ hxs)
        exact ⟨y, List.mem_cons_of_mem x hy, hfound⟩
      | ok shapes => simp [hx, hxs, bind, Except.bind, pure, Except.pure] at h

theorem foldl_max_le_iff (ns : List Nat) (a b : Nat) :
    ns.foldl max a ≤ b ↔ a ≤ b ∧ ∀ n ∈ ns, n ≤ b := by
  induction ns generalizing a with
  | nil => simp
  | cons n ns ih =>
    rw [List.foldl_cons, ih, Nat.max_le, List.forall_mem_cons, and_assoc]

/-- The number of dimensions of the result: that of the largest operand. -/
def operandRank (isArray : Var → Bool) (operands : List Var) (s : Store) : Nat :=
  maxRank ((operands.filter isArray).map fun x => (s.shapes.find? x).getD [])

theorem length_le_operandRank {x : Var} {shape : Shape} (hx : x ∈ operands)
    (harr : isArray x = true) (hshape : s.shapes.find? x = some shape) :
    shape.length ≤ operandRank isArray operands s := by
  have h := ((foldl_max_le_iff (((operands.filter isArray).map fun x =>
    (s.shapes.find? x).getD []).map List.length) 0 _).mp (Nat.le_refl _)).2
  refine h shape.length (List.mem_map.mpr ⟨shape, List.mem_map.mpr ⟨x, ?_, ?_⟩, rfl⟩)
  · exact List.mem_filter.mpr ⟨hx, harr⟩
  · rw [hshape, Option.getD_some]

theorem foldl_max_eq_or_mem (ns : List Nat) (a : Nat) :
    ns.foldl max a = a ∨ ns.foldl max a ∈ ns := by
  induction ns generalizing a with
  | nil => exact .inl rfl
  | cons n ns ih =>
    rw [List.foldl_cons]
    rcases ih (max a n) with h | h
    · rw [h, List.mem_cons]
      omega
    · exact .inr (List.mem_cons_of_mem n h)

theorem exists_length_eq_operandRank (harr : ∃ x ∈ operands, isArray x = true)
    (hrec : ∀ x ∈ operands, isArray x = true → s.has x = true) :
    ∃ x ∈ operands, isArray x = true ∧
      ∃ shape, s.shapes.find? x = some shape ∧ shape.length = operandRank isArray operands s := by
  have hget : ∀ x ∈ operands, isArray x = true → ∃ shape, s.shapes.find? x = some shape :=
    fun x hx hax => (has_iff s x).mp (hrec x hx hax)
  rcases foldl_max_eq_or_mem (((operands.filter isArray).map fun x =>
    (s.shapes.find? x).getD []).map List.length) 0 with h | h
  · obtain ⟨x, hx, hax⟩ := harr
    obtain ⟨shape, hshape⟩ := hget x hx hax
    have hle := length_le_operandRank hx hax hshape
    have hzero : operandRank isArray operands s = 0 := h
    exact ⟨x, hx, hax, shape, hshape, by omega⟩
  · simp only [List.mem_map, List.mem_filter] at h
    obtain ⟨_, ⟨x, ⟨hx, hax⟩, rfl⟩, hlen⟩ := h
    obtain ⟨shape, hshape⟩ := hget x hx hax
    rw [hshape, Option.getD_some] at hlen
    exact ⟨x, hx, hax, shape, hshape, hlen⟩

/-- The state of the loop when all dimensions are finished. -/
def broadcastAll (isArray : Var → Bool) (operands : List Var) (s : Store) : Broadcast :=
  (List.range (operandRank isArray operands s)).foldl
    (Broadcast.dimension isArray operands (operandRank isArray operands s)) (.start s)

/-- Broadcasting succeeds exactly when an operand is an array and every array is recorded. -/
theorem broadcast_eq_ok_iff {r : Shape × Store} : s.broadcast isArray operands = .ok r ↔
    (∃ x ∈ operands, isArray x = true) ∧ (∀ x ∈ operands, isArray x = true → s.has x = true) ∧
      r = ((broadcastAll isArray operands s).done, (broadcastAll isArray operands s).store) := by
  have hmem : ∀ x, x ∈ operands.filter isArray ↔ x ∈ operands ∧ isArray x = true := by
    simp [List.mem_filter]
  unfold broadcast
  split
  · rename_i hnil
    constructor
    · simp
    · rintro ⟨⟨x, hx, hax⟩, -⟩
      have := (hmem x).mpr ⟨hx, hax⟩
      simp [hnil] at this
  · rename_i hne
    constructor
    · intro h
      cases hlook : (operands.filter isArray).mapM s.lookup with
      | error e => simp [hlook, bind, Except.bind] at h
      | ok shapes =>
        have hrec : ∀ x ∈ operands, isArray x = true → s.has x = true :=
          fun x hx hax => has_of_mapM_lookup hlook x ((hmem x).mpr ⟨hx, hax⟩)
        obtain ⟨x, hx⟩ := List.exists_mem_of_ne_nil _ hne
        refine ⟨⟨x, (hmem x).mp hx⟩, hrec, ?_⟩
        rw [mapM_lookup s _ (fun y hy => hrec y ((hmem y).mp hy).1 ((hmem y).mp hy).2)] at h
        exact (Except.ok.inj h).symm
    · rintro ⟨-, hrec, rfl⟩
      rw [mapM_lookup s _ (fun y hy => hrec y ((hmem y).mp hy).1 ((hmem y).mp hy).2)]
      rfl

/-- Broadcasting fails when no operand is an array, or when one has no recorded shape. -/
theorem broadcast_eq_error {e : ShapeError} (h : s.broadcast isArray operands = .error e) :
    (e = .noArrayOperand operands ∧ ∀ x ∈ operands, isArray x = false) ∨
      ∃ x ∈ operands, s.has x = false ∧ e = .unknownVariable x := by
  unfold broadcast at h
  split at h
  · rename_i hnil
    refine .inl ⟨(Except.error.inj h).symm, fun x hx => ?_⟩
    rw [List.filter_eq_nil_iff] at hnil
    exact Bool.eq_false_iff.mpr (hnil x hx)
  · cases hlook : (operands.filter isArray).mapM s.lookup with
    | error e' =>
      simp only [hlook, bind, Except.bind, Except.error.injEq] at h
      obtain ⟨x, hx, hfound⟩ := exists_of_mapM_lookup_error hlook
      exact .inr ⟨x, List.mem_of_mem_filter hx, h ▸ hfound⟩
    | ok shapes => simp [hlook, bind, Except.bind, pure, Except.pure] at h

/-- The finished loop, seen from its start. -/
theorem exists_progress_broadcastAll (isArray : Var → Bool) (operands : List Var)
    (hs : s.Bounded) :
    ∃ rep base, base.length = operandRank isArray operands s ∧
      Broadcast.Progress isArray operands (operandRank isArray operands s) s
        (broadcastAll isArray operands s) rep base :=
  Broadcast.Progress.dimensions hs _ (Nat.le_refl _)

end DimEquiv.Store

namespace DimEquiv.Broadcast

open Relation Store

/-- What a broadcast makes of the store `s`, where `rank` is the largest number of dimensions: the
result `out`, the store `t`, and the class `rep c` that each class `c` has become. -/
structure Effect (isArray : Var → Bool) (operands : List Var) (rank : Nat) (s : Store)
    (out : Shape) (t : Store) (rep : Int → Int) : Prop where
  /-- Every recorded shape has the new classes. -/
  shapes : t.shapes = s.shapes.mapValues (List.map rep)
  rep_eq_iff : ∀ c < s.nextClass, ∀ d < s.nextClass,
    rep c = rep d ↔ EqvGen (Aligned isArray operands rank s) c d
  rep_of_alone : ∀ c < s.nextClass,
    (∀ d, EqvGen (Aligned isArray operands rank s) c d → d = c) → rep c = c
  rep_sizeOne : rep Shape.sizeOne = Shape.sizeOne
  rep_noClass : rep Shape.noClass = Shape.noClass
  /-- The size values of equal classes are put together. -/
  sizes : ∀ c < s.nextClass, ∃ members : List Int, members.Nodup ∧
    (∀ d, d ∈ members ↔ EqvGen (Aligned isArray operands rank s) c d) ∧
    (t.sizesOf (rep c)).Perm (members.flatMap s.sizesOf)
  /-- Entries of the classes that became another class are gone. -/
  sizes_dropped : ∀ c < s.nextClass, rep c ≠ c → t.classSizes.find? c = none
  /-- All other entries, but those of the classes that came of a union, are unchanged. -/
  sizes_kept : ∀ k, (∀ c < s.nextClass, rep c ≠ c → c ≠ k ∧ rep c ≠ k) →
    t.classSizes.find? k = s.classSizes.find? k
  length_out : out.length = rank
  out_of_unknown : ∀ i < rank, HasUnknown isArray operands rank s i → out[i]? = some Shape.noClass
  out_of_none : ∀ i < rank, ¬ HasUnknown isArray operands rank s i →
    (∀ c, ¬ Carried isArray operands rank s i c) → out[i]? = some Shape.sizeOne
  out_of_carried : ∀ i < rank, ¬ HasUnknown isArray operands rank s i →
    ∀ c, Carried isArray operands rank s i c → out[i]? = some (rep c)

namespace Progress

variable {isArray : Var → Bool} {operands : List Var} {rank : Nat} {s : Store} {b : Broadcast}
  {rep : Int → Int} {base : Shape}

/-- Equality of classes after the loop is the least equivalence that contains the alignment. -/
theorem rep_eq_iff (h : Progress isArray operands rank s b rep base) (hlen : base.length = rank)
    {c d : Int} (hc : c < s.nextClass) (hd : d < s.nextClass) :
    rep c = rep d ↔ EqvGen (Aligned isArray operands rank s) c d := by
  refine ⟨h.justified c hc d hd, map_eq_of_eqvGen ?_⟩
  rintro c d ⟨i, hi, hc, hd⟩
  exact h.united i (hlen ▸ hi) c d hc hd

/-- A finished dimension shows what its class has become. -/
theorem exists_getElem? (h : Progress isArray operands rank s b rep base) {i : Nat}
    (hi : i < base.length) : ∃ c, b.done[i]? = some (rep c) ∧
      ResultClass isArray operands rank s i c := by
  have hget : base[i]? = some base[i] := List.getElem?_eq_getElem hi
  refine ⟨base[i], ?_, h.result i _ hget⟩
  rw [h.done, List.getElem?_map, hget, Option.map_some]

/-- The finished loop has the effect described. -/
theorem effect (h : Progress isArray operands rank s b rep base) (hlen : base.length = rank)
    (hs : s.Bounded) : Effect isArray operands rank s b.done b.store rep where
  shapes := h.collapse.shapes
  rep_eq_iff := fun c hc d hd => h.rep_eq_iff hlen hc hd
  rep_of_alone := fun c hc halone => h.collapse.self_of_alone c hc (fun d hd he =>
    halone d ((h.rep_eq_iff hlen hc hd).mp he.symm))
  rep_sizeOne := h.rep_sizeOne hs
  rep_noClass := h.rep_noClass hs
  sizes := by
    intro c hc
    obtain ⟨members, hnodup, hmem, hperm⟩ := h.collapse.sizes c hc
    refine ⟨members, hnodup, fun d => ?_, hperm⟩
    rw [hmem]
    constructor
    · rintro ⟨hd, he⟩
      exact (h.rep_eq_iff hlen hc hd).mp he.symm
    · intro hcd
      have hd := (lt_of_eqvGen hs hcd).mp hc
      exact ⟨hd, ((h.rep_eq_iff hlen hc hd).mpr hcd).symm⟩
  sizes_dropped := fun c hc hne => h.collapse.dropped c (fun d hd =>
    h.collapse.rep_ne_of_ne hc hne hd)
  sizes_kept := by
    intro k hk
    by_cases hlt : k < s.nextClass
    · apply h.collapse.kept k hlt
      by_contra hne
      exact (hk k hlt hne).1 rfl
    · rw [find?_classSizes_of_le hs (by omega)]
      refine h.collapse.dropped k (fun c hc he => ?_)
      by_cases hself : rep c = c
      · omega
      · exact (hk c hc hself).2 he
  length_out := by rw [h.done, List.length_map, hlen]
  out_of_unknown := by
    intro i hi hu
    obtain ⟨c, hout, hresult⟩ := h.exists_getElem? (hlen ▸ hi)
    rw [hout, hresult.1 hu, h.rep_noClass hs]
  out_of_none := by
    intro i hi hu hnone
    obtain ⟨c, hout, hresult⟩ := h.exists_getElem? (hlen ▸ hi)
    rcases hresult.2 hu with ⟨rfl, -⟩ | hc
    · rw [hout, h.rep_sizeOne hs]
    · exact absurd hc (hnone c)
  out_of_carried := by
    intro i hi hu d hd
    obtain ⟨c, hout, hresult⟩ := h.exists_getElem? (hlen ▸ hi)
    rcases hresult.2 hu with ⟨-, hnone⟩ | hc
    · exact absurd hd (hnone d)
    · rw [hout, h.united i (hlen ▸ hi) c d hc hd]

end Progress

end DimEquiv.Broadcast

namespace DimEquiv.Store

open Broadcast

/-- Broadcasting recorded arrays succeeds, and it unites the classes that stand in one dimension and
no others. -/
theorem broadcast_exact_effect {s : Store} (hs : s.Bounded) {isArray : Var → Bool}
    {operands : List Var} (harr : ∃ x ∈ operands, isArray x = true)
    (hrec : ∀ x ∈ operands, isArray x = true → s.has x = true) :
    ∃ rank out t rep, s.broadcast isArray operands = .ok (out, t) ∧
      (∀ x ∈ operands, isArray x = true → ∀ shape, s.shapes.find? x = some shape →
        shape.length ≤ rank) ∧
      (∃ x ∈ operands, isArray x = true ∧ ∃ shape, s.shapes.find? x = some shape ∧
        shape.length = rank) ∧
      Effect isArray operands rank s out t rep := by
  obtain ⟨rep, base, hlen, h⟩ := exists_progress_broadcastAll isArray operands hs
  refine ⟨operandRank isArray operands s, (broadcastAll isArray operands s).done,
    (broadcastAll isArray operands s).store, rep, ?_, ?_, ?_, h.effect hlen hs⟩
  · exact broadcast_eq_ok_iff.mpr ⟨harr, hrec, rfl⟩
  · intro x hx hax shape hshape
    exact length_le_operandRank hx hax hshape
  · exact exists_length_eq_operandRank harr hrec

/-- A square array, an array with other classes, one that is unknown, and one outside. -/
def squareStore : Store where
  shapes := .ofList [("s", [1, 1]), ("b", [2, 3]), ("u", [-1]), ("x", [3, 4])]
  sizeVars := .empty
  classSizes := .ofList [(0, [.literal 1]), (2, [.var "n"]), (3, [.var "m"])]
  nextClass := 5

theorem broadcast_exact_effect_square :
    squareStore.Bounded ∧ (∃ x ∈ ["s", "k", "b", "u", "s"], (x != "k") = true) ∧
      (∀ x ∈ ["s", "k", "b", "u", "s"], (x != "k") = true → squareStore.has x = true) ∧
      ∃ rank t rep, squareStore.broadcast (· != "k") ["s", "k", "b", "u", "s"] =
          .ok ([6, -1], t) ∧
        Effect (· != "k") ["s", "k", "b", "u", "s"] rank squareStore [6, -1] t rep := by
  have hs : squareStore.Bounded := by decide
  have harr : ∃ x ∈ ["s", "k", "b", "u", "s"], (x != "k") = true := by decide
  have hrec : ∀ x ∈ ["s", "k", "b", "u", "s"], (x != "k") = true → squareStore.has x = true := by
    decide
  refine ⟨hs, harr, hrec, ?_⟩
  obtain ⟨rank, out, t, rep, hrun, -, -, heffect⟩ := broadcast_exact_effect hs harr hrec
  have hout : (squareStore.broadcast (· != "k") ["s", "k", "b", "u", "s"]).map Prod.fst =
      .ok [6, -1] := by decide
  rw [hrun] at hout
  obtain rfl : out = [6, -1] := Except.ok.inj hout
  exact ⟨rank, t, rep, hrun, heffect⟩

end DimEquiv.Store
