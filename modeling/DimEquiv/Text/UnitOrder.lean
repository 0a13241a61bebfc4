/-!
# The order of texts by UTF-16 units

A character outside the basic plane counts as its two surrogates, so it sorts before the characters
from U+E000 to U+FFFF although its code point is larger.
-/

namespace DimEquiv.UnitOrder

/-- The UTF-16 units of a character. -/
def units (c : Char) : List Nat :=
  let n := c.toNat
  if n < 0x10000 then [n]
  else [0xd800 + (n - 0x10000) / 0x400, 0xdc00 + (n - 0x10000) % 0x400]

/-- The units of a text, the key by which texts are ordered. -/
def key (s : String) : List Nat := s.toList.flatMap units

/-- The order of a dictionary. -/
def lexLe : List Nat → List Nat → Bool
  | [], _ => true
  | _ :: _, [] => false
  | a :: as, b :: bs => a < b || (a == b && lexLe as bs)

def le (s t : String) : Bool := lexLe (key s) (key t)

theorem lexLe_total (as bs : List Nat) : (lexLe as bs || lexLe bs as) = true := by
  induction as generalizing bs with
  | nil => simp [lexLe]
  | cons a as ih =>
    cases bs with
    | nil => simp [lexLe]
    | cons b bs =>
      have h := ih bs
      simp only [lexLe, Bool.or_eq_true, Bool.and_eq_true, decide_eq_true_eq, beq_iff_eq] at h ⊢
      rcases Nat.lt_trichotomy a b with hab | rfl | hab
      · exact .inl (.inl hab)
      · exact h.imp (fun h => .inr ⟨rfl, h⟩) (fun h => .inr ⟨rfl, h⟩)
      · exact .inr (.inl hab)

theorem lexLe_trans {as bs cs : List Nat} (h₁ : lexLe as bs = true) (h₂ : lexLe bs cs = true) :
    lexLe as cs = true := by
  induction as generalizing bs cs with
  | nil => simp [lexLe]
  | cons a as ih =>
    cases bs with
    | nil => simp [lexLe] at h₁
    | cons b bs =>
      cases cs with
      | nil => simp [lexLe] at h₂
      | cons c cs =>
        simp only [lexLe, Bool.or_eq_true, Bool.and_eq_true, decide_eq_true_eq, beq_iff_eq] at *
        rcases h₁ with h₁ | ⟨rfl, h₁⟩
        · left
          omega
        · rcases h₂ with h₂ | ⟨rfl, h₂⟩
          · exact .inl h₂
          · exact .inr ⟨rfl, ih h₁ h₂⟩

theorem lexLe_antisymm {as bs : List Nat} (h₁ : lexLe as bs = true) (h₂ : lexLe bs as = true) :
    as = bs := by
  induction as generalizing bs with
  | nil =>
    cases bs with
    | nil => rfl
    | cons b bs => cases h₂
  | cons a as ih =>
    cases bs with
    | nil => cases h₁
    | cons b bs =>
      simp only [lexLe, Bool.or_eq_true, Bool.and_eq_true, decide_eq_true_eq, beq_iff_eq] at h₁ h₂
      have hab : a = b := by omega
      subst hab
      have h₁ := h₁.resolve_left (Nat.lt_irrefl a)
      have h₂ := h₂.resolve_left (Nat.lt_irrefl a)
      rw [ih h₁.2 h₂.2]

theorem units_ne_nil (c : Char) : units c ≠ [] := by
  unfold units
  dsimp only
  split <;> exact List.cons_ne_nil _ _

/-- The first character is read off the first one or two units, since no character has the number of
a surrogate. -/
theorem units_append_inj {c d : Char} {as bs : List Nat} (h : units c ++ as = units d ++ bs) :
    c = d ∧ as = bs := by
  have hc : c.toNat < 0xd800 ∨ 0xdfff < c.toNat ∧ c.toNat < 0x110000 := c.valid
  have hd : d.toNat < 0xd800 ∨ 0xdfff < d.toNat ∧ d.toNat < 0x110000 := d.valid
  rw [← Char.toNat_inj]
  unfold units at h
  by_cases hcs : c.toNat < 0x10000 <;> by_cases hds : d.toNat < 0x10000 <;>
    simp only [hcs, hds, if_true, if_false, List.cons_append, List.nil_append,
      List.cons.injEq] at h
  · exact h
  · omega
  · omega
  · exact ⟨by omega, h.2.2⟩

theorem key_injective {s t : String} (h : key s = key t) : s = t := by
  rw [← String.toList_inj]
  unfold key at h
  generalize s.toList = cs at h
  generalize t.toList = ds at h
  induction cs generalizing ds with
  | nil =>
    cases ds with
    | nil => rfl
    | cons d ds => exact absurd (List.append_eq_nil_iff.mp h.symm).1 (units_ne_nil d)
  | cons c cs ih =>
    cases ds with
    | nil => exact absurd (List.append_eq_nil_iff.mp h).1 (units_ne_nil c)
    | cons d ds =>
      obtain ⟨rfl, hrest⟩ := units_append_inj h
      rw [ih ds hrest]

theorem le_total (s t : String) : (le s t || le t s) = true := lexLe_total _ _

theorem le_trans (s t u : String) : le s t = true → le t u = true → le s u = true := lexLe_trans

theorem le_antisymm {s t : String} (h₁ : le s t = true) (h₂ : le t s = true) : s = t :=
  key_injective (lexLe_antisymm h₁ h₂)

def sort (names : List String) : List String := names.mergeSort le

theorem mem_sort (names : List String) (x : String) : x ∈ sort names ↔ x ∈ names :=
  List.mem_mergeSort

theorem sort_perm (names : List String) : (sort names).Perm names :=
  List.mergeSort_perm names le

/-- Sorted names ascend by their units. -/
theorem sort_pairwise (names : List String) :
    (sort names).Pairwise fun s t => le s t = true :=
  List.pairwise_mergeSort le_trans le_total names

/-- Sorting forgets the order in which names are given. -/
theorem sort_eq_sort_of_perm {names names' : List String} (h : names.Perm names') :
    sort names = sort names' :=
  List.Perm.eq_of_pairwise (fun _ _ _ _ => le_antisymm) (sort_pairwise names)
    (sort_pairwise names') ((sort_perm names).trans (h.trans (sort_perm names').symm))

end DimEquiv.UnitOrder
