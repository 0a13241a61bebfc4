import DimEquiv.Expr
import Mathlib.Algebra.Group.Nat.Defs
import Mathlib.Data.List.Basic
import Std.Data.String.ToInt

/-!
# Printed trees can be read back

A fused tree is printed without any mark that tells a variable from a constant or an operator. It can be
read back all the same, if its words contain no blank, no comma and no parenthesis and no variable is
named like a number: a printed tree is a word, which ends where the first such character stands, followed
by a parenthesis if the tree is an operation. The word is empty exactly between two operands.
-/

namespace DimEquiv

/-- The characters that printing puts between words. -/
def IsMark (c : Char) : Prop := c ∈ [' ', ',', '(', ')']

instance (c : Char) : Decidable (IsMark c) := inferInstanceAs (Decidable (c ∈ [' ', ',', '(', ')']))

/-- A name that printing keeps together. -/
structure PlainWord (w : String) : Prop where
  ne_empty : w ≠ ""
  plain : ∀ c ∈ w.toList, ¬ IsMark c

instance (w : String) : Decidable (PlainWord w) :=
  -- A search through all characters decides the second half too, but never ends.
  have : Decidable (∀ c ∈ w.toList, ¬ IsMark c) := List.decidableBAll _ _
  decidable_of_iff (w ≠ "" ∧ ∀ c ∈ w.toList, ¬ IsMark c) ⟨fun h => ⟨h.1, h.2⟩, fun h => ⟨h.1, h.2⟩⟩

/-- The decimal form of an integer. -/
def IsNumeral (w : String) : Prop := ∃ n : Int, w = toString n

namespace FusedTree

/-- Names are plain words, variables are not named like numbers, and constants are integers that binary64
tells apart. -/
inductive Printable : FusedTree → Prop
  | leaf {x : Var} (hword : PlainWord x) (hname : ¬ IsNumeral x) : Printable (leaf x)
  | const {n : Int} (hn : n.natAbs < 2 ^ 53) : Printable (const (.int n))
  | op {fn : String} {operands : List FusedTree} (hword : PlainWord fn)
    (hoperands : ∀ t ∈ operands, Printable t) : Printable (op fn operands)

end FusedTree

/-! ### Words -/

/-- Where a word ends: at a mark or at the end of the text. -/
def StartsMarked (r : List Char) : Prop := ∀ c ∈ r.head?, IsMark c

theorem startsMarked_cons {c : Char} (hc : IsMark c) (r : List Char) : StartsMarked (c :: r) := by
  rintro d ⟨⟩
  exact hc

theorem takeWhile_of_startsMarked {w r : List Char} (hw : ∀ c ∈ w, ¬ IsMark c) (hr : StartsMarked r) :
    (w ++ r).takeWhile (fun c => !decide (IsMark c)) = w := by
  have hrest : r.takeWhile (fun c => !decide (IsMark c)) = [] := by
    cases r with
    | nil => rfl
    | cons c r => rw [List.takeWhile_cons_of_neg (by simpa using hr c rfl)]
  rw [List.takeWhile_append_of_pos (by simpa using hw), hrest, List.append_nil]

/-- A text shows its first word. -/
theorem word_append_inj {v w r r' : List Char} (hv : ∀ c ∈ v, ¬ IsMark c)
    (hw : ∀ c ∈ w, ¬ IsMark c) (hr : StartsMarked r) (hr' : StartsMarked r')
    (h : v ++ r = w ++ r') : v = w ∧ r = r' := by
  have hsame : v = w := by
    rw [← takeWhile_of_startsMarked hv hr, h, takeWhile_of_startsMarked hw hr']
  subst hsame
  exact ⟨rfl, List.append_cancel_left h⟩

theorem PlainWord.toList_ne_nil {w : String} (h : PlainWord w) : w.toList ≠ [] :=
  mt String.toList_eq_nil_iff.mp h.ne_empty

/-! ### Numbers -/

/-- Integers that binary64 tells apart are printed in decimal. -/
theorem Number.text_int {n : Int} (hn : n.natAbs < 2 ^ 53) : (Number.int n).text = toString n := by
  have hwhole : wholeText n.natAbs = Nat.toDigits 10 n.natAbs :=
    wholeText_of_lt (Nat.lt_trans hn (by decide))
  cases n with
  | ofNat m =>
    have hsign : (Number.int (.ofNat m)).isNegative = false := by simp [isNegative]
    rw [text, hsign, magnitudeText, hwhole]
    rfl
  | negSucc m =>
    have hsign : (Number.int (.negSucc m)).isNegative = true := by simp [isNegative]
    rw [text, hsign, magnitudeText, hwhole]
    exact String.toList_inj.mp (by simp [toString, Int.repr])

theorem toList_toString_int (n : Int) : (toString n).toList = Nat.toDigits 10 n.natAbs ∨
    (toString n).toList = '-' :: Nat.toDigits 10 n.natAbs := by
  cases n with
  | ofNat m => exact .inl (by simp [toString, Int.repr])
  | negSucc m => exact .inr (by simp [toString, Int.repr])

theorem IsNumeral.isDigit_or_eq_sign {w : String} (h : IsNumeral w) {c : Char} (hc : c ∈ w.toList) :
    c.isDigit = true ∨ c = '-' := by
  obtain ⟨n, rfl⟩ := h
  have hdigit : c ∈ Nat.toDigits 10 n.natAbs → c.isDigit = true :=
    Nat.isDigit_of_mem_toDigits (by decide) (by decide)
  rcases toList_toString_int n with hchars | hchars
  · exact .inl (hdigit (hchars ▸ hc))
  · rcases List.mem_cons.mp (hchars ▸ hc) with rfl | hc
    · exact .inr rfl
    · exact .inl (hdigit hc)

theorem IsNumeral.plainWord {w : String} (h : IsNumeral w) : PlainWord w := by
  constructor
  · obtain ⟨n, rfl⟩ := h
    intro hempty
    have hchars := toList_toString_int n
    rw [hempty] at hchars
    rcases hchars with hnil | hcons
    · exact Nat.toDigits_ne_nil hnil.symm
    · cases hcons
  · intro c hc hmark
    simp only [IsMark, List.mem_cons, List.not_mem_nil, or_false] at hmark
    have hshown := h.isDigit_or_eq_sign hc
    rcases hmark with rfl | rfl | rfl | rfl <;> exact absurd hshown (by decide)

namespace FusedTree

/-! ### What a printed tree shows -/

/-- The text from behind an operand of a call to the end of the call. -/
def behindOperand : List FusedTree → List Char
  | [] => [')']
  | t :: ts => ',' :: ' ' :: (t.text.toList ++ behindOperand ts)

/-- The text of a call from its first operand to its end. -/
def fromOperands : List FusedTree → List Char
  | [] => [')']
  | t :: ts => t.text.toList ++ behindOperand ts

/-- The word that a printed tree begins with. It is empty before an opening parenthesis. -/
def firstWord : FusedTree → List Char
  | leaf x => x.toList
  | const value => value.text.toList
  | op _ [_, _] => []
  | op fn _ => fn.toList

/-- What a printed tree shows behind its first word. -/
def behindWord : FusedTree → List Char
  | leaf _ => []
  | const _ => []
  | op fn [a, b] => '(' :: (a.text.toList ++ ' ' :: (fn.toList ++ ' ' :: (b.text.toList ++ [')'])))
  | op _ operands => '(' :: fromOperands operands

theorem toList_intercalate_operands (ts : List FusedTree) :
    (", ".intercalate (ts.map text)).toList ++ [')'] = fromOperands ts := by
  cases ts with
  | nil => rfl
  | cons t ts =>
    induction ts generalizing t with
    | nil => simp [fromOperands, behindOperand]
    | cons u us ih =>
      have hrest := ih u
      rw [List.map_cons] at hrest
      simp only [List.map_cons, String.intercalate_cons_cons, String.toList_append, List.append_assoc,
        hrest]
      rfl

theorem firstWord_of_length_ne_two (fn : String) {operands : List FusedTree}
    (h : operands.length ≠ 2) : (op fn operands).firstWord = fn.toList := by
  match operands with
  | [] | [_] | _ :: _ :: _ :: _ => rfl
  | [_, _] => exact absurd rfl h

theorem behindWord_of_length_ne_two (fn : String) {operands : List FusedTree}
    (h : operands.length ≠ 2) : (op fn operands).behindWord = '(' :: fromOperands operands := by
  match operands with
  | [] | [_] | _ :: _ :: _ :: _ => rfl
  | [_, _] => exact absurd rfl h

theorem toList_text (t : FusedTree) : t.text.toList = t.firstWord ++ t.behindWord := by
  cases t with
  | leaf x => simp [text, firstWord, behindWord]
  | const value => simp [text, firstWord, behindWord]
  | op fn operands =>
    by_cases h : operands.length = 2
    · obtain ⟨a, b, rfl⟩ := List.length_eq_two.mp h
      simp [text_binary, firstWord, behindWord]
    · rw [text_of_length_ne_two fn operands h, firstWord_of_length_ne_two fn h,
        behindWord_of_length_ne_two fn h, ← toList_intercalate_operands]
      simp

/-- Of the three kinds of trees, operations show an opening parenthesis behind their first word. -/
theorem exists_behindWord_op (fn : String) (operands : List FusedTree) :
    ∃ cs, (op fn operands).behindWord = '(' :: cs := by
  by_cases h : operands.length = 2
  · obtain ⟨a, b, rfl⟩ := List.length_eq_two.mp h
    exact ⟨_, rfl⟩
  · exact ⟨_, behindWord_of_length_ne_two fn h⟩

variable {t u : FusedTree} {r r' : List Char}

theorem Printable.not_isMark_of_mem_firstWord (h : t.Printable) : ∀ c ∈ t.firstWord, ¬ IsMark c := by
  cases h with
  | leaf hword hname => exact hword.plain
  | const hn =>
    rw [firstWord, Number.text_int hn]
    exact (IsNumeral.plainWord ⟨_, rfl⟩).plain
  | @op fn operands hword hoperands =>
    by_cases h : operands.length = 2
    · obtain ⟨a, b, rfl⟩ := List.length_eq_two.mp h
      exact nofun
    · rw [firstWord_of_length_ne_two fn h]
      exact hword.plain

/-- A text that can stand behind a printed tree: none, or one that begins with a mark other than an
opening parenthesis. -/
def Closes (r : List Char) : Prop := ∀ c ∈ r.head?, IsMark c ∧ c ≠ '('

theorem closes_nil : Closes [] := nofun

theorem closes_cons {c : Char} (hc : IsMark c ∧ c ≠ '(') (r : List Char) : Closes (c :: r) := by
  rintro d ⟨⟩
  exact hc

theorem closes_behindOperand (ts : List FusedTree) (r : List Char) :
    Closes (behindOperand ts ++ r) := by
  cases ts with
  | nil => exact closes_cons (by decide) _
  | cons t ts => exact closes_cons (by decide) _

theorem startsMarked_behindWord_append (t : FusedTree) (hr : Closes r) :
    StartsMarked (t.behindWord ++ r) := by
  cases t with
  | leaf x => exact fun c hc => (hr c hc).1
  | const value => exact fun c hc => (hr c hc).1
  | op fn operands =>
    obtain ⟨cs, hcs⟩ := exists_behindWord_op fn operands
    rw [hcs]
    exact startsMarked_cons (by decide) _

/-- Printed trees that agree begin with the same word. -/
theorem Printable.firstWord_inj (ht : t.Printable) (hu : u.Printable) (hr : Closes r)
    (hr' : Closes r') (h : t.text.toList ++ r = u.text.toList ++ r') :
    t.firstWord = u.firstWord ∧ t.behindWord ++ r = u.behindWord ++ r' := by
  rw [toList_text, toList_text, List.append_assoc, List.append_assoc] at h
  exact word_append_inj ht.not_isMark_of_mem_firstWord hu.not_isMark_of_mem_firstWord
    (startsMarked_behindWord_append t hr) (startsMarked_behindWord_append u hr') h

/-- Nothing that can stand behind a tree looks like the rest of an operation. -/
theorem Closes.ne_behindWord_op (hr : Closes r) (fn : String) (operands : List FusedTree) :
    r ≠ (op fn operands).behindWord ++ r' := by
  obtain ⟨cs, hcs⟩ := exists_behindWord_op fn operands
  rintro rfl
  rw [hcs] at hr
  exact (hr '(' rfl).2 rfl

/-- A printed tree does not begin with the parenthesis that ends a call. -/
theorem Printable.ne_closing (h : t.Printable) (hr : Closes r) : t.text.toList ++ r ≠ ')' :: r' := by
  intro heq
  rw [toList_text, List.append_assoc] at heq
  obtain ⟨hword, hrest⟩ := word_append_inj (w := []) h.not_isMark_of_mem_firstWord nofun
    (startsMarked_behindWord_append t hr) (startsMarked_cons (by decide) r') heq
  cases h with
  | leaf hx hname => exact hx.toList_ne_nil hword
  | const hn =>
    rw [firstWord, Number.text_int hn] at hword
    exact (IsNumeral.plainWord ⟨_, rfl⟩).toList_ne_nil hword
  | @op fn operands hfn hoperands =>
    obtain ⟨cs, hcs⟩ := exists_behindWord_op fn operands
    rw [hcs] at hrest
    cases List.head_eq_of_cons_eq hrest

/-! ### Reading back -/

/-- The tree is the only one that is printed like it, whatever follows. -/
def ReadBack (t : FusedTree) : Prop := ∀ u r r', u.Printable → Closes r → Closes r' →
  t.text.toList ++ r = u.text.toList ++ r' → t = u ∧ r = r'

/-- What stands behind an operand shows the operands that follow. -/
theorem behindOperand_inj {ts us : List FusedTree} (hts : ∀ t ∈ ts, ReadBack t)
    (hus : ∀ u ∈ us, Printable u) (h : behindOperand ts ++ r = behindOperand us ++ r') :
    ts = us ∧ r = r' := by
  induction ts generalizing us with
  | nil =>
    cases us with
    | nil => exact ⟨rfl, List.tail_eq_of_cons_eq h⟩
    | cons u us => cases List.head_eq_of_cons_eq h
  | cons t ts ih =>
    cases us with
    | nil => cases List.head_eq_of_cons_eq h
    | cons u us =>
      rw [List.forall_mem_cons] at hts hus
      simp only [behindOperand, List.cons_append, List.append_assoc, List.cons.injEq, true_and] at h
      obtain ⟨rfl, hrest⟩ :=
        hts.1 u _ _ hus.1 (closes_behindOperand ts r) (closes_behindOperand us r') h
      obtain ⟨rfl, hr⟩ := ih hts.2 hus.2 hrest
      exact ⟨rfl, hr⟩

theorem fromOperands_inj {ts us : List FusedTree} (hts : ∀ t ∈ ts, Printable t ∧ ReadBack t)
    (hus : ∀ u ∈ us, Printable u) (h : fromOperands ts ++ r = fromOperands us ++ r') :
    ts = us ∧ r = r' := by
  cases ts with
  | nil =>
    cases us with
    | nil => exact ⟨rfl, List.tail_eq_of_cons_eq h⟩
    | cons u us =>
      rw [fromOperands, fromOperands, List.append_assoc] at h
      exact absurd h.symm ((hus u List.mem_cons_self).ne_closing (closes_behindOperand us r'))
  | cons t ts =>
    cases us with
    | nil =>
      rw [fromOperands, fromOperands, List.append_assoc] at h
      exact absurd h ((hts t List.mem_cons_self).1.ne_closing (closes_behindOperand ts r))
    | cons u us =>
      rw [List.forall_mem_cons] at hts hus
      rw [fromOperands, fromOperands, List.append_assoc, List.append_assoc] at h
      obtain ⟨rfl, hrest⟩ :=
        hts.1.2 u _ _ hus.1 (closes_behindOperand ts r) (closes_behindOperand us r') h
      obtain ⟨rfl, hr⟩ := behindOperand_inj (fun t ht => (hts.2 t ht).2) hus.2 hrest
      exact ⟨rfl, hr⟩

/-- Between two operands the operator stands apart. -/
theorem behindWord_binary_inj {fn gn : String} {a b a' b' : FusedTree} (hfn : PlainWord fn)
    (hgn : PlainWord gn) (ha : ReadBack a) (hb : ReadBack b) (ha' : a'.Printable) (hb' : b'.Printable)
    (h : (op fn [a, b]).behindWord ++ r = (op gn [a', b']).behindWord ++ r') :
    fn = gn ∧ a = a' ∧ b = b' ∧ r = r' := by
  have hblank : ∀ cs, Closes (' ' :: cs) := closes_cons (by decide)
  have hclose : ∀ cs, Closes (')' :: cs) := closes_cons (by decide)
  simp only [behindWord, List.cons_append, List.append_assoc, List.cons.injEq, true_and,
    List.nil_append] at h
  obtain ⟨hleft, hrest⟩ := ha a' _ _ ha' (hblank _) (hblank _) h
  obtain ⟨hword, hrest'⟩ := word_append_inj hfn.plain hgn.plain (startsMarked_cons (by decide) _)
    (startsMarked_cons (by decide) _) (List.tail_eq_of_cons_eq hrest)
  obtain ⟨hright, hend⟩ := hb b' _ _ hb' (hclose _) (hclose _) (List.tail_eq_of_cons_eq hrest')
  exact ⟨String.toList_inj.mp hword, hleft, hright, List.tail_eq_of_cons_eq hend⟩

/-- The first word and what follows it show an operation. -/
theorem operation_inj {fn gn : String} {ts us : List FusedTree} (hfn : PlainWord fn)
    (hgn : PlainWord gn) (hts : ∀ t ∈ ts, Printable t ∧ ReadBack t) (hus : ∀ u ∈ us, Printable u)
    (hword : (op fn ts).firstWord = (op gn us).firstWord)
    (hrest : (op fn ts).behindWord ++ r = (op gn us).behindWord ++ r') :
    fn = gn ∧ ts = us ∧ r = r' := by
  by_cases ht : ts.length = 2
  · obtain ⟨a, b, rfl⟩ := List.length_eq_two.mp ht
    by_cases hu : us.length = 2
    · obtain ⟨a', b', rfl⟩ := List.length_eq_two.mp hu
      obtain ⟨rfl, rfl, rfl, hr⟩ := behindWord_binary_inj hfn hgn (hts a (by simp)).2
        (hts b (by simp)).2 (hus a' (by simp)) (hus b' (by simp)) hrest
      exact ⟨rfl, rfl, hr⟩
    · rw [firstWord_of_length_ne_two gn hu] at hword
      exact absurd hword.symm hgn.toList_ne_nil
  · by_cases hu : us.length = 2
    · obtain ⟨a', b', rfl⟩ := List.length_eq_two.mp hu
      rw [firstWord_of_length_ne_two fn ht] at hword
      exact absurd hword hfn.toList_ne_nil
    · rw [firstWord_of_length_ne_two fn ht, firstWord_of_length_ne_two gn hu] at hword
      rw [behindWord_of_length_ne_two fn ht, behindWord_of_length_ne_two gn hu] at hrest
      obtain ⟨rfl, hr⟩ := fromOperands_inj hts hus (List.tail_eq_of_cons_eq hrest)
      exact ⟨String.toList_inj.mp hword, rfl, hr⟩

/-- A printed tree can be read back. -/
theorem Printable.readBack (ht : t.Printable) : ReadBack t := by
  induction ht with
  | @leaf x hx hname =>
    intro u r r' hu hr hr' h
    obtain ⟨hword, hrest⟩ := (Printable.leaf hx hname).firstWord_inj hu hr hr' h
    cases hu with
    | leaf hy => exact ⟨congrArg FusedTree.leaf (String.toList_inj.mp hword), hrest⟩
    | const hn =>
      exact absurd ⟨_, (String.toList_inj.mp hword).trans (Number.text_int hn)⟩ hname
    | op => exact absurd hrest (hr.ne_behindWord_op _ _)
  | @const n hn =>
    intro u r r' hu hr hr' h
    obtain ⟨hword, hrest⟩ := (Printable.const hn).firstWord_inj hu hr hr' h
    cases hu with
    | leaf hx hname =>
      exact absurd ⟨_, (String.toList_inj.mp hword).symm.trans (Number.text_int hn)⟩ hname
    | @const m hm =>
      have hsame := String.toList_inj.mp hword
      rw [Number.text_int hn, Number.text_int hm] at hsame
      exact ⟨by rw [Int.repr_injective hsame], hrest⟩
    | op => exact absurd hrest (hr.ne_behindWord_op _ _)
  | @op fn operands hfn hoperands ih =>
    intro u r r' hu hr hr' h
    obtain ⟨hword, hrest⟩ := (Printable.op hfn hoperands).firstWord_inj hu hr hr' h
    cases hu with
    | leaf => exact absurd hrest.symm (hr'.ne_behindWord_op _ _)
    | const => exact absurd hrest.symm (hr'.ne_behindWord_op _ _)
    | op hgn hoperands' =>
      obtain ⟨rfl, rfl, hend⟩ := operation_inj hfn hgn (fun t ht => ⟨hoperands t ht, ih t ht⟩)
        hoperands' hword hrest
      exact ⟨rfl, hend⟩

end FusedTree

/-- Two fused trees are printed alike only if they are one tree: with the same operators and numbers of
operands, nested in the same way, over the same variables and constants. -/
theorem Expr.text?_fused_inj {t u : FusedTree} (ht : t.Printable) (hu : u.Printable) :
    (fused t).text? = (fused u).text? ↔ t = u := by
  constructor
  · intro h
    simp only [text?, Option.some.injEq] at h
    have hchars := congrArg String.toList h
    simp only [String.toList_append, List.append_cancel_right_eq, List.append_cancel_left_eq] at hchars
    refine (ht.readBack u [] [] hu FusedTree.closes_nil FusedTree.closes_nil ?_).1
    rw [List.append_nil, List.append_nil, hchars]
  · rintro rfl
    rfl

namespace FusedTree

/-- The least of `b`, `-c` and 7. -/
def leastOfThree : FusedTree := op "min" [leaf "b", op "-" [leaf "c"], const 7]

/-- The difference `(a - -2) - min(b, -(c), 7)`. -/
def leftNested : FusedTree := op "-" [op "-" [leaf "a", const (.int (-2))], leastOfThree]

/-- The same words, nested to the right. -/
def rightNested : FusedTree := op "-" [leaf "a", op "-" [const (.int (-2)), leastOfThree]]

theorem text?_fused_inj_nested : leftNested.Printable ∧ rightNested.Printable ∧
    (Expr.fused leftNested).text? ≠ (Expr.fused rightNested).text? := by
  have ha : (leaf "a").Printable :=
    .leaf (by decide) fun h => absurd (h.isDigit_or_eq_sign (c := 'a') (by decide)) (by decide)
  have hb : (leaf "b").Printable :=
    .leaf (by decide) fun h => absurd (h.isDigit_or_eq_sign (c := 'b') (by decide)) (by decide)
  have hc : (leaf "c").Printable :=
    .leaf (by decide) fun h => absurd (h.isDigit_or_eq_sign (c := 'c') (by decide)) (by decide)
  have hminus : (const (.int (-2))).Printable := .const (by decide)
  have hseven : (const (.int 7)).Printable := .const (by decide)
  have hleast : leastOfThree.Printable :=
    .op (by decide) (by simpa using ⟨hb, .op (by decide) (by simpa using hc), hseven⟩)
  have hleft : leftNested.Printable :=
    .op (by decide) (by simpa using ⟨.op (by decide) (by simpa using ⟨ha, hminus⟩), hleast⟩)
  have hright : rightNested.Printable :=
    .op (by decide) (by simpa using ⟨ha, .op (by decide) (by simpa using ⟨hminus, hleast⟩)⟩)
  refine ⟨hleft, hright, fun h => ?_⟩
  have hsame := (Expr.text?_fused_inj hleft hright).mp h
  simp [leftNested, rightNested] at hsame

end FusedTree

end DimEquiv
