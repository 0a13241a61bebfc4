/-!
# Numbers with a finite decimal expansion

Literals of a program are whole numbers or finite decimals in lowest terms, so that every value has
one form. Printing is positional for magnitudes from 10⁻⁶ up to, but not including, 10²¹, and
scientific outside that range.
-/

namespace DimEquiv

/-- A whole number, or a coefficient with so many decimal places that its last digit counts. -/
inductive Number where
  | int (n : Int)
  | decimal (coefficient : Int) (places : Nat) (lowest : 0 < places ∧ coefficient % 10 ≠ 0)
  deriving DecidableEq

namespace Number

instance : Inhabited Number := ⟨.int 0⟩

instance (n : Nat) : OfNat Number n := ⟨.int n⟩

/-- The number `coefficient / 10 ^ places`, with the zeros at its end taken off. -/
def ofScaled (coefficient : Int) : Nat → Number
  | 0 => .int coefficient
  | places + 1 =>
    if h : coefficient % 10 = 0 then ofScaled (coefficient / 10) places
    else .decimal coefficient (places + 1) ⟨places.succ_pos, h⟩

@[simp] theorem ofScaled_zero (coefficient : Int) : ofScaled coefficient 0 = .int coefficient := rfl

/-- A zero at the end of the coefficient does not change the number. -/
theorem ofScaled_mul_ten (coefficient : Int) (places : Nat) :
    ofScaled (coefficient * 10) (places + 1) = ofScaled coefficient places := by
  simp [ofScaled]

def isNegative : Number → Bool
  | .int n => n < 0
  | .decimal coefficient _ _ => coefficient < 0

/-- The digits of a natural number, most significant first. -/
def digits (n : Nat) : List Char := Nat.toDigits 10 n

/-- Digits of which the first stands before the point, with a signed exponent. -/
def scientific (ds : List Char) (exponent : Int) : List Char :=
  let tail := 'e' :: (if exponent < 0 then '-' else '+') :: digits exponent.natAbs
  match ds with
  | [] => tail
  | [d] => d :: tail
  | d :: rest => d :: '.' :: rest ++ tail

/-- The text of a whole magnitude: all its digits below 10²¹, else the scientific form. -/
def wholeText (n : Nat) : List Char :=
  let ds := digits n
  if n < Nat.pow 10 21 then ds
  else scientific (ds.reverse.dropWhile (· == '0')).reverse (ds.length - 1)

/-- The text of `coefficient / 10 ^ places`, where the last digit of the coefficient is not zero:
positional for magnitudes from 10⁻⁶ up to 10²¹, else the scientific form. -/
def decimalText (coefficient places : Nat) : List Char :=
  let ds := digits coefficient
  let point : Int := ds.length - places
  if 0 < point ∧ point ≤ 21 then ds.take point.toNat ++ '.' :: ds.drop point.toNat
  else if -6 < point ∧ point ≤ 0 then '0' :: '.' :: List.replicate (-point).toNat '0' ++ ds
  else scientific ds (point - 1)

/-- The text of a number without its sign. -/
def magnitudeText : Number → List Char
  | .int n => wholeText n.natAbs
  | .decimal coefficient places _ => decimalText coefficient.natAbs places

/-- The printed form of a number. -/
def text (x : Number) : String :=
  String.ofList (if x.isNegative then '-' :: x.magnitudeText else x.magnitudeText)

theorem wholeText_of_lt {n : Nat} (h : n < Nat.pow 10 21) : wholeText n = Nat.toDigits 10 n :=
  if_pos h

end Number

end DimEquiv
