import DimEquiv.Number

/-!
# Literals of binary64 precision

A literal stands for the nearest binary64 value, a tie going to the even significand, and is kept
as the decimal with the fewest digits that still rounds to that value; of several, the nearest.
All of it is exact arithmetic on natural numbers.
-/

namespace DimEquiv

/-- The nonnegative value `significand * 2 ^ exponent`. -/
structure Binary64 where
  significand : Nat
  exponent : Int
  deriving DecidableEq

namespace Binary64

/-- The nearest whole number to `p / q`, a half going to the even neighbour. -/
def roundQuotient (p q : Nat) : Nat :=
  let below := p / q
  let rest := 2 * (p % q)
  if rest < q then below
  else if q < rest then below + 1
  else below + below % 2

/-- The largest `e` with `2 ^ e ≤ p / q`, for positive `p` and `q`. -/
def floorLog (p q : Nat) : Int :=
  let e : Int := p.log2 - q.log2
  if q * Nat.pow 2 e.toNat ≤ p * Nat.pow 2 (-e).toNat then e else e - 1

/-- The binary64 value nearest to `p / q`, for positive `p` and `q`. -/
def nearest (p q : Nat) : Binary64 :=
  let e := max (floorLog p q - 52) (-1074)
  let m := roundQuotient (p * Nat.pow 2 (-e).toNat) (q * Nat.pow 2 e.toNat)
  if m = Nat.pow 2 53 then ⟨Nat.pow 2 52, e + 1⟩ else ⟨m, e⟩

/-- The reals that round to a value, in quarters of its last binary place. The gap below a power of
two is half as wide as the gap above it. -/
def bounds (x : Binary64) : Nat × Nat :=
  let m := x.significand
  (4 * m - (if m = Nat.pow 2 52 ∧ -1074 < x.exponent then 1 else 2), 4 * m + 2)

/-- The multiple of `10 ^ g` that lies nearest to the value among those that round to it, divided
by `10 ^ g`. A value midway between two goes to the even one. -/
def gridPoint (x : Binary64) (g : Int) : Option Nat :=
  let quarter := Nat.pow 2 (x.exponent - 2).toNat * Nat.pow 10 (-g).toNat
  let step := Nat.pow 2 (2 - x.exponent).toNat * Nat.pow 10 g.toNat
  let value := 4 * x.significand * quarter
  let rounds (n : Nat) : Bool :=
    if x.significand % 2 = 0 then x.bounds.1 * quarter ≤ n * step ∧ n * step ≤ x.bounds.2 * quarter
    else x.bounds.1 * quarter < n * step ∧ n * step < x.bounds.2 * quarter
  let below := value / step
  let nearer := roundQuotient value step
  if rounds nearer then some nearer
  else if rounds below then some below
  else if rounds (below + 1) then some (below + 1)
  else none

/-- The first grid with a point that rounds to the value, from `10 ^ g` on to finer ones. -/
def coarsest (x : Binary64) (g : Int) : Nat → Option (Nat × Int)
  | 0 => none
  | fuel + 1 =>
    match x.gridPoint g with
    | some n => some (n, g)
    | none => coarsest x (g - 1) fuel

end Binary64

namespace Number

/-- The number that the literal `mantissa / 10 ^ places` stands for. A whole number up to 2⁵³ is a
binary64 value and keeps its digits; elsewhere seventeen digits are always enough. -/
def ofLiteral (mantissa : Int) (places : Nat) : Number :=
  if places = 0 ∧ mantissa.natAbs ≤ Nat.pow 2 53 then .int mantissa
  else if mantissa = 0 then .int 0
  else
    let p := mantissa.natAbs
    let magnitude : Int := (digits p).length - places
    match (Binary64.nearest p (Nat.pow 10 places)).coarsest magnitude 19 with
    | some (n, g) => ofScaled (mantissa.sign * (n * Nat.pow 10 g.toNat : Nat)) (-g).toNat
    | none => .int 0

end Number

end DimEquiv
