import Reckoner.Number.Binary

/-!
The shortest decimal of a double. Among the decimals that read back as the double, those with the
fewest digits are taken, and of these the nearest. A decimal reads back when it lies between the
points halfway to the neighbouring doubles; the points themselves count when the mantissa is even.
-/
namespace Reckoner.Number

/-- The number `digits * 10 ^ exponent`. -/
structure Decimal where
  digits : Nat
  exponent : Int

/-- Whether a decimal reads back as the positive double `m * 2 ^ q`. The gap below a power of two
is half the gap above it. -/
def readsBack (m : Nat) (q : Int) (d : Decimal) : Bool :=
  let left := d.digits * tenTo d.exponent.toNat * twoTo (2 - q).toNat
  let unit := tenTo (-d.exponent).toNat * twoTo (q - 2).toNat
  let below := if m = twoTo 52 ∧ q ≠ -1074 then 1 else 2
  let low := (4 * m - below) * unit
  let high := (4 * m + 2) * unit
  if m % 2 = 0 then low ≤ left && left ≤ high else low < left && left < high

def decimalLength (n : Nat) : Nat := (Nat.toDigits 10 n).length

/-- The number of digits before the decimal point of `m * 2 ^ q`; it is not positive for values
below one tenth. -/
def decimalOrder (m : Nat) (q : Int) : Int :=
  decimalLength (m * twoTo q.toNat * tenTo 400 / twoTo (-q).toNat) - 400

/-- The quotient of `m * 2 ^ q` by `10 ^ k`, as a fraction. -/
def scaledDown (m : Nat) (q k : Int) : Nat × Nat :=
  (m * twoTo q.toNat * tenTo (-k).toNat, twoTo (-q).toNat * tenTo k.toNat)

/-- The neighbours of `m * 2 ^ q` among the multiples of `10 ^ k`, the nearer first. -/
def neighbours (m : Nat) (q k : Int) : List Decimal :=
  let (num, den) := scaledDown m q k
  let near := roundQuotient num den
  let far := if near = num / den then near + 1 else near - 1
  [⟨near, k⟩, ⟨far, k⟩]

def exactDecimal (m : Nat) (q : Int) : Decimal :=
  if 0 ≤ q then ⟨m * twoTo q.toNat, 0⟩ else ⟨m * Nat.pow 5 (-q).toNat, q⟩

/-- Tries one digit count after the other, and takes the exact value when none is left. -/
def shortestFrom (m : Nat) (q order : Int) (count : Nat) : Nat → Decimal
  | 0 => exactDecimal m q
  | more + 1 =>
    match (neighbours m q (order - count)).find? (readsBack m q) with
    | some d => d
    | none => shortestFrom m q order (count + 1) more

def shortest (m : Nat) (q : Int) : Decimal :=
  if m = 0 then ⟨0, 0⟩ else shortestFrom m q (decimalOrder m q) 1 17

end Reckoner.Number
