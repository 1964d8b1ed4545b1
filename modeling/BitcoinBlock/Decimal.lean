/-!
The fewest decimal digits that read back as a given floating-point number, and their layout. The
numbers that round to it fill an interval, and the coarsest decimal grid with a point inside wins.
Of two points the nearer one is taken; a rule decides when both are equally near.
-/
namespace BitcoinBlock

/-- The number `digits * 10 ^ exponent`. -/
structure Decimal where
  digits : Nat
  exponent : Int
deriving DecidableEq, Repr

namespace Decimal

inductive Tie where
  | toEven
  | up
deriving DecidableEq, Repr

/-- A positive floating-point number and the interval that rounds to it, over a common
denominator. -/
structure Rounding where
  low : Nat
  value : Nat
  high : Nat
  denominator : Nat
  /-- Whether the ends round to the number, too. -/
  closed : Bool

namespace Rounding

/-- The interval around `mantissa * 2 ^ exponent`. Below a power of two the next number is only
half as far away as above it. -/
def ofParts (mantissa : Nat) (exponent : Int) (isPower : Bool) : Rounding :=
  let scale := Nat.pow 2 (exponent - 2).toNat
  { low := (4 * mantissa - if isPower then 1 else 2) * scale
    value := 4 * mantissa * scale
    high := (4 * mantissa + 2) * scale
    denominator := Nat.pow 2 (2 - exponent).toNat
    closed := mantissa % 2 = 0 }

/-- For finite positive numbers. -/
def ofFloat (x : Float) : Rounding :=
  let exponent := (x.toBits >>> 52).toNat % 0x800
  let fraction := x.toBits.toNat % 0x10000000000000
  if exponent = 0 then ofParts fraction (-1074) false
  else ofParts (0x10000000000000 + fraction) ((exponent : Int) - 1075) (fraction = 0 ∧ 1 < exponent)

def inUnits (r : Rounding) (power : Int) : Rounding :=
  let up := Nat.pow 10 (-power).toNat
  { r with
    low := r.low * up
    value := r.value * up
    high := r.high * up
    denominator := r.denominator * Nat.pow 10 power.toNat }

def Contains (r : Rounding) (n : Nat) : Prop :=
  if r.closed then r.low ≤ n * r.denominator ∧ n * r.denominator ≤ r.high
  else r.low < n * r.denominator ∧ n * r.denominator < r.high

instance (r : Rounding) (n : Nat) : Decidable (r.Contains n) := by
  unfold Contains
  infer_instance

/-- Of the two whole numbers of units next to the number, the nearer one. -/
def nearer (r : Rounding) (tie : Tie) : Nat :=
  let below := r.value / r.denominator
  let twice := 2 * (r.value % r.denominator)
  if twice < r.denominator then below
  else if twice = r.denominator ∧ tie = .toEven ∧ below % 2 = 0 then below
  else below + 1

/-- The number of units to take on this grid, if a point of it lies in the interval. -/
def pick? (r : Rounding) (tie : Tie) : Option Nat :=
  let below := r.value / r.denominator
  if r.Contains below ∧ r.Contains (below + 1) then some (r.nearer tie)
  else if r.Contains below then some below
  else if r.Contains (below + 1) then some (below + 1)
  else none

/-- Tries `n` grids, each ten times as fine as the one before. -/
def search (r : Rounding) (tie : Tie) : Nat → Int → Option Decimal
  | 0, _ => none
  | n + 1, power =>
    match (r.inUnits power).pick? tie with
    | some digits => some ⟨digits, power⟩
    | none => search r tie n (power - 1)

/-- A power of ten that the number is below, and not by far. -/
def power (r : Rounding) : Int :=
  ((r.value.log2 : Int) - r.denominator.log2 + 1) * 30103 / 100000 + 1

end Rounding

/-- For finite numbers that are not negative. Seventeen digits always suffice, and the search
starts at most two grids early. -/
def shortest (tie : Tie) (x : Float) : Decimal :=
  if x == 0 then ⟨0, 0⟩
  else
    let r := Rounding.ofFloat x
    (r.search tie 20 r.power).getD ⟨0, 0⟩

/-! ## How shortest decimals are laid out as text -/

structure Style where
  tie : Tie
  /-- The powers of ten of the leading digit that need no exponent. -/
  isPlain : Int → Bool
  /-- Whether whole numbers end in `.0`. -/
  pointZero : Bool

namespace Style

def zeros (n : Nat) : List Char := List.replicate n '0'

/-- Digits with a point after the first `point` of them. -/
def plain (s : Style) (digits : List Char) (point : Int) : List Char :=
  if point ≤ 0 then '0' :: '.' :: (zeros (-point).toNat ++ digits)
  else if point < digits.length then
    digits.take point.toNat ++ '.' :: digits.drop point.toNat
  else
    digits ++ zeros (point.toNat - digits.length) ++ if s.pointZero then ['.', '0'] else []

/-- One digit before the point, and the power of ten behind. -/
def scientific (digits : List Char) (power : Int) : List Char :=
  digits.take 1 ++ (if digits.length ≤ 1 then [] else '.' :: digits.drop 1) ++
    'e' :: (if power < 0 then '-' else '+') :: Nat.toDigits 10 power.natAbs

def render (s : Style) (x : Float) : String :=
  let d := shortest s.tie x
  let digits := Nat.toDigits 10 d.digits
  let point := d.exponent + digits.length
  String.ofList (if s.isPlain (point - 1) then s.plain digits point else
    scientific digits (point - 1))

end Style

end Decimal

end BitcoinBlock
