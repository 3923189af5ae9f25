/-!
Integers of 64 bits whose arithmetic gives no result where the exact one does not fit, and doubles
as whole numbers of units, where a unit is the least positive double. The shortest decimal of a
double is searched among whole numbers of grains, a grain being a power of ten that makes every
decimal worth trying whole.
-/
namespace SemanticParsing

namespace Whole

def fit? (n : Int) : Option Int64 :=
  if Int64.minValue.toInt ≤ n ∧ n ≤ Int64.maxValue.toInt then some (Int64.ofInt n) else none

def add? (a b : Int64) : Option Int64 := fit? (a.toInt + b.toInt)

def subtract? (a b : Int64) : Option Int64 := fit? (a.toInt - b.toInt)

def multiply? (a b : Int64) : Option Int64 := fit? (a.toInt * b.toInt)

def divide? (a b : Int64) : Option Int64 :=
  if b.toInt ≠ 0 ∧ a.toInt % b.toInt = 0 then fit? (a.toInt / b.toInt) else none

def abs? (a : Int64) : Option Int64 := fit? a.toInt.natAbs

def exponentLimit : Int := 4294967295

/-- A power with a whole exponent. Past 63 only the bases -1, 0 and 1 have a power that fits, and
theirs depend on the parity of the exponent alone. -/
def power? (a b : Int64) : Option Int64 :=
  if b.toInt < 0 ∨ exponentLimit < b.toInt then none
  else if 63 < b.toInt ∧ 1 < a.toInt.natAbs then none
  else if 63 < b.toInt then fit? (Int.pow a.toInt (2 + b.toInt.toNat % 2))
  else fit? (Int.pow a.toInt b.toInt.toNat)

end Whole

namespace Decimal

/-- Units in one: a double's value is its units divided by this. -/
def unitsPerOne : Nat := Nat.pow 2 1074

def leadingBit : Nat := Nat.pow 2 52

def signBit : Nat := Nat.pow 2 63

/-- A finite non-negative double of `significand * 2 ^ scale` units. -/
structure Magnitude where
  significand : Nat
  scale : Nat
  deriving DecidableEq, Repr

namespace Magnitude

def units (m : Magnitude) : Nat := m.significand * Nat.pow 2 m.scale

/-- Below the leading bit a pattern is a significand of scale 0; above it, the stored fraction
lacks that bit and the scale is one less than the exponent bits say. -/
def ofPattern (pattern : Nat) : Magnitude :=
  if pattern < leadingBit then ⟨pattern, 0⟩
  else ⟨leadingBit + pattern % leadingBit, pattern / leadingBit - 1⟩

def pattern (m : Magnitude) : Nat := m.scale * leadingBit + m.significand

end Magnitude

def infinityPattern : Nat := 2047 * leadingBit

def roundHalfEven (n d : Nat) : Nat :=
  if 2 * (n % d) < d then n / d
  else if 2 * (n % d) > d then n / d + 1
  else n / d + n / d % 2

/-- The pattern of the double nearest to `n / d`, a tie going to the even pattern and anything
past the greatest finite double to infinity. A significand that rounds up to `2 ^ 53` carries
into the scale, which is how the next pattern is written anyway. -/
def nearestPattern (n d : Nat) : Nat :=
  let units := n * unitsPerOne
  let scale := (units / d).log2 - 52
  min (Magnitude.pattern ⟨roundHalfEven units (d * Nat.pow 2 scale), scale⟩) infinityPattern

/-- The double with the given sign and non-negative pattern. -/
def ofSignAndPattern (negative : Bool) (pattern : Nat) : Float :=
  Float.ofBits (UInt64.ofNat (if negative then signBit + pattern else pattern))

def isNegative (x : Float) : Bool := signBit ≤ x.toBits.toNat

def magnitudePattern (x : Float) : Nat := x.toBits.toNat % signBit

def magnitude (x : Float) : Magnitude := .ofPattern (magnitudePattern x)

def ofInteger (n : Int) : Float :=
  ofSignAndPattern (n < 0) (nearestPattern n.natAbs 1)

/-- Decimal places of a grain. A quarter of the gap above a double is `2 ^ (scale - 1076)`, which
has `1076 - scale` decimal places when it is below one. -/
def Magnitude.grainPlaces (m : Magnitude) : Nat := 1076 - m.scale

/-- The points that round to a double, in grains. The ends belong to it when its significand is
even, since ties are rounded to even. -/
structure RoundingInterval where
  low : Nat
  middle : Nat
  high : Nat
  closed : Bool

namespace RoundingInterval

/-- Below a power of two the doubles are twice as dense, so the lower half is half as wide. -/
def ofMagnitude (m : Magnitude) : RoundingInterval :=
  let quarter := Nat.pow 2 (m.scale - 1076) * Nat.pow 5 m.grainPlaces
  let below := if m.significand = leadingBit ∧ 0 < m.scale then quarter else 2 * quarter
  { low := 4 * m.significand * quarter - below
    middle := 4 * m.significand * quarter
    high := 4 * m.significand * quarter + 2 * quarter
    closed := m.significand % 2 = 0 }

def contains (i : RoundingInterval) (grains : Nat) : Bool :=
  if i.closed then i.low ≤ grains && grains ≤ i.high else i.low < grains && grains < i.high

/-- The multiple of `step` in the interval that is nearest to the middle, divided by `step`. Only
the middle's two neighbours can be it, and at equal distance the greater is taken. -/
def nearestMultiple? (i : RoundingInterval) (step : Nat) : Option Nat :=
  let below := i.middle / step
  match i.contains (below * step), i.contains ((below + 1) * step) with
  | true, true => if 2 * (i.middle - below * step) < step then some below else some (below + 1)
  | true, false => some below
  | false, true => some (below + 1)
  | false, false => none

/-- Tries the steps `10 ^ place` from coarse to fine; one grain always succeeds. -/
def search (i : RoundingInterval) : Nat → Nat × Nat
  | 0 => (i.middle, 0)
  | place + 1 =>
    match i.nearestMultiple? (Nat.pow 10 (place + 1)) with
    | some digits => (digits, place + 1)
    | none => i.search place

/-- A place whose step is past the interval. The estimate is `log10 2` rounded up, and where it
does not reach, the number of binary digits does. -/
def startPlace (i : RoundingInterval) : Nat :=
  let estimate := i.high.log2 * 30103 / 100000 + 1
  if i.high < Nat.pow 10 estimate then estimate else i.high.log2 + 1

end RoundingInterval

structure Scientific where
  digits : Nat
  exponent : Int
  deriving DecidableEq, Repr

def shortest (m : Magnitude) : Scientific :=
  let i := RoundingInterval.ofMagnitude m
  let (digits, place) := i.search i.startPlace
  ⟨digits, place - m.grainPlaces⟩

end Decimal

end SemanticParsing
