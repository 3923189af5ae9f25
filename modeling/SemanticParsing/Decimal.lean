import SemanticParsing.Number
/-!
How numbers are written and read. A `Layout` holds the choices of one format: `plain` is the format
of values and scores, `annotated` that of the weights in the learner's log.
-/
namespace SemanticParsing.Decimal

def digitText (n : Nat) : String := String.ofList (Nat.toDigits 10 n)

def integerText (n : Int) : String :=
  if n < 0 then "-" ++ digitText n.natAbs else digitText n.natAbs

/-- The magnitudes written without an exponent: those from `10 ^ low` up to but not including
`10 ^ high`, and zero. -/
structure PositionalRange where
  low : Int
  high : Int

structure Layout where
  positional : Option PositionalRange
  /-- Whether a whole number ends in `.0` when it is written without an exponent. -/
  marksWhole : Bool

namespace Layout

def plain : Layout := ⟨none, false⟩

def annotated : Layout := ⟨some ⟨-4, 16⟩, true⟩

def positionalText (layout : Layout) (s : Scientific) : String :=
  let digits := digitText s.digits
  match s.exponent with
  | .ofNat zeros =>
    digits ++ String.ofList (List.replicate zeros '0') ++ if layout.marksWhole then ".0" else ""
  | .negSucc places =>
    let places := places + 1
    if places < digits.length then
      let whole := digits.toList.take (digits.length - places)
      String.ofList whole ++ "." ++ String.ofList (digits.toList.drop (digits.length - places))
    else
      "0." ++ String.ofList (List.replicate (places - digits.length) '0') ++ digits

def leadingExponent (s : Scientific) : Int :=
  s.exponent + (digitText s.digits).length - 1

/-- One digit, a point when more digits follow, and the exponent. -/
def exponentText (s : Scientific) : String :=
  let exponent := integerText (leadingExponent s)
  match (digitText s.digits).toList with
  | [] => ""
  | [d] => String.ofList [d] ++ "e" ++ exponent
  | d :: rest => String.ofList (d :: '.' :: rest) ++ "e" ++ exponent

def magnitudeText (layout : Layout) (m : Magnitude) : String :=
  if m.significand = 0 then layout.positionalText ⟨0, 0⟩
  else
    let s := shortest m
    match layout.positional with
    | none => layout.positionalText s
    | some range =>
      if range.low ≤ leadingExponent s ∧ leadingExponent s < range.high then
        layout.positionalText s
      else exponentText s

def text (layout : Layout) (x : Float) : String :=
  if x.isNaN then "NaN"
  else
    let sign := if isNegative x then "-" else ""
    if magnitudePattern x = infinityPattern then sign ++ "inf"
    else sign ++ layout.magnitudeText (magnitude x)

end Layout

/-- A non-negative double with exactly `places` decimals, the exact binary value being rounded
half to even. -/
def fixedText (places : Nat) (x : Float) : String :=
  let one := Nat.pow 10 places
  let scaled := roundHalfEven ((magnitude x).units * one) unitsPerOne
  let fraction := digitText (scaled % one)
  let padding := String.ofList (List.replicate (places - fraction.length) '0')
  digitText (scaled / one) ++ "." ++ padding ++ fraction

def digitsValue (digits : List Char) : Nat :=
  digits.foldl (fun value c => 10 * value + (c.toNat - '0'.toNat)) 0

/-- Splits off a leading sign; `true` is minus. -/
def takeSign : List Char → Bool × List Char
  | '-' :: rest => (true, rest)
  | '+' :: rest => (false, rest)
  | rest => (false, rest)

def readInteger? (text : List Char) : Option Int :=
  let (negative, digits) := takeSign text
  if digits.isEmpty || !digits.all Char.isDigit then none
  else some (if negative then -(digitsValue digits : Int) else digitsValue digits)

def readExponent? : List Char → Option Int
  | [] => some 0
  | c :: rest => if c = 'e' ∨ c = 'E' then readInteger? rest else none

/-- Reads a decimal without its sign. The digits after the point count as digits of the whole
and lower the exponent. -/
def readScientific? (text : List Char) : Option Scientific :=
  let whole := text.takeWhile Char.isDigit
  let rest := text.dropWhile Char.isDigit
  let (fraction, rest) := match rest with
    | '.' :: rest => (rest.takeWhile Char.isDigit, rest.dropWhile Char.isDigit)
    | rest => ([], rest)
  if whole.isEmpty && fraction.isEmpty then none
  else (readExponent? rest).map fun exponent =>
    ⟨digitsValue (whole ++ fraction), exponent - fraction.length⟩

/-- The pattern of the double nearest to a decimal. Exponents far outside the range of the doubles
are answered before any power of ten is computed: `10 ^ 400` is past the greatest double, and a
decimal below `2 ^ -1075` is less than half a unit. -/
def Scientific.pattern (s : Scientific) : Nat :=
  if s.digits = 0 then 0
  else match s.exponent with
    | .ofNat n => if 400 < n then infinityPattern else nearestPattern (s.digits * Nat.pow 10 n) 1
    | .negSucc n =>
      if s.digits.log2 + 1076 ≤ 3 * (n + 1) then 0 else nearestPattern s.digits (Nat.pow 10 (n + 1))

def readFloat? (text : List Char) : Option Float :=
  let (negative, rest) := takeSign text
  match readScientific? rest with
  | some s => some (ofSignAndPattern negative s.pattern)
  | none =>
    match String.ofList (rest.map Char.toLower) with
    | "inf" | "infinity" => some (ofSignAndPattern negative infinityPattern)
    | "nan" => some (Float.ofBits 0x7ff8000000000000)
    | _ => none

end SemanticParsing.Decimal
