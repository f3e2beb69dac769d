/-! Numbers as they are read and written. A literal is a whole number to base sixteen, eight or two
behind a marker, a signed infinity, or a signed decimal. The text of a number has the fewest digits
that read back as the same double: every power of ten gives a grid of decimals, and the coarsest
grid with a neighbour of the value inside the interval that rounds to it holds them. -/
namespace EagerLisp

/-- A decimal stands for `digits · 10 ^ exponent`. -/
structure Decimal where
  digits : Nat
  exponent : Int
deriving DecidableEq

namespace Decimal

/-- A positive rational between two others, all as numerators over one unit; the ends belong to
the interval when it is closed. -/
structure Interval where
  lower : Nat
  value : Nat
  upper : Nat
  unit : Nat
  closed : Bool

namespace Interval

/-- A decimal as a numerator over the interval's unit, scaled by `weight` of its exponent. -/
def numerator (interval : Interval) (decimal : Decimal) : Nat :=
  decimal.digits * Nat.pow 10 decimal.exponent.toNat * interval.unit

def weight (exponent : Int) : Nat :=
  Nat.pow 10 (-exponent).toNat

def contains (interval : Interval) (decimal : Decimal) : Bool :=
  let point := interval.numerator decimal
  let low := interval.lower * weight decimal.exponent
  let high := interval.upper * weight decimal.exponent
  if interval.closed then low ≤ point && point ≤ high else low < point && point < high

def below (interval : Interval) (exponent : Int) : Decimal :=
  ⟨interval.value * weight exponent / (Nat.pow 10 exponent.toNat * interval.unit), exponent⟩

def above (interval : Interval) (exponent : Int) : Decimal :=
  ⟨(interval.below exponent).digits + 1, exponent⟩

def nearerAbove (interval : Interval) (exponent : Int) : Bool :=
  interval.numerator (interval.below exponent) + interval.numerator (interval.above exponent)
    ≤ 2 * (interval.value * weight exponent)

/-- The neighbour of the value with this exponent that lies in the interval, the nearer one if
both do and the upper one if both are equally near. -/
def neighbour? (interval : Interval) (exponent : Int) : Option Decimal :=
  let low := interval.below exponent
  let high := interval.above exponent
  if interval.contains high && (!interval.contains low || interval.nearerAbove exponent) then
    some high
  else if interval.contains low then some low
  else none

def search (interval : Interval) (exponent : Int) : Nat → Decimal
  | 0 => interval.below exponent
  | finer + 1 =>
    match interval.neighbour? exponent with
    | some decimal => decimal
    | none => search interval (exponent - 1) finer

/-- An exponent whose power of ten exceeds the value: a factor of two is less than 0.30103
powers of ten. -/
def coarsest (interval : Interval) : Int :=
  ((interval.value.log2 : Int) - interval.unit.log2 + 1) * 30103 / 100000 + 1

/-- The decimal of the interval with the fewest digits, the nearest to the value of those. A
grid twenty places below the value is finer than half the distance between two doubles. -/
def shortest (interval : Interval) : Decimal :=
  interval.search interval.coarsest 24

end Interval

/-- The plain positional text of a decimal: no exponent, no point behind a whole number, one
zero before a point that no digit precedes. -/
def positional (decimal : Decimal) : String :=
  let digits := (toString decimal.digits).toList
  let places := (-decimal.exponent).toNat
  let written :=
    if places = 0 then digits ++ List.replicate decimal.exponent.toNat '0'
    else if places < digits.length then
      digits.take (digits.length - places) ++ '.' :: digits.drop (digits.length - places)
    else '0' :: '.' :: (List.replicate (places - digits.length) '0' ++ digits)
  String.ofList written

end Decimal

namespace Number

inductive Literal where
  | based (radix : Nat) (digits : List Nat)
  | infinite (negative : Bool)
  | decimal (negative : Bool) (digits : Nat) (exponent : Int)
deriving DecidableEq

def digit? (radix : Nat) (c : Char) : Option Nat :=
  let value? :=
    if c.isDigit then some (c.toNat - '0'.toNat)
    else if 'a' ≤ c ∧ c ≤ 'f' then some (c.toNat - 'a'.toNat + 10)
    else if 'A' ≤ c ∧ c ≤ 'F' then some (c.toNat - 'A'.toNat + 10)
    else none
  value?.filter (· < radix)

def digits? (radix : Nat) (text : List Char) : Option (List Nat) :=
  text.mapM (digit? radix)

def ofDigits (digits : List Char) : Nat :=
  digits.foldl (fun total c => 10 * total + (c.toNat - '0'.toNat)) 0

def splitSign : List Char → Bool × List Char
  | '+' :: rest => (false, rest)
  | '-' :: rest => (true, rest)
  | text => (false, text)

def based? (radix : Nat) (text : List Char) : Option Literal :=
  if text.isEmpty then none else (digits? radix text).map (.based radix)

def exponent? : List Char → Option Int
  | [] => some 0
  | c :: rest =>
    let (negative, digits) := splitSign rest
    if (c = 'e' || c = 'E') && !digits.isEmpty && digits.all Char.isDigit then
      some (if negative then -(ofDigits digits : Int) else ofDigits digits)
    else none

/-- An unsigned decimal: digits with an optional point among or around them, then an exponent. -/
def decimal? (negative : Bool) (text : List Char) : Option Literal :=
  let (whole, afterWhole) := text.span Char.isDigit
  let (places, tail) :=
    match afterWhole with
    | '.' :: rest => rest.span Char.isDigit
    | rest => ([], rest)
  if whole.isEmpty && places.isEmpty then none
  else (exponent? tail).map fun exponent =>
    .decimal negative (ofDigits (whole ++ places)) (exponent - places.length)

def signed? (text : List Char) : Option Literal :=
  let (negative, unsigned) := splitSign text
  if unsigned = "Infinity".toList then some (.infinite negative) else decimal? negative unsigned

/-- Reads a literal; the whole text has to belong to it. -/
def literal? : List Char → Option Literal
  | '0' :: 'x' :: digits | '0' :: 'X' :: digits => based? 16 digits
  | '0' :: 'o' :: digits | '0' :: 'O' :: digits => based? 8 digits
  | '0' :: 'b' :: digits | '0' :: 'B' :: digits => based? 2 digits
  | text => signed? text

def withSign (negative : Bool) (magnitude : Float) : Float :=
  if negative then -magnitude else magnitude

/-- The double that a literal stands for. A decimal is rounded once, to nearest with ties to
even; digits to another base are added one by one, and each step rounds. -/
def Literal.value : Literal → Float
  | .based radix digits =>
    digits.foldl (fun total digit => total * radix.toFloat + digit.toFloat) 0
  | .infinite negative => withSign negative (1 / 0)
  | .decimal negative digits exponent =>
    withSign negative (Float.ofScientific digits (exponent < 0) exponent.natAbs)

def ofText? (text : String) : Option Float :=
  (literal? text.toList).map Literal.value

def exponentField (bits : Nat) : Nat :=
  bits / Nat.pow 2 52 % Nat.pow 2 11

def fractionField (bits : Nat) : Nat :=
  bits % Nat.pow 2 52

/-- The rationals that round to the positive finite double with these fields, in quarters of its
last place. The interval is narrower below a power of two, and its ends round to the double
exactly if its significand is even. -/
def interval (exponent fraction : Nat) : Decimal.Interval :=
  let significand := if exponent = 0 then fraction else Nat.pow 2 52 + fraction
  let place : Int := (max exponent 1 : Nat) - 1077
  let raised := Nat.pow 2 place.toNat
  let down := if fraction = 0 && 1 < exponent then 1 else 2
  { lower := (4 * significand - down) * raised
    value := 4 * significand * raised
    upper := (4 * significand + 2) * raised
    unit := Nat.pow 2 (-place).toNat
    closed := significand % 2 = 0 }

def magnitudeText (exponent fraction : Nat) : String :=
  if exponent = 0 && fraction = 0 then "0"
  else (interval exponent fraction).shortest.positional

def text (number : Float) : String :=
  let bits := number.toBits.toNat
  let sign := if bits < Nat.pow 2 63 then "" else "-"
  if exponentField bits < 2047 then
    sign ++ magnitudeText (exponentField bits) (fractionField bits)
  else if fractionField bits = 0 then sign ++ "Infinity"
  else "NaN"

end Number

end EagerLisp
