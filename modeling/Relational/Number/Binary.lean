import Relational.Number.Integer

/-!
# Binary floating-point numbers

A finite binary number is a mantissa times a power of two, within a format that bounds the mantissa and
the exponents. Decimal texts are rounded to the nearest number of the format, ties to an even mantissa.
Numbers are written with the fewest digits that read back as the same number, and of those with the
digits nearest to it.
-/

namespace Relational

/-- A format of binary numbers: the bits of the mantissa, the least exponent and the greatest exponent
of a mantissa read as an integer. -/
structure BinaryFormat where
  precision : Nat
  minExponent : Int
  maxExponent : Int
deriving Repr, DecidableEq

def BinaryFormat.double : BinaryFormat := ⟨53, -1074, 971⟩

def BinaryFormat.single : BinaryFormat := ⟨24, -149, 104⟩

/-- A binary number: not a number, infinite, or a sign with `mantissa * 2 ^ exponent`. -/
inductive Binary where
  | nan
  | infinite (isNegative : Bool)
  | finite (isNegative : Bool) (mantissa : Nat) (exponent : Int)
deriving Repr, DecidableEq

namespace Binary

/-- The quotient rounded to the nearest integer, ties to the even one. -/
def roundQuotient (numerator denominator : Nat) : Nat :=
  let quotient := numerator / denominator
  let twice := 2 * (numerator % denominator)
  if twice < denominator then quotient
  else if twice = denominator ∧ quotient % 2 = 0 then quotient
  else quotient + 1

/-- A fraction times a power of a base, as numerator and denominator. -/
def scale (base numerator denominator : Nat) (exponent : Int) : Nat × Nat :=
  if 0 ≤ exponent then (numerator * Nat.pow base exponent.toNat, denominator)
  else (numerator, denominator * Nat.pow base (-exponent).toNat)

def ofFraction (format : BinaryFormat) (isNegative : Bool) (numerator denominator : Nat) : Binary :=
  if numerator = 0 then finite isNegative 0 format.minExponent
  else
    let guess : Int := numerator.log2 - denominator.log2 - format.precision + 1
    let low := scale 2 numerator denominator (-guess)
    let exponent :=
      if low.1 < low.2 * Nat.pow 2 (format.precision - 1) then guess - 1 else guess
    let exponent := max exponent format.minExponent
    let scaled := scale 2 numerator denominator (-exponent)
    let mantissa := roundQuotient scaled.1 scaled.2
    let (mantissa, exponent) :=
      if mantissa = Nat.pow 2 format.precision then (Nat.pow 2 (format.precision - 1), exponent + 1)
      else (mantissa, exponent)
    if format.maxExponent < exponent then infinite isNegative
    else finite isNegative mantissa exponent

/-- An exponent of ten beyond which every number of a format is infinite or zero. -/
def decimalRange : Int := 400

/-- The nearest number of a format to a decimal number; the sign of zero is given apart. Numbers out of
range are not written out. -/
def ofDecimal (format : BinaryFormat) (isNegative : Bool) (d : Decimal) : Binary :=
  let digits : Int := d.coefficient.natAbs.log2 / 3 + 1
  if d.coefficient = 0 ∨ d.exponent + digits < -decimalRange then
    finite isNegative 0 format.minExponent
  else if decimalRange < d.exponent then infinite isNegative
  else
    let fraction := scale 10 d.coefficient.natAbs 1 d.exponent
    ofFraction format isNegative fraction.1 fraction.2

/-- Reads a number of a format from a decimal text or the words for the other numbers. -/
def parse? (format : BinaryFormat) (text : String) : Option Binary :=
  let isNegative := text.startsWith "-"
  let unsigned := if isNegative || text.startsWith "+" then text.toList.tail else text.toList
  match (String.ofList unsigned).toLower with
  | "nan" => some nan
  | "inf" | "infinity" => some (infinite isNegative)
  | _ => (Decimal.parse? text).map (ofDecimal format isNegative)

/-- The least `k` from a guess upwards with the fraction below `10 ^ k`. -/
def magnitudeFrom (numerator denominator : Nat) : (fuel : Nat) → (k : Int) → Int
  | 0, k => k
  | fuel + 1, k =>
    let power := scale 10 1 1 k
    if numerator * power.2 < power.1 * denominator then k
    else magnitudeFrom numerator denominator fuel (k + 1)

/-- The number of digits before the point of a positive fraction, negative when zeros follow the
point. -/
def magnitude (numerator denominator : Nat) : Int :=
  let bits : Int := numerator.log2 - denominator.log2
  let guess := (bits - 1) * 30103 / 100000 - 1
  magnitudeFrom numerator denominator 8 guess

/-- Whether a decimal `digits * 10 ^ exponent` lies between two fractions with one denominator, the
ends included or not. -/
def liesBetween (digits : Nat) (exponent : Int) (lower upper denominator : Nat) (ends : Bool) : Bool :=
  let value := scale 10 digits 1 exponent
  let middle := value.1 * denominator
  if ends then lower * value.2 ≤ middle && middle ≤ upper * value.2
  else lower * value.2 < middle && middle < upper * value.2

/-- The first count of digits for which one of the two decimals next to `value / denominator` reads
back, the nearer of two, the even one of two equally near. -/
def shortestFrom (value lower upper denominator : Nat) (ends : Bool) (size : Int) :
    (fuel count : Nat) → Nat × Int
  | 0, _ => (0, 0)
  | fuel + 1, count =>
    let exponent := size - count
    let scaled := scale 10 value denominator (-exponent)
    let below := scaled.1 / scaled.2
    let fits := fun digits => liesBetween digits exponent lower upper denominator ends
    match fits below, fits (below + 1) with
    | true, true => (roundQuotient scaled.1 scaled.2, exponent)
    | true, false => (below, exponent)
    | false, true => (below + 1, exponent)
    | false, false => shortestFrom value lower upper denominator ends size fuel (count + 1)

/-- The fewest digits, as an integer and an exponent of ten, that read back as a positive number of a
format. -/
def shortest (format : BinaryFormat) (mantissa : Nat) (exponent : Int) : Nat × Int :=
  let narrow := mantissa = Nat.pow 2 (format.precision - 1) ∧ format.minExponent < exponent
  let unit := scale 2 1 4 exponent
  let value := 4 * mantissa * unit.1
  let lower := (4 * mantissa - if narrow then 1 else 2) * unit.1
  let upper := (4 * mantissa + 2) * unit.1
  shortestFrom value lower upper unit.2 (mantissa % 2 = 0) (magnitude value unit.2) 20 1

/-- The digits of a number without zeros at the end, and the place of the point behind the first of
them. -/
def digits (format : BinaryFormat) (mantissa : Nat) (exponent : Int) : List Char × Int :=
  if mantissa = 0 then (['0'], 1)
  else
    let (value, power) := shortest format mantissa exponent
    let all := Nat.toDigits 10 value
    (Decimal.trimZeros all, all.length + power)

/-- The decimal number with the fewest digits that reads back; zero for what is not finite. -/
def toDecimal (format : BinaryFormat) : Binary → Decimal
  | finite isNegative mantissa exponent =>
    if mantissa = 0 then ⟨0, 0⟩
    else
      let (all, point) := digits format mantissa exponent
      let value : Int := ((digitsValue? all).getD 0 : Nat)
      ⟨if isNegative then -value else value, point - all.length⟩
  | _ => ⟨0, 0⟩

/-- The texts of numbers that are not finite; finite numbers are written as asked for. -/
def write (finiteText : Nat → Int → List Char) : Binary → String
  | nan => "NaN"
  | infinite false => "+Inf"
  | infinite true => "-Inf"
  | finite isNegative mantissa exponent =>
    (if isNegative then "-" else "") ++ String.ofList (finiteText mantissa exponent)

/-- Digits with the point at a place, filled up with zeros. -/
def pointed (all : List Char) (point : Int) : List Char :=
  if point ≤ 0 then '0' :: '.' :: List.replicate (-point).toNat '0' ++ all
  else if all.length ≤ point.toNat then all ++ List.replicate (point.toNat - all.length) '0'
  else all.take point.toNat ++ '.' :: all.drop point.toNat

def positional (format : BinaryFormat) (b : Binary) : String :=
  b.write fun mantissa exponent =>
    if mantissa = 0 then ['0']
    else
      let (all, point) := digits format mantissa exponent
      pointed all point

/-- An exponent of ten with its sign and at least two digits. -/
def exponentText (exponent : Int) : List Char :=
  let all := Nat.toDigits 10 exponent.natAbs
  'e' :: (if exponent < 0 then '-' else '+') :: List.replicate (2 - all.length) '0' ++ all

/-- The exponents of ten from which, and below which, a number is written with an exponent. -/
def exponentRange : Int × Int := (-4, 6)

/-- A number with the fewest digits; with an exponent when its first digit stands more than four places
behind the point, or when more than six digits stand in front of it. -/
def text (format : BinaryFormat) (b : Binary) : String :=
  b.write fun mantissa exponent =>
    if mantissa = 0 then ['0']
    else
      let (all, point) := digits format mantissa exponent
      if point - 1 < exponentRange.1 ∨ exponentRange.2 ≤ point - 1 then
        (match all with
          | [] => []
          | [d] => [d]
          | d :: rest => d :: '.' :: rest) ++ exponentText (point - 1)
      else pointed all point

/-- The integer part as a 64-bit word; the least word when the number has none. -/
def truncate64 : Binary → Int
  | finite isNegative mantissa exponent =>
    let scaled := scale 2 mantissa 1 exponent
    let whole : Int := (scaled.1 / scaled.2 : Nat)
    let value := if isNegative then -whole else whole
    if -(Integer.limit64 : Int) ≤ value ∧ value < Integer.limit64 then value else -Integer.limit64
  | _ => -Integer.limit64

end Binary

end Relational
