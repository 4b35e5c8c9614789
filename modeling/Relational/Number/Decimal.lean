/-!
# Decimal numbers

A decimal number is an integer coefficient times a power of ten. It is read from digits with at most one
point and an optional exponent, and written without exponent and without zeros at the end of its
fraction.
-/

namespace Relational

/-- The value of decimal digits; nothing when there are none or a character is no digit. -/
def digitsValue? (digits : List Char) : Option Nat :=
  if digits.isEmpty || !digits.all Char.isDigit then none
  else some (digits.foldl (fun value d => 10 * value + (d.toNat - '0'.toNat)) 0)

/-- The value of decimal digits after an optional sign. -/
def signedDigitsValue? : List Char → Option Int
  | '-' :: digits => (digitsValue? digits).map fun n => -(n : Int)
  | '+' :: digits => (digitsValue? digits).map Int.ofNat
  | digits => (digitsValue? digits).map Int.ofNat

/-- The decimal number `coefficient * 10 ^ exponent`. -/
structure Decimal where
  coefficient : Int
  exponent : Int
deriving Repr, DecidableEq

namespace Decimal

def exponentLimit : Nat := 0x80000000

def exponentFits (exponent : Int) : Bool :=
  -(exponentLimit : Int) ≤ exponent && exponent < exponentLimit

def ofInt (n : Int) : Decimal := ⟨n, 0⟩

/-- Splits off the exponent after the first letter `e`; without one the exponent is zero. -/
def splitExponent (text : List Char) : Option (List Char × Int) :=
  let isMark := fun c => c = 'e' || c = 'E'
  match text.dropWhile (!isMark ·) with
  | [] => some (text, 0)
  | _ :: exponent => do
    let value ← signedDigitsValue? exponent
    if exponentFits value then some (text.takeWhile (!isMark ·), value) else none

/-- Reads a decimal number: digits with an optional sign, at most one point, and an optional
exponent. The point is taken out of the digits and counted into the exponent. -/
def parse? (text : String) : Option Decimal := do
  let (digits, exponent) ← splitExponent text.toList
  match digits.count '.' with
  | 0 => return ⟨← signedDigitsValue? digits, exponent⟩
  | 1 =>
    let whole := digits.takeWhile (· ≠ '.')
    let fraction := (digits.dropWhile (· ≠ '.')).tail
    let coefficient ← signedDigitsValue? (whole ++ fraction)
    let exponent := exponent - fraction.length
    if exponentFits exponent then return ⟨coefficient, exponent⟩ else failure
  | _ => failure

def trimZeros (digits : List Char) : List Char :=
  (digits.reverse.dropWhile (· = '0')).reverse

/-- Digits with a point so that `scale` of them follow it, at least one before it, and no zeros at the
end of the fraction. -/
def placePoint (digits : List Char) (scale : Nat) : List Char :=
  let padded := List.replicate (scale + 1 - digits.length) '0' ++ digits
  let whole := padded.take (padded.length - scale)
  match trimZeros (padded.drop (padded.length - scale)) with
  | [] => whole
  | fraction => whole ++ '.' :: fraction

def text (d : Decimal) : String :=
  let digits := Nat.toDigits 10 d.coefficient.natAbs
  let sign := if d.coefficient < 0 then "-" else ""
  let number :=
    if 0 ≤ d.exponent then Nat.toDigits 10 (d.coefficient.natAbs * Nat.pow 10 d.exponent.toNat)
    else placePoint digits (-d.exponent).toNat
  sign ++ String.ofList number

end Decimal

end Relational
