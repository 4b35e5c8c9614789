import Relational.Number.Decimal

/-!
# Integer literals

Integers are read with an optional sign and an optional mark of their base: `0b` for two, `0o` or a
leading zero for eight, `0x` for sixteen. Single underscores may separate digits, also after the mark.
The value must fit a signed 64-bit word.
-/

namespace Relational.Integer

/-- Two to the power 63: the signed 64-bit words are the integers from its negative up to below it. -/
def limit64 : Nat := 0x8000000000000000

/-- The value of a letter or digit as a digit of a base. -/
def digit? (base : Nat) (c : Char) : Option Nat :=
  let c := c.toLower
  let value :=
    if c.isDigit then some (c.toNat - '0'.toNat)
    else if 'a' ≤ c ∧ c ≤ 'z' then some (c.toNat - 'a'.toNat + 10)
    else none
  value.filter (· < base)

/-- The value of digits of a base between which underscores may stand. -/
def digitsValue? (base : Nat) (digits : List Char) : Option Nat :=
  digits.foldlM (fun value c =>
    if c = '_' then some value else (digit? base c).map (base * value + ·)) 0

/-- The base of a number from its mark, and the digits after the mark. -/
def splitBase : List Char → Nat × List Char
  | '0' :: mark :: d :: rest =>
    match mark.toLower with
    | 'b' => (2, d :: rest)
    | 'o' => (8, d :: rest)
    | 'x' => (16, d :: rest)
    | _ => (8, mark :: d :: rest)
  | '0' :: rest => (8, rest)
  | digits => (10, digits)

/-- Whether every underscore follows a digit and is followed by one; `afterDigit` when a digit or the
mark of the base stands just before. -/
def underscoresFit : (afterDigit : Bool) → List Char → Bool
  | _, [] => true
  | afterDigit, '_' :: rest => afterDigit && !rest.isEmpty && rest.head? != some '_' &&
      underscoresFit false rest
  | _, _ :: rest => underscoresFit true rest

/-- Whether the underscores of an unsigned number separate digits only. -/
def underscoresOk (number : List Char) : Bool :=
  match number with
  | '0' :: mark :: rest =>
    if mark.toLower = 'b' ∨ mark.toLower = 'o' ∨ mark.toLower = 'x' then underscoresFit true rest
    else underscoresFit false number
  | _ => underscoresFit false number

def parseUnsigned? (number : List Char) : Option Nat :=
  if number.isEmpty then none
  else
    let (base, digits) := splitBase number
    if underscoresOk number then digitsValue? base digits else none

def parse? (text : List Char) : Option Int :=
  match text with
  | '-' :: number => do
    let value ← parseUnsigned? number
    if value ≤ limit64 then some (-(value : Int)) else none
  | '+' :: number => do
    let value ← parseUnsigned? number
    if value < limit64 then some (value : Int) else none
  | number => do
    let value ← parseUnsigned? number
    if value < limit64 then some (value : Int) else none

/-- A text without a point that only zeros follow, at least one; other texts stay as they are. -/
def trimZeroFraction (text : List Char) : List Char :=
  match text.reverse.dropWhile (· = '0') with
  | '.' :: whole => if text.getLast? = some '0' then whole.reverse else text
  | _ => text

/-- The signed 64-bit word with the low bits of an integer. -/
def wrap64 (n : Int) : Int :=
  Int.bmod n (2 * limit64)

end Relational.Integer
