import Relational.Number.Binary
import Relational.Text.Quoted
import Relational.Type

/-!
# Literal values

The values of literals in syntax trees and in plans, each with the representation it came in. A literal
of a scalar type is brought into the representation that the type has for its values.
-/

namespace Relational

/-- The representations of integers. -/
inductive IntegerKind where
  | int | int8 | int16 | int32 | int64 | uint | uint8 | uint16 | uint32 | uint64
deriving Repr, DecidableEq

def IntegerKind.text : IntegerKind → String
  | int => "int"
  | int8 => "int8"
  | int16 => "int16"
  | int32 => "int32"
  | int64 => "int64"
  | uint => "uint"
  | uint8 => "uint8"
  | uint16 => "uint16"
  | uint32 => "uint32"
  | uint64 => "uint64"

def IntegerKind.all : List IntegerKind :=
  [int, int8, int16, int32, int64, uint, uint8, uint16, uint32, uint64]

/-- The value of a literal. -/
inductive Value where
  | nil
  | boolean (value : Bool)
  | text (value : String)
  | integer (kind : IntegerKind) (value : Int)
  | double (value : Binary)
  | single (value : Binary)
  | decimal (value : Decimal)
  | bytes (value : String)
  | emptyList
deriving Repr, DecidableEq

namespace Value

/-- The value written as a text with the name of its type. -/
def ofText (type written : String) : Value :=
  match type with
  | "float32" => single ((Binary.parse? .single written).getD .nan)
  | "float64" => double ((Binary.parse? .double written).getD .nan)
  | "decimal" => decimal ((Decimal.parse? written).getD (.ofInt 0))
  | "bytes" => bytes written
  | _ =>
    match IntegerKind.all.find? (·.text == type) with
    | some kind => integer kind (written.toInt?.getD 0)
    | none => nil

def isNil : Value → Bool
  | nil => true
  | _ => false

def typeName : Value → String
  | nil => "<nil>"
  | boolean _ => "bool"
  | text _ => "string"
  | integer kind _ => kind.text
  | double _ => "float64"
  | single _ => "float32"
  | decimal _ => "decimal.Decimal"
  | bytes _ => "[]uint8"
  | emptyList => "[]interface \x7b\x7d"

def toText : Value → String
  | nil => "<nil>"
  | boolean b => if b then "true" else "false"
  | text s => s
  | integer _ n => toString n
  | double b => b.text .double
  | single b => b.text .single
  | decimal d => d.text
  | bytes s => Text.bracketed (s.toUTF8.toList.map fun byte => toString byte.toNat)
  | emptyList => "[]"

/-- The scalar type of the system library that a literal has when none is given, by its unqualified
name. -/
def systemTypeName? : Value → Option String
  | boolean _ => some "Boolean"
  | text _ => some "String"
  | double _ | single _ | decimal _ => some "Decimal"
  | integer .. => some "Integer"
  | nil | bytes _ | emptyList => none

/-- A value as a signed 64-bit integer. Unsigned words wrap around and numbers lose their fraction. -/
def toInteger? : Value → Option Int
  | nil => some 0
  | boolean b => some (if b then 1 else 0)
  | text s => Integer.parse? (Integer.trimZeroFraction s.toList)
  | integer _ n => some (Integer.wrap64 n)
  | double b | single b => some b.truncate64
  | decimal _ | bytes _ | emptyList => none

/-- What stands in the way of a representation: the value has none, or it is a number that is not
finite. -/
inductive LiteralError where
  | notConvertible
  | notFinite (text : String)
deriving Repr, DecidableEq

def decimalOfBinary (format : BinaryFormat) : Binary → Except LiteralError Decimal
  | .finite isNegative mantissa exponent =>
    .ok ((Binary.finite isNegative mantissa exponent).toDecimal format)
  | b => .error (.notFinite (b.text format))

def toDecimal : Value → Except LiteralError Decimal
  | decimal d => .ok d
  | text s => (Decimal.parse? s).elim (.error .notConvertible) .ok
  | double b => decimalOfBinary .double b
  | single b => decimalOfBinary .single b
  | value => (value.toInteger?.map Decimal.ofInt).elim (.error .notConvertible) .ok

def toText? : Value → Option String
  | nil => some ""
  | boolean b => some (if b then "true" else "false")
  | text s | bytes s => some s
  | integer _ n => some (toString n)
  | double b => some (b.positional .double)
  | single b => some (b.positional .single)
  | decimal d => some d.text
  | emptyList => none

def toBoolean? : Value → Option Bool
  | nil => some false
  | boolean b => some b
  | integer .int n => some (n != 0)
  | text s =>
    if ["1", "t", "T", "true", "TRUE", "True"].contains s then some true
    else if ["0", "f", "F", "false", "FALSE", "False"].contains s then some false
    else none
  | _ => none

/-- A value in the representation of a native kind. The absence of a value has every representation,
and types without a native kind leave values as they are. -/
def normalize (kind : NativeKind) (value : Value) : Except LiteralError Value :=
  if value.isNil then .ok nil
  else match kind with
    | .none => .ok value
    | .integer => (value.toInteger?.map (integer .int64)).elim (.error .notConvertible) .ok
    | .decimal => value.toDecimal.map decimal
    | .string => (value.toText?.map text).elim (.error .notConvertible) .ok
    | .boolean => (value.toBoolean?.map boolean).elim (.error .notConvertible) .ok

end Value

end Relational
