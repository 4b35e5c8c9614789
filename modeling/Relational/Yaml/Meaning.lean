import Relational.Number.Binary
import Relational.Yaml.Timestamp
import Relational.Yaml.Token

/-!
# Meanings of scalars

What the text of a scalar means. Without a tag the text decides: words for truth values and for
nothing, numbers and points in time are read as such, and anything else is a text. A tag asks for a
kind, and a text of another kind is refused.
-/

namespace Relational.Yaml

/-- What a scalar stands for. -/
inductive Meaning where
  | null
  | boolean (value : Bool)
  | integer (value : Int)
  | float (value : Binary)
  | timestamp
  | text
  | tagged (tag : String)
deriving Repr, DecidableEq

def tagStart : String := "tag:yaml.org,2002:"

/-- A tag as it is shown, with the start of the language's own tags shortened. -/
def shortTag (tag : String) : String :=
  match tagStart.toList.isPrefixOf? tag.toList with
  | some rest => "!!" ++ String.ofList rest
  | none => tag

namespace Meaning

def tag : Meaning → String
  | null => tagStart ++ "null"
  | boolean _ => tagStart ++ "bool"
  | integer _ => tagStart ++ "int"
  | float _ => tagStart ++ "float"
  | timestamp => tagStart ++ "timestamp"
  | text => tagStart ++ "str"
  | tagged tag => tag

def words : List (List String × Meaning) :=
  [(["y", "Y", "yes", "Yes", "YES", "true", "True", "TRUE", "on", "On", "ON"], boolean true),
   (["n", "N", "no", "No", "NO", "false", "False", "FALSE", "off", "Off", "OFF"], boolean false),
   (["", "~", "null", "Null", "NULL"], null),
   ([".nan", ".NaN", ".NAN"], float .nan),
   ([".inf", ".Inf", ".INF", "+.inf", "+.Inf", "+.INF"], float (.infinite false)),
   (["-.inf", "-.Inf", "-.INF"], float (.infinite true))]

def ofWord? (word : String) : Option Meaning :=
  (words.find? fun (texts, _) => texts.contains word).map Prod.snd

/-- Whether digits with at most one point and an optional exponent make up the text. -/
def isDecimal (text : List Char) : Bool :=
  let isMark := fun c => c = 'e' || c = 'E'
  let unsigned := match text with
    | '+' :: rest | '-' :: rest => rest
    | rest => rest
  let digits := unsigned.takeWhile (!isMark ·)
  let whole := digits.takeWhile (· ≠ '.')
  let fraction := (digits.dropWhile (· ≠ '.')).drop 1
  whole.all Char.isDigit && fraction.all Char.isDigit && !(whole ++ fraction).isEmpty &&
    match unsigned.dropWhile (!isMark ·) with
    | [] => true
    | _ :: exponent => (signedDigitsValue? exponent).isSome

/-- The floating-point number that a decimal text stands for, unless it is too large for one. -/
def ofDecimal? (text : List Char) : Option Meaning :=
  if !isDecimal text then none
  else
    match Binary.parse? .double (String.ofList text) with
    | some (.finite isNegative mantissa exponent) => some (float (.finite isNegative mantissa exponent))
    | _ => none

/-- The integer that a text of binary digits with an optional sign stands for. -/
def ofBits? (text : List Char) : Option Int :=
  let value := fun digits => if digits.isEmpty then none else Integer.digitsValue? 2 digits
  match text with
  | '-' :: digits =>
    (value digits).bind fun n => if n ≤ Integer.limit64 then some (-(n : Int)) else none
  | '+' :: digits => (value digits).bind fun n => if n < Integer.limit64 then some (n : Int) else none
  | digits => (value digits).bind fun n => if n < 2 * Integer.limit64 then some (n : Int) else none

/-- The number that a text stands for once its underscores are dropped: an integer of 64 bits, with or
without sign, else a floating-point number, else digits after the mark of base two. -/
def ofNumber? (text : List Char) : Option Meaning :=
  let plain := text.filter (· ≠ '_')
  let unsigned := (Integer.parseUnsigned? plain).bind fun n =>
    if n < 2 * Integer.limit64 then some (integer n) else none
  let bits := match plain with
    | '0' :: 'b' :: digits => (ofBits? digits).map integer
    | '-' :: '0' :: 'b' :: digits => (ofBits? ('-' :: digits)).map integer
    | _ => none
  ((Integer.parse? plain).map integer).orElse fun _ =>
    unsigned.orElse fun _ => (ofDecimal? plain).orElse fun _ => bits

/-- The meaning of a text without a tag. Points in time are recognized where they are asked for. -/
def ofText (allowsTimestamp : Bool) (s : String) : Meaning :=
  let cs := s.toList
  let found := (ofWord? s).orElse fun _ =>
    match cs with
    | '.' :: _ =>
      if Integer.underscoresFit false cs then ofDecimal? (cs.filter (· ≠ '_')) else none
    | c :: _ =>
      if c.isDigit || c = '+' || c = '-' then
        if allowsTimestamp && isTimestamp cs then some timestamp else ofNumber? cs
      else none
    | [] => none
  found.getD text

/-- The tags whose texts are read; a text with any other tag is kept as it is. -/
def readTags : List String :=
  ["str", "bool", "int", "float", "null", "timestamp"].map (tagStart ++ ·)

/-- The meaning of a text with a tag, which may be empty. An integer is a floating-point number where
one is asked for. -/
def ofTagged (tag s : String) : Except SyntaxError Meaning :=
  if tag = tagStart ++ "str" then .ok text
  else if tag ≠ "" ∧ tag ∉ readTags then .ok (tagged tag)
  else
    let value := ofText (tag = "" || tag = tagStart ++ "timestamp") s
    if tag = "" ∨ value.tag = tag then .ok value
    else
      match decide (tag = tagStart ++ "float"), value with
      | true, integer n =>
        if n < Integer.limit64 then .ok (float (.ofFraction .double (n < 0) n.natAbs 1))
        else .error ⟨.undecodable (shortTag value.tag) s (shortTag tag), 0⟩
      | _, _ => .error ⟨.undecodable (shortTag value.tag) s (shortTag tag), 0⟩

end Meaning

end Relational.Yaml
