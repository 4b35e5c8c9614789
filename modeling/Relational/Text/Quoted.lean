import Relational.Text.Printable

/-!
# Quoted texts

Names and values are quoted in messages between double quotes. A quote and a backslash get a backslash
before them, the usual controls their letter, and every other character that is not printable its code
in hexadecimal digits: two after `\x`, four after `\u`, eight after `\U`.
-/

namespace Relational.Text

/-- The last `width` hexadecimal digits of a number, the most significant digit first. -/
def hexDigits : (width n : Nat) → List Char
  | 0, _ => []
  | width + 1, n => hexDigits width (n / 16) ++ [Nat.digitChar (n % 16)]

def quoteChar (c : Char) : List Char :=
  if c = '"' then ['\\', '"']
  else if c = '\\' then ['\\', '\\']
  else if isPrintable c then [c]
  else match c.toNat with
    | 0x07 => ['\\', 'a']
    | 0x08 => ['\\', 'b']
    | 0x0C => ['\\', 'f']
    | 0x0A => ['\\', 'n']
    | 0x0D => ['\\', 'r']
    | 0x09 => ['\\', 't']
    | 0x0B => ['\\', 'v']
    | code =>
      if code < 0x20 || code == 0x7F then '\\' :: 'x' :: hexDigits 2 code
      else if code < 0x10000 then '\\' :: 'u' :: hexDigits 4 code
      else '\\' :: 'U' :: hexDigits 8 code

def quote (text : String) : String :=
  String.ofList ('"' :: text.toList.flatMap quoteChar ++ ['"'])

/-- Texts between brackets, separated by single blanks. -/
def bracketed (texts : List String) : String :=
  "[" ++ " ".intercalate texts ++ "]"

end Relational.Text
