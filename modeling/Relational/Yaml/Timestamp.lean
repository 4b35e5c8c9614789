/-!
# Timestamps

Which texts are points in time: a date, or a date and a time of day after a letter or blanks, with a
fraction of a second and an offset. Months, days and the parts of a time may have one digit.
-/

namespace Relational.Yaml

/-- A number of one or two digits, and what follows it. -/
def oneOrTwoDigits : List Char → Option (Nat × List Char)
  | a :: b :: rest =>
    if !a.isDigit then none
    else if b.isDigit then some (10 * (a.toNat - '0'.toNat) + (b.toNat - '0'.toNat), rest)
    else some (a.toNat - '0'.toNat, b :: rest)
  | [a] => if a.isDigit then some (a.toNat - '0'.toNat, []) else none
  | [] => none

def afterChar (c : Char) : List Char → Option (List Char)
  | d :: rest => if c = d then some rest else none
  | [] => none

def daysIn (year month : Nat) : Nat :=
  if month = 2 then
    (if year % 4 = 0 ∧ (year % 100 ≠ 0 ∨ year % 400 = 0) then 29 else 28)
  else if month = 4 ∨ month = 6 ∨ month = 9 ∨ month = 11 then 30
  else 31

def afterDate (text : List Char) : Option (List Char) := do
  let digits := text.take 4
  guard (digits.length = 4 ∧ digits.all Char.isDigit)
  let year := digits.foldl (fun n d => 10 * n + (d.toNat - '0'.toNat)) 0
  let (month, rest) ← oneOrTwoDigits (← afterChar '-' (text.drop 4))
  let (day, rest) ← oneOrTwoDigits (← afterChar '-' rest)
  guard (1 ≤ month ∧ month ≤ 12 ∧ 1 ≤ day ∧ day ≤ daysIn year month)
  return rest

/-- What follows the time of day that a text starts with, with its fraction of a second. -/
def afterTime (text : List Char) : Option (List Char) := do
  let (hour, rest) ← oneOrTwoDigits text
  let (minute, rest) ← oneOrTwoDigits (← afterChar ':' rest)
  let (second, rest) ← oneOrTwoDigits (← afterChar ':' rest)
  guard (hour < 24 ∧ minute < 60 ∧ second < 60)
  match rest with
  | c :: d :: more =>
    if (c = '.' ∨ c = ',') ∧ d.isDigit then return more.dropWhile Char.isDigit else return rest
  | _ => return rest

def isOffset (text : List Char) : Bool :=
  match text with
  | ['Z'] => true
  | [sign, a, b, ':', c, d] =>
    let hour := 10 * (a.toNat - '0'.toNat) + (b.toNat - '0'.toNat)
    let minute := 10 * (c.toNat - '0'.toNat) + (d.toNat - '0'.toNat)
    (sign = '+' || sign = '-') && [a, b, c, d].all Char.isDigit && hour ≤ 24 && minute ≤ 60
  | _ => false

def isTimestamp (text : List Char) : Bool :=
  match afterDate text with
  | none => false
  | some [] => true
  | some (c :: rest) =>
    if c = 'T' ∨ c = 't' then (afterTime rest).any isOffset
    else if c = ' ' then (afterTime (rest.dropWhile (· = ' '))).any List.isEmpty
    else false

end Relational.Yaml
