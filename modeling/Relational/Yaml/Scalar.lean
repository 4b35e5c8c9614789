import Relational.Yaml.Cursor

/-!
# Scalars of YAML

Reading plain, quoted and block scalars. Every reader takes an amount of fuel that the number of
characters left bounds, since each step of it reads at least one of them.
-/

namespace Relational.Yaml

/-- Whether a text is at an indicator that ends a plain scalar. -/
def endsPlain (inFlow : Bool) : List Char → Bool
  | [] => true
  | ':' :: rest => atGap rest
  | c :: _ => inFlow && [',', '?', '[', ']', '\x7b', '\x7d'].contains c

/-- The word of a plain scalar that a text starts with. -/
def plainWord (inFlow : Bool) : List Char → List Char
  | [] => []
  | c :: rest =>
    if atGap (c :: rest) || endsPlain inFlow (c :: rest) then [] else c :: plainWord inFlow rest

/-- A scalar that has been read: its text, whether it ended at a break, and where it stopped. -/
structure ReadScalar where
  text : List Char
  isBroken : Bool := false
  stop : Mark

/-- Goes on reading a plain scalar after what has been read of it and a gap. -/
def readPlainFrom (indent : Nat) (inFlow : Bool) :
    (fuel : Nat) → ReadScalar → Gap → Cursor → Except SyntaxError (ReadScalar × Cursor)
  | 0, done, gap, c => .ok ({ done with isBroken := gap.isBroken }, c)
  | fuel + 1, done, gap, c => do
    let finished := ({ done with isBroken := gap.isBroken }, c)
    if c.atAnyDocumentMark || c.rest.head? = some '#' then return finished
    let word := plainWord inFlow c.rest
    if word.isEmpty then return finished
    let after := c.drop word.length
    let done := { text := done.text ++ gap.text ++ word, stop := after.mark }
    let (gap, next) ← Gap.read (some indent) after.rest.length {} after
    if next.mark = after.mark || (!inFlow && next.mark.column < indent) then
      return ({ done with isBroken := gap.isBroken }, next)
    readPlainFrom indent inFlow fuel done gap next

/-- Reads a plain scalar whose further lines are indented. -/
def readPlain (indent : Nat) (inFlow : Bool) (c : Cursor) :
    Except SyntaxError (ReadScalar × Cursor) :=
  readPlainFrom indent inFlow c.rest.length { text := [], stop := c.mark } {} c

def hexDigit? (c : Char) : Option Nat :=
  if c.isDigit then some (c.toNat - '0'.toNat)
  else if 'a' ≤ c ∧ c ≤ 'f' then some (c.toNat - 'a'.toNat + 10)
  else if 'A' ≤ c ∧ c ≤ 'F' then some (c.toNat - 'A'.toNat + 10)
  else none

def escaped? : Char → Option Char
  | '0' => some '\x00'
  | 'a' => some '\x07'
  | 'b' => some '\x08'
  | 't' | '\t' => some '\t'
  | 'n' => some '\n'
  | 'v' => some '\x0b'
  | 'f' => some '\x0c'
  | 'r' => some '\r'
  | 'e' => some '\x1b'
  | ' ' => some ' '
  | '"' => some '"'
  | '\'' => some '\''
  | '\\' => some '\\'
  | 'N' => some '\u0085'
  | '_' => some '\u00a0'
  | 'L' => some '\u2028'
  | 'P' => some '\u2029'
  | _ => none

/-- How many hexadecimal digits follow the letter of an escape. -/
def escapeWidth? : Char → Option Nat
  | 'x' => some 2
  | 'u' => some 4
  | 'U' => some 8
  | _ => none

def readEscape (c : Cursor) : Except SyntaxError (Char × Cursor) :=
  match c.rest with
  | _ :: letter :: _ =>
    match escaped? letter, escapeWidth? letter with
    | some ch, _ => .ok (ch, c.drop 2)
    | none, some width =>
      let c := c.drop 2
      let digits := c.rest.take width
      match digits.mapM hexDigit? with
      | none => .error (.lexical .missingHexDigit c.mark)
      | some values =>
        let code := values.foldl (fun n v => 16 * n + v) 0
        if digits.length < width then .error (.lexical .missingHexDigit c.mark)
        else if code.isValidChar then .ok (Char.ofNat code, c.drop width)
        else .error (.lexical .badCharacterCode c.mark)
    | none, none => .error (.lexical .unknownEscape c.mark)
  | _ => .error (.lexical .unknownEscape c.mark)

/-- Reads a word of a quoted scalar, up to a gap, the closing quote or an escaped break; the flag tells
whether it is an escaped break. -/
def readQuotedWord (isSingle : Bool) :
    (fuel : Nat) → List Char → Cursor → Except SyntaxError (List Char × Bool × Cursor)
  | 0, done, c => .ok (done, false, c)
  | fuel + 1, done, c =>
    if atGap c.rest then .ok (done, false, c)
    else
      match isSingle, c.rest with
      | true, '\'' :: '\'' :: _ => readQuotedWord isSingle fuel (done ++ ['\'']) (c.drop 2)
      | true, '\'' :: _ => .ok (done, false, c)
      | false, '"' :: _ => .ok (done, false, c)
      | false, '\\' :: after => do
        if after.head?.any isBreak then return (done, true, (c.drop 1).takeBreak.2)
        let (ch, next) ← readEscape c
        readQuotedWord isSingle fuel (done ++ [ch]) next
      | _, ch :: _ => readQuotedWord isSingle fuel (done ++ [ch]) (c.drop 1)
      | _, [] => .ok (done, false, c)

/-- Goes on reading a quoted scalar after what has been read of it. -/
def readQuotedFrom (isSingle : Bool) :
    (fuel : Nat) → List Char → Cursor → Except SyntaxError (ReadScalar × Cursor)
  | 0, _, c => .error (.lexical .endInQuotes c.mark)
  | fuel + 1, done, c => do
    if c.atAnyDocumentMark then throw (.lexical .documentInQuotes c.mark)
    if c.rest.isEmpty then throw (.lexical .endInQuotes c.mark)
    let (word, isBroken, c) ← readQuotedWord isSingle c.rest.length [] c
    if c.rest.head? = some (if isSingle then '\'' else '"') then
      let c := c.drop 1
      return ({ text := done ++ word, stop := c.mark }, c)
    let (gap, c) ← Gap.read none c.rest.length { isBroken } c
    readQuotedFrom isSingle fuel (done ++ word ++ gap.text) c

def readQuoted (isSingle : Bool) (c : Cursor) : Except SyntaxError (ReadScalar × Cursor) :=
  readQuotedFrom isSingle (c.rest.length + 1) [] (c.drop 1)

/-- Reads the indentation of a block scalar and its empty lines. An indentation of zero is not known
yet; the result is the widest indentation that was seen and the breaks. -/
def readBlockBreaks (indent : Nat) :
    (fuel : Nat) → Nat → List Char → Cursor → Except SyntaxError (Nat × List Char × Cursor)
  | 0, widest, breaks, c => .ok (widest, breaks, c)
  | fuel + 1, widest, breaks, c => do
    let spaces := (c.rest.takeWhile (· = ' ')).length
    let c := c.drop (if indent = 0 then spaces else min spaces (indent - c.mark.column))
    let widest := max widest c.mark.column
    if (indent = 0 || c.mark.column < indent) && c.rest.head? = some '\t' then
      throw (.lexical .tabIndentation c.mark)
    if c.rest.head?.any isBreak then
      let (text, next) := c.takeBreak
      readBlockBreaks indent fuel widest (breaks ++ text) next
    else return (widest, breaks, c)

/-- How the breaks at the end of a block scalar are treated. -/
inductive Chomping where
  | strip | clip | keep
deriving Repr, DecidableEq

/-- The lines of a block scalar that have been read: their text, the break after the last one and the
breaks of the empty lines after it, and whether the last one started with a blank. -/
structure BlockLines where
  text : List Char := []
  lastBreak : List Char := []
  emptyBreaks : List Char := []
  isBlank : Bool := false

/-- The lines with one more line, whose break is given. In a folded scalar the break between two lines
that do not start with a blank becomes a space or vanishes before empty lines. -/
def BlockLines.add (lines : BlockLines) (isLiteral : Bool) (line text : List Char) : BlockLines :=
  let startsBlank := line.head?.any Yaml.isBlank
  let joint :=
    if !isLiteral && !lines.isBlank && !startsBlank && lines.lastBreak = ['\n'] then
      (if lines.emptyBreaks.isEmpty then [' '] else [])
    else lines.lastBreak
  { text := lines.text ++ joint ++ lines.emptyBreaks ++ line, lastBreak := text,
    isBlank := startsBlank }

def readBlockLines (isLiteral : Bool) (indent : Nat) :
    (fuel : Nat) → BlockLines → Cursor → Except SyntaxError (BlockLines × Cursor)
  | 0, lines, c => .ok (lines, c)
  | fuel + 1, lines, c => do
    if c.mark.column ≠ indent || c.rest.isEmpty then return (lines, c)
    let (line, c) := c.take fun _ => true
    let (text, c) := c.takeBreak
    let lines := lines.add isLiteral line text
    let (_, emptyBreaks, c) ← readBlockBreaks indent (c.rest.length + 1) 0 [] c
    readBlockLines isLiteral indent fuel { lines with emptyBreaks } c

/-- Reads an indicator of how breaks at the end are treated. -/
def readChomping (c : Cursor) : Option Chomping × Cursor :=
  match c.rest with
  | '+' :: _ => (some .keep, c.drop 1)
  | '-' :: _ => (some .strip, c.drop 1)
  | _ => (none, c)

def readIncrement (c : Cursor) : Except SyntaxError (Nat × Cursor) :=
  match c.rest with
  | d :: _ =>
    if d = '0' then .error (.lexical .zeroIndentation c.mark)
    else if d.isDigit then .ok (d.toNat - '0'.toNat, c.drop 1)
    else .ok (0, c)
  | [] => .ok (0, c)

/-- Skips blanks and a comment up to the end of the line, and its break. -/
def skipToNextLine (c : Cursor) : Except SyntaxError Cursor :=
  let c := c.skip isBlank
  let c := if c.rest.head? = some '#' then c.skip fun _ => true else c
  if atLineEnd c.rest then .ok c.takeBreak.2 else .error (.lexical .missingLineBreak c.mark)

/-- Reads a block scalar at its indicator, inside a collection with an indentation. -/
def readBlock (isLiteral : Bool) (outer : Int) (c : Cursor) :
    Except SyntaxError (ReadScalar × Cursor) := do
  let (chomping, c) := readChomping (c.drop 1)
  let (increment, c) ← readIncrement c
  let (chomping, c) := if chomping.isSome then (chomping, c) else readChomping c
  let c ← skipToNextLine c
  let given := if increment = 0 then 0 else (max outer 0).toNat + increment
  let (widest, emptyBreaks, c) ← readBlockBreaks given (c.rest.length + 1) 0 [] c
  let indent := if given = 0 then max widest (max (outer + 1).toNat 1) else given
  let (lines, c) ← readBlockLines isLiteral indent c.rest.length { emptyBreaks } c
  let tail := match chomping with
    | some .strip => []
    | some .keep => lines.lastBreak ++ lines.emptyBreaks
    | _ => lines.lastBreak
  return ({ text := lines.text ++ tail, stop := c.mark }, c)

end Relational.Yaml
