import Relational.Yaml.Token

/-!
# Reading YAML character by character

A cursor is a rest of the text with the place where it starts. Five characters break lines; a
carriage return before a line feed is part of the same break.
-/

namespace Relational.Yaml

def isBlank (c : Char) : Bool := c = ' ' || c = '\t'

/-- Whether a character separates lines or paragraphs and is kept as it is in scalars. -/
def isSeparator (c : Char) : Bool := c = '\u2028' || c = '\u2029'

def isBreak (c : Char) : Bool := c = '\n' || c = '\r' || c = '\u0085' || isSeparator c

/-- Whether a character is a letter, a digit, an underscore or a dash. -/
def isWord (c : Char) : Bool := c.isAlphanum || c = '_' || c = '-'

/-- Whether a text is at its end, at a blank or at a break. -/
def atGap : List Char → Bool
  | [] => true
  | c :: _ => isBlank c || isBreak c

def atLineEnd : List Char → Bool
  | [] => true
  | c :: _ => isBreak c

/-- Whether a character may stand in a document: control characters and marks of the byte order may
not. -/
def isAllowed (c : Char) : Bool :=
  let n := c.toNat
  c = '\t' || isBreak c || (0x20 ≤ n && n ≤ 0x7E) || (0xA0 ≤ n && n ≤ 0xFFFD && n ≠ 0xFEFF) ||
    0x10000 ≤ n

/-- The rest of a text with its mark. -/
structure Cursor where
  rest : List Char
  mark : Mark := {}

namespace Cursor

def drop (c : Cursor) (n : Nat) : Cursor :=
  { rest := c.rest.drop n
    mark := { c.mark with index := c.mark.index + n, column := c.mark.column + n } }

/-- The longest run of characters of a kind without breaks, and the cursor after it. -/
def take (c : Cursor) (kind : Char → Bool) : List Char × Cursor :=
  let run := c.rest.takeWhile fun ch => kind ch && !isBreak ch
  (run, c.drop run.length)

/-- The cursor after the longest run of characters of a kind. -/
def skip (c : Cursor) (kind : Char → Bool) : Cursor := (c.take kind).2

def newLine (c : Cursor) (rest : List Char) (width : Nat) : Cursor :=
  { rest, mark := { index := c.mark.index + width, line := c.mark.line + 1, column := 0 } }

/-- The break at the cursor as it is kept in a scalar, and the cursor after it. -/
def takeBreak (c : Cursor) : List Char × Cursor :=
  match c.rest with
  | '\r' :: '\n' :: rest => (['\n'], c.newLine rest 2)
  | ch :: rest =>
    if isSeparator ch then ([ch], c.newLine rest 1)
    else if isBreak ch then (['\n'], c.newLine rest 1)
    else ([], c)
  | [] => ([], c)

/-- Whether the cursor is at the mark of the start or the end of a document. -/
def atDocumentMark (c : Cursor) (mark : List Char) : Bool :=
  c.mark.column = 0 && mark.isPrefixOf c.rest && atGap (c.rest.drop 3)

def atAnyDocumentMark (c : Cursor) : Bool :=
  c.atDocumentMark ['-', '-', '-'] || c.atDocumentMark ['.', '.', '.']

end Cursor

/-- Blanks and breaks between two words of a scalar: blanks before the first break, the first break,
and the other breaks. -/
structure Gap where
  isBroken : Bool := false
  blanks : List Char := []
  first : List Char := []
  others : List Char := []

namespace Gap

/-- What stands for a gap in a scalar. A single line feed becomes a space, and of several the first
one is dropped. -/
def text (g : Gap) : List Char :=
  if !g.isBroken then g.blanks
  else if g.first = ['\n'] then (if g.others.isEmpty then [' '] else g.others)
  else g.first ++ g.others

/-- Reads blanks and breaks. A tab is refused in the indentation of a line, which is given if it
matters. -/
def read (indent : Option Nat) : (fuel : Nat) → Gap → Cursor → Except SyntaxError (Gap × Cursor)
  | 0, gap, c => .ok (gap, c)
  | fuel + 1, gap, c =>
    match c.rest with
    | [] => .ok (gap, c)
    | ch :: _ =>
      if isBlank ch then
        if gap.isBroken && ch = '\t' && indent.any (c.mark.column < ·) then
          .error (.lexical .tabInPlain c.mark)
        else if gap.isBroken then read indent fuel gap (c.drop 1)
        else read indent fuel { gap with blanks := gap.blanks ++ [ch] } (c.drop 1)
      else if isBreak ch then
        let (text, after) := c.takeBreak
        if gap.isBroken then read indent fuel { gap with others := gap.others ++ text } after
        else read indent fuel { isBroken := true, first := text } after
      else .ok (gap, c)

end Gap

end Relational.Yaml
