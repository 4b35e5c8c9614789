import Relational.Yaml.Scalar

/-!
# Splitting YAML into tokens

A text is split into tokens on demand. A mapping key need not be marked: whether a scalar is one
shows only when a colon follows on its line, so a token that may turn out to be a key is held back
until that is known. Indentation is tracked by the columns of the block collections that are open;
inside brackets and braces it does not matter.
-/

namespace Relational.Yaml

/-- A token that may turn out to be a key. A required one has to. -/
structure SimpleKey where
  token : Nat
  mark : Mark
  isRequired : Bool

/-- The rest of a text with the indentation of the open block collections, innermost first, the keys
that are possible in the block context and in every open bracket, innermost first, whether a key may
start here, the tokens that are held back, and the number of tokens that have been handed out. -/
structure Lexer where
  cursor : Cursor
  isStarted : Bool := false
  indent : Int := -1
  indents : List Int := []
  keys : List (Option SimpleKey) := [none]
  allowsKey : Bool := true
  queue : List Token := []
  handedOut : Nat := 0

namespace Lexer

def maxFlowLevel : Nat := 10000

def maxKeyLength : Nat := 1024

def inFlow (l : Lexer) : Bool := 1 < l.keys.length

def fail {α : Type} (l : Lexer) (problem : Problem) : Except SyntaxError α :=
  .error (.lexical problem l.cursor.mark)

def push (l : Lexer) (token : Token) : Lexer := { l with queue := l.queue ++ [token] }

/-- Adds a token at the current place that takes up some characters. -/
def pushKind (l : Lexer) (kind : TokenKind) (width : Nat) : Lexer :=
  let after := l.cursor.drop width
  { l with cursor := after }.push ⟨kind, l.cursor.mark, after.mark⟩

/-- Adds a token in front of one that has been numbered. -/
def insert (l : Lexer) (number : Nat) (token : Token) : Lexer :=
  let i := number - l.handedOut
  { l with queue := l.queue.take i ++ token :: l.queue.drop i }

/-- Whether a key is still possible here: its colon is on the same line and not too far away. -/
def isNear (l : Lexer) (key : SimpleKey) : Bool :=
  key.mark.line = l.cursor.mark.line && l.cursor.mark.index ≤ key.mark.index + maxKeyLength

def setKey (l : Lexer) (key : Option SimpleKey) : Lexer := { l with keys := key :: l.keys.tail }

def key? (l : Lexer) : Option SimpleKey := l.keys.head?.join

/-- Gives up the innermost key, which must not be required. -/
def dropKey (l : Lexer) : Except SyntaxError Lexer :=
  match l.key? with
  | some key => if key.isRequired then l.fail .missingColon else .ok (l.setKey none)
  | none => .ok l

/-- Notes that the next token may be a key, where keys are allowed. -/
def saveKey (l : Lexer) : Except SyntaxError Lexer := do
  if l.allowsKey then
    let l ← l.dropKey
    return l.setKey (some
      { token := l.handedOut + l.queue.length, mark := l.cursor.mark
        isRequired := !l.inFlow && l.indent = l.cursor.mark.column })
  else return l

/-- Opens a block collection if the column is beyond the indentation; its token stands at the end of
the queue or in front of a numbered token. -/
def roll (l : Lexer) (kind : TokenKind) (mark : Mark) (number : Option Nat) : Lexer :=
  if l.inFlow || (mark.column : Int) ≤ l.indent then l
  else
    let l := { l with indents := l.indent :: l.indents, indent := mark.column }
    match number with
    | some number => l.insert number ⟨kind, mark, mark⟩
    | none => l.push ⟨kind, mark, mark⟩

/-- Closes the block collections that a column is not in. -/
def unrollWithin (column : Int) : (indents : List Int) → Lexer → Lexer
  | [], l => l
  | outer :: indents, l =>
    if column < l.indent then
      unrollWithin column indents
        ({ l with indent := outer, indents }.push ⟨.blockEnd, l.cursor.mark, l.cursor.mark⟩)
    else l

/-- Closes the block collections that a column is not in; inside brackets none. -/
def unroll (l : Lexer) (column : Int) : Lexer :=
  if l.inFlow then l else unrollWithin column l.indents l

/-- Skips blanks, comments and breaks. Tabs count as blanks where no key may start; after a break a key
may start. -/
def skipGapsWithin : (fuel : Nat) → Lexer → Lexer
  | 0, l => l
  | fuel + 1, l =>
    let tabs := l.inFlow || !l.allowsKey
    let c := l.cursor.skip fun ch => ch = ' ' || (tabs && ch = '\t')
    let c := if c.rest.head? = some '#' then c.skip fun _ => true else c
    if c.rest.head?.any isBreak then
      skipGapsWithin fuel { l with cursor := c.takeBreak.2, allowsKey := l.allowsKey || !l.inFlow }
    else { l with cursor := c }

def skipGaps (l : Lexer) : Lexer := skipGapsWithin (l.cursor.rest.length + 1) l

def pushEnd (l : Lexer) : Except SyntaxError Lexer := do
  let mark := l.cursor.mark
  let mark := if mark.column = 0 then mark else { mark with column := 0, line := mark.line + 1 }
  let l ← (unroll { l with cursor := { l.cursor with mark } } (-1)).dropKey
  return { l with allowsKey := false }.push ⟨.streamEnd, mark, mark⟩

def readVersion (c : Cursor) : Except SyntaxError (Nat × Cursor) :=
  let (digits, after) := c.take Char.isDigit
  if digits.isEmpty then .error (.lexical .missingVersion c.mark)
  else if 2 < digits.length then .error (.lexical .longVersion (c.drop 2).mark)
  else .ok (digits.foldl (fun n d => 10 * n + (d.toNat - '0'.toNat)) 0, after)

/-- Reads the handle of a tag. In a directive it has to end with a mark unless it is one. -/
def readTagHandle (isDirective : Bool) (c : Cursor) : Except SyntaxError (List Char × Cursor) := do
  if c.rest.head? ≠ some '!' then throw (.lexical .missingTagBang c.mark)
  let (word, c) := (c.drop 1).take isWord
  if c.rest.head? = some '!' then return ('!' :: word ++ ['!'], c.drop 1)
  else if isDirective && !word.isEmpty then throw (.lexical .missingTagBang c.mark)
  else return ('!' :: word, c)

/-- Whether a character may stand in the address of a tag. -/
def isAddressChar (c : Char) : Bool := isWord c || ";/?:@&=+$,.!~*'()[]%".toList.contains c

/-- The characters that the escaped octets in an address stand for. -/
def unescapeAddress : List Char → Option (List UInt8)
  | [] => some []
  | '%' :: a :: b :: rest => do
    let high ← hexDigit? a
    let low ← hexDigit? b
    return UInt8.ofNat (16 * high + low) :: (← unescapeAddress rest)
  | '%' :: _ => none
  | c :: rest => do
    return (String.singleton c).toUTF8.toList ++ (← unescapeAddress rest)

/-- Reads the address of a tag after what is known of it. -/
def readAddress (known : List Char) (c : Cursor) : Except SyntaxError (List Char × Cursor) :=
  let (run, after) := c.take isAddressChar
  if known.isEmpty && run.isEmpty then .error (.lexical .missingTagAddress c.mark)
  else
    match (unescapeAddress run).bind fun octets => String.fromUTF8? ⟨octets.toArray⟩ with
    | some text => .ok (known.drop 1 ++ text.toList, after)
    | none => .error (.lexical .badTagEscape c.mark)

def readDirective (c : Cursor) : Except SyntaxError (TokenKind × Cursor) := do
  let (name, c) := (c.drop 1).take isWord
  if name.isEmpty then throw (.lexical .missingDirectiveName c.mark)
  if !atGap c.rest then throw (.lexical .nonAlphabeticDirective c.mark)
  let c' := c.skip isBlank
  match String.ofList name with
  | "YAML" =>
    let (major, c) ← readVersion c'
    if c.rest.head? ≠ some '.' then throw (.lexical .missingPoint c.mark)
    let (minor, c) ← readVersion (c.drop 1)
    return (.versionDirective major minor, c)
  | "TAG" =>
    let (handle, c) ← readTagHandle true c'
    if !c.rest.head?.any isBlank then throw (.lexical .missingBlank c.mark)
    let (start, c) ← readAddress [] (c.skip isBlank)
    if !atGap c.rest then throw (.lexical .missingTagEnd c.mark)
    return (.tagDirective (String.ofList handle) (String.ofList start), c)
  | _ => throw (.lexical .unknownDirective c.mark)

/-- Reads the name of an anchor or an alias after its mark. -/
def readAnchor (c : Cursor) : Except SyntaxError (String × Cursor) :=
  let (name, after) := (c.drop 1).take isWord
  let isEnded := atGap after.rest ||
    after.rest.head?.any ['?', ':', ',', ']', '\x7d', '%', '@', '\x60'].contains
  if name.isEmpty || !isEnded then .error (.lexical .missingAnchorName after.mark)
  else .ok (String.ofList name, after)

def readTag (c : Cursor) : Except SyntaxError (TokenKind × Cursor) := do
  let (kind, c) ←
    if (c.drop 1).rest.head? = some '<' then do
      let (address, c) ← readAddress [] (c.drop 2)
      if c.rest.head? ≠ some '>' then throw (.lexical .missingTagAngle c.mark)
      pure (TokenKind.tag "" (String.ofList address), c.drop 1)
    else do
      let (handle, c) ← readTagHandle false c
      if 1 < handle.length && handle.getLast? = some '!' then
        let (suffix, c) ← readAddress [] c
        pure (TokenKind.tag (String.ofList handle) (String.ofList suffix), c)
      else
        let (suffix, c) ← readAddress handle c
        if suffix.isEmpty then pure (TokenKind.tag "" "!", c)
        else pure (TokenKind.tag "!" (String.ofList suffix), c)
  if atGap c.rest then return (kind, c) else throw (.lexical .missingTagEnd c.mark)

/-- Adds a token that has been read from the current place on. -/
def pushRead (l : Lexer) (kind : TokenKind) (stop : Mark) (after : Cursor) : Lexer :=
  { l with cursor := after }.push ⟨kind, l.cursor.mark, stop⟩

/-- Adds a token at which the block context starts anew. -/
def pushDocumentMark (l : Lexer) (kind : TokenKind) : Except SyntaxError Lexer := do
  let l ← (l.unroll (-1)).dropKey
  return { l with allowsKey := false }.pushKind kind 3

def pushFlowStart (l : Lexer) (kind : TokenKind) : Except SyntaxError Lexer := do
  let l ← l.saveKey
  let l := { l with keys := none :: l.keys, allowsKey := true }
  if maxFlowLevel < l.keys.length - 1 then l.fail .flowTooDeep else return l.pushKind kind 1

def pushFlowEnd (l : Lexer) (kind : TokenKind) : Except SyntaxError Lexer := do
  let l ← l.dropKey
  return { l with keys := if l.inFlow then l.keys.tail else l.keys, allowsKey := false }.pushKind kind 1

def pushBlockEntry (l : Lexer) : Except SyntaxError Lexer := do
  if !l.inFlow && !l.allowsKey then l.fail .misplacedEntry
  else
    let l ← (l.roll .blockSequenceStart l.cursor.mark none).dropKey
    return { l with allowsKey := true }.pushKind .blockEntry 1

def pushKey (l : Lexer) : Except SyntaxError Lexer := do
  if !l.inFlow && !l.allowsKey then l.fail .misplacedKey
  else
    let l ← (l.roll .blockMappingStart l.cursor.mark none).dropKey
    return { l with allowsKey := !l.inFlow }.pushKind .key 1

/-- Adds the token of a colon. If a key is possible, it turns out to be one. -/
def pushValue (l : Lexer) : Except SyntaxError Lexer := do
  let near := l.key?.filter l.isNear
  match near with
  | some key =>
    let l := l.insert key.token ⟨.key, key.mark, key.mark⟩
    let l := l.roll .blockMappingStart key.mark (some key.token)
    return { l.setKey none with allowsKey := false }.pushKind .value 1
  | none =>
    if l.key?.any (·.isRequired) then l.fail .missingColon
    else if l.inFlow then return { l with allowsKey := false }.pushKind .value 1
    else if !l.allowsKey then l.fail .misplacedValue
    else
      let l := l.roll .blockMappingStart l.cursor.mark none
      return { l.setKey none with allowsKey := true }.pushKind .value 1

def pushKeyed (l : Lexer) (read : Cursor → Except SyntaxError (TokenKind × Mark × Cursor)) :
    Except SyntaxError Lexer := do
  let l ← l.saveKey
  let (kind, stop, after) ← read l.cursor
  return { l with allowsKey := false }.pushRead kind stop after

def pushBlock (l : Lexer) (isLiteral : Bool) : Except SyntaxError Lexer := do
  let l ← l.dropKey
  let (scalar, after) ← readBlock isLiteral l.indent l.cursor
  return { l with allowsKey := true }.pushRead (.scalar (String.ofList scalar.text) false)
    scalar.stop after

def pushQuoted (l : Lexer) (isSingle : Bool) : Except SyntaxError Lexer :=
  l.pushKeyed fun c => do
    let (scalar, after) ← readQuoted isSingle c
    return (.scalar (String.ofList scalar.text) false, scalar.stop, after)

/-- Adds a plain scalar. If it ended at a break, a key may start after it. -/
def pushPlain (l : Lexer) : Except SyntaxError Lexer := do
  let l ← l.saveKey
  let (scalar, after) ← readPlain (l.indent + 1).toNat l.inFlow l.cursor
  return { l with allowsKey := scalar.isBroken }.pushRead (.scalar (String.ofList scalar.text) true)
    scalar.stop after

def startsPlain (inFlow : Bool) : List Char → Bool
  | [] => false
  | '-' :: rest => !rest.head?.any isBlank
  | c :: rest =>
    if c = '?' || c = ':' then !inFlow && !atGap rest
    else !atGap (c :: rest) && !",[]\x7b\x7d#&*!|>'\"%@\x60".toList.contains c

/-- Adds the next token, or several with the collections that it opens or closes. -/
def fetch (l : Lexer) : Except SyntaxError Lexer := do
  if !l.isStarted then
    return { l with isStarted := true }.pushKind .streamStart 0
  let l := l.skipGaps
  let c := l.cursor
  let l := l.unroll c.mark.column
  if c.rest.isEmpty then l.pushEnd
  else if c.mark.column = 0 && c.rest.head? = some '%' then
    let l ← (l.unroll (-1)).dropKey
    let (kind, after) ← readDirective c
    let l := { l with allowsKey := false }.pushRead kind after.mark after
    return { l with cursor := ← skipToNextLine after }
  else if c.atDocumentMark ['-', '-', '-'] then l.pushDocumentMark .documentStart
  else if c.atDocumentMark ['.', '.', '.'] then l.pushDocumentMark .documentEnd
  else
    match c.rest with
    | '[' :: _ => l.pushFlowStart .flowSequenceStart
    | '\x7b' :: _ => l.pushFlowStart .flowMappingStart
    | ']' :: _ => l.pushFlowEnd .flowSequenceEnd
    | '\x7d' :: _ => l.pushFlowEnd .flowMappingEnd
    | ',' :: _ =>
      let l ← l.dropKey
      return { l with allowsKey := true }.pushKind .flowEntry 1
    | '*' :: _ =>
      l.pushKeyed fun c => do
        let (name, after) ← readAnchor c
        return (.alias_ name, after.mark, after)
    | '&' :: _ =>
      l.pushKeyed fun c => do
        let (name, after) ← readAnchor c
        return (.anchor name, after.mark, after)
    | '!' :: _ =>
      l.pushKeyed fun c => do
        let (kind, after) ← readTag c
        return (kind, after.mark, after)
    | '\'' :: _ => l.pushQuoted true
    | '"' :: _ => l.pushQuoted false
    | ch :: rest =>
      if ch = '-' && atGap rest then l.pushBlockEntry
      else if ch = '?' && (l.inFlow || atGap rest) then l.pushKey
      else if ch = ':' && (l.inFlow || atGap rest) then l.pushValue
      else if ch = '|' && !l.inFlow then l.pushBlock true
      else if ch = '>' && !l.inFlow then l.pushBlock false
      else if startsPlain l.inFlow c.rest then l.pushPlain
      else l.fail .noToken
    | [] => l.pushEnd

/-- Fetches tokens until the first one of the queue cannot turn out to be a key. -/
def fill : (fuel : Nat) → Lexer → Except SyntaxError Lexer
  | 0, l => .ok l
  | fuel + 1, l => do
    let held := l.keys.findSome? fun key => key.filter (·.token = l.handedOut)
    match l.queue, held with
    | [], _ => fill fuel (← l.fetch)
    | _ :: _, none => return l
    | _ :: _, some key =>
      if l.isNear key then fill fuel (← l.fetch)
      else if key.isRequired then l.fail .missingColon
      else return { l with keys := l.keys.map (Option.filter (·.token ≠ l.handedOut)) }

/-- The next token. After the last one, the end of the text is met again and again. -/
def peek (l : Lexer) : Except SyntaxError (Token × Lexer) := do
  let l ← fill (l.cursor.rest.length + 3) l
  match l.queue with
  | token :: _ => return (token, l)
  | [] => return (⟨.streamEnd, l.cursor.mark, l.cursor.mark⟩, l)

def next (l : Lexer) : Lexer := { l with queue := l.queue.tail, handedOut := l.handedOut + 1 }

/-- The lexer of a text. A mark of the byte order at its start is skipped. -/
def ofText (text : String) : Except SyntaxError Lexer :=
  let cs := match text.toList with
    | '\ufeff' :: rest => rest
    | cs => cs
  if cs.all isAllowed then .ok { cursor := { rest := cs } } else .error ⟨.controlCharacter, 0⟩

end Lexer

end Relational.Yaml
