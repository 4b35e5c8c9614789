import Relational.Yaml.Lexer

/-!
# Nodes of YAML

The tree of the first document of a text. An alias is replaced by the node it refers to; inside the
node that it refers to, an alias stands for itself.
-/

namespace Relational.Yaml

/-- A node with its line and its tag, which is empty if none is given. A plain scalar is one that is
written without quotes and without a tag. -/
inductive Node where
  | scalar (line : Nat) (tag text : String) (isPlain : Bool)
  | sequence (line : Nat) (tag : String) (items : List Node)
  | mapping (line : Nat) (tag : String) (entries : List (Node × Node))
  | enclosing (line : Nat) (tag anchor : String) (isMapping : Bool)

def defaultHandles : List (String × String) := [("!", "!"), ("!!", "tag:yaml.org,2002:")]

/-- The lexer with the handles of tags and the nodes of anchors. -/
structure NodeReader where
  lexer : Lexer
  handles : List (String × String) := defaultHandles
  anchors : List (String × Node) := []

abbrev Reading := StateT NodeReader (Except SyntaxError)

namespace Reading

def peek : Reading Token := fun r => do
  let (token, lexer) ← r.lexer.peek
  return (token, { r with lexer })

def next : Reading Unit := modify fun r => { r with lexer := r.lexer.next }

def advance : Reading Token := do
  next
  peek

def fail {α : Type} (problem : Problem) (token : Token) : Reading α :=
  throw (.structural problem token.start)

def setAnchor (anchor : String) (node : Node) : Reading Unit :=
  if anchor.isEmpty then pure ()
  else modify fun r => { r with anchors := (anchor, node) :: r.anchors }

def absent (mark : Mark) : Node := .scalar mark.line "" "" true

/-- The anchor and the tag in front of a node. -/
structure Properties where
  anchor : String := ""
  tag : Option (String × String × Token) := none

def properties : Reading (Properties × Token) := do
  let token ← peek
  match token.kind with
  | .anchor name =>
    let second ← advance
    match second.kind with
    | .tag handle suffix => return ({ anchor := name, tag := some (handle, suffix, second) }, ← advance)
    | _ => return ({ anchor := name }, second)
  | .tag handle suffix =>
    let tag := some (handle, suffix, token)
    let second ← advance
    match second.kind with
    | .anchor name => return ({ anchor := name, tag }, ← advance)
    | _ => return ({ tag }, second)
  | _ => return ({}, token)

def resolveTag : Option (String × String × Token) → Reading String
  | none => return ""
  | some ("", suffix, _) => return suffix
  | some (handle, suffix, token) => do
    match (← get).handles.lookup handle with
    | some start => return start ++ suffix
    | none => fail .undefinedTagHandle token

/-- Whether a token ends the entry of a block mapping. -/
def endsBlockEntry : TokenKind → Bool
  | .key | .value | .blockEnd => true
  | _ => false

/-- Whether a token ends the entry of a sequence in brackets or a mapping in braces. -/
def endsFlowEntry (close kind : TokenKind) : Bool := kind = .flowEntry || kind = close

mutual

/-- Reads a node. In a block, collections may be marked by indentation, and where it is allowed a
sequence need not be indented. -/
def node (isBlock allowsDashes : Bool) : (fuel : Nat) → Reading Node
  | 0 => do fail .missingNode (← peek)
  | fuel + 1 => do
    let first ← peek
    match first.kind with
    | .alias_ name =>
      next
      match (← get).anchors.lookup name with
      | some node => return node
      | none => throw ⟨.unknownAnchor name, 0⟩
    | _ =>
      let (p, token) ← properties
      let tag ← resolveTag p.tag
      let line := first.start.line
      match token.kind with
      | .scalar text isPlain =>
        next
        let node := Node.scalar line tag text ((tag.isEmpty && isPlain) || tag = "!")
        setAnchor p.anchor node
        return node
      | .flowSequenceStart =>
        next
        setAnchor p.anchor (.enclosing line tag p.anchor false)
        finish p.anchor (.sequence line tag (← flowItems true fuel))
      | .flowMappingStart =>
        next
        setAnchor p.anchor (.enclosing line tag p.anchor true)
        finish p.anchor (.mapping line tag (← flowEntries true fuel))
      | kind =>
        if isBlock && kind = .blockSequenceStart then
          next
          setAnchor p.anchor (.enclosing line tag p.anchor false)
          finish p.anchor (.sequence line tag (← blockItems fuel))
        else if isBlock && kind = .blockMappingStart then
          next
          setAnchor p.anchor (.enclosing line tag p.anchor true)
          finish p.anchor (.mapping line tag (← blockEntries fuel))
        else if allowsDashes && kind = .blockEntry then
          setAnchor p.anchor (.enclosing line tag p.anchor false)
          finish p.anchor (.sequence line tag (← dashedItems fuel))
        else if p.anchor.isEmpty && tag.isEmpty then fail .missingNode token
        else
          let node := Node.scalar line tag "" tag.isEmpty
          setAnchor p.anchor node
          return node
where
  /-- A collection that has been read, noted for its anchor. -/
  finish (anchor : String) (node : Node) : Reading Node := do
    setAnchor anchor node
    return node

def blockItems : (fuel : Nat) → Reading (List Node)
  | 0 => return []
  | fuel + 1 => do
    let token ← peek
    match token.kind with
    | .blockEntry =>
      let following ← advance
      let item ←
        if following.kind = .blockEntry || following.kind = .blockEnd then
          pure (absent token.stop)
        else node true false fuel
      return item :: (← blockItems fuel)
    | .blockEnd => do
      next
      return []
    | _ => fail .missingDash token

/-- Reads the items of a block sequence that is not indented. -/
def dashedItems : (fuel : Nat) → Reading (List Node)
  | 0 => return []
  | fuel + 1 => do
    let token ← peek
    match token.kind with
    | .blockEntry =>
      let following ← advance
      let item ←
        if following.kind = .blockEntry || endsBlockEntry following.kind then
          pure (absent token.stop)
        else node true false fuel
      return item :: (← dashedItems fuel)
    | _ => return []

def blockEntries : (fuel : Nat) → Reading (List (Node × Node))
  | 0 => return []
  | fuel + 1 => do
    let token ← peek
    match token.kind with
    | .key =>
      let following ← advance
      let key ←
        if endsBlockEntry following.kind then pure (absent token.stop) else node true true fuel
      let token ← peek
      let value ←
        if token.kind = .value then do
          let following ← advance
          if endsBlockEntry following.kind then pure (absent token.stop) else node true true fuel
        else pure (absent token.start)
      return (key, value) :: (← blockEntries fuel)
    | .blockEnd => do
      next
      return []
    | _ => fail .missingKey token

/-- Reads the items of a sequence in brackets. An item may be a single entry of a mapping. -/
def flowItems (isFirst : Bool) : (fuel : Nat) → Reading (List Node)
  | 0 => return []
  | fuel + 1 => do
    let token ← peek
    if token.kind = .flowSequenceEnd then
      next
      return []
    else if !isFirst && token.kind ≠ .flowEntry then fail .missingCommaOrBracket token
    else
      let token ← if isFirst then pure token else advance
      match token.kind with
      | .flowSequenceEnd => do
        next
        return []
      | .key =>
        let following ← advance
        let key ←
          if following.kind = .value || endsFlowEntry .flowSequenceEnd following.kind then do
            next
            pure (absent following.stop)
          else node false false fuel
        let value ← flowValue .flowSequenceEnd fuel
        return .mapping token.start.line "" [(key, value)] :: (← flowItems false fuel)
      | _ =>
        let item ← node false false fuel
        return item :: (← flowItems false fuel)

/-- Reads the value of an entry in brackets or braces, if there is one. -/
def flowValue (close : TokenKind) : (fuel : Nat) → Reading Node
  | 0 => do return absent (← peek).start
  | fuel + 1 => do
    let token ← peek
    if token.kind = .value then
      let following ← advance
      if endsFlowEntry close following.kind then return absent following.start
      else node false false fuel
    else return absent token.start

def flowEntries (isFirst : Bool) : (fuel : Nat) → Reading (List (Node × Node))
  | 0 => return []
  | fuel + 1 => do
    let token ← peek
    if token.kind = .flowMappingEnd then
      next
      return []
    else if !isFirst && token.kind ≠ .flowEntry then fail .missingCommaOrBrace token
    else
      let token ← if isFirst then pure token else advance
      match token.kind with
      | .flowMappingEnd => do
        next
        return []
      | .key =>
        let following ← advance
        let key ←
          if following.kind = .value || endsFlowEntry .flowMappingEnd following.kind then
            pure (absent following.start)
          else node false false fuel
        let value ← flowValue .flowMappingEnd fuel
        return (key, value) :: (← flowEntries false fuel)
      | _ =>
        let key ← node false false fuel
        let value := absent (← peek).start
        return (key, value) :: (← flowEntries false fuel)

end

def directives : (fuel : Nat) → (hasVersion : Bool) → List (String × String) →
    Reading (List (String × String))
  | 0, _, handles => return handles
  | fuel + 1, hasVersion, handles => do
    let token ← peek
    match token.kind with
    | .versionDirective major minor =>
      if hasVersion then fail .duplicateVersion token
      else if major ≠ 1 || minor ≠ 1 then fail .incompatibleVersion token
      else
        next
        directives fuel true handles
    | .tagDirective handle start =>
      if handles.any (·.1 = handle) then fail .duplicateTagDirective token
      else
        next
        directives fuel hasVersion (handles ++ [(handle, start)])
    | _ => return handles

/-- Whether a token is a directive or starts a document. -/
def startsDocument : TokenKind → Bool
  | .versionDirective .. | .tagDirective .. | .documentStart => true
  | _ => false

def endsDocument (kind : TokenKind) : Bool :=
  startsDocument kind || kind = .documentEnd || kind = .streamEnd

/-- Reads the node of a document after its directives and the mark of its start. -/
def markedDocument (fuel : Nat) : Reading Node := do
  let handles ← directives fuel false []
  modify fun r => { r with
    handles := handles ++ defaultHandles.filter fun d => !handles.any (·.1 = d.1) }
  let mark ← peek
  if mark.kind ≠ .documentStart then fail .missingDocumentStart mark
  else
    let first ← advance
    if endsDocument first.kind then return absent first.start else node true false fuel

def document (fuel : Nat) : Reading (Option Node) := do
  let _ ← peek
  let token ← advance
  if token.kind = .streamEnd then return none
  let root ← if startsDocument token.kind then markedDocument fuel else node true false fuel
  let _ ← peek
  return some root

end Reading

/-- The tree of the first document of a text. An empty text is a blank line. -/
def Node.read? (text : String) : Except SyntaxError (Option Node) := do
  let lexer ← Lexer.ofText text
  let (node, _) ← Reading.document (8 * (text.length + 4)) { lexer }
  return node

end Relational.Yaml
