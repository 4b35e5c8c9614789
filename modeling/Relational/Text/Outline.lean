/-!
# Outlines

A tree is written as an outline: the label of a node on lines of its own, then each child's outline,
indented and tied to the node by a branch. The branch of the last child ends at the child, the branches
of the other children run on beside them.
-/

namespace Relational

/-- An outline being written: the text so far, and which of its two parts are written. -/
structure Outline where
  text : List Char := []
  hasNode : Bool := false
  hasChildren : Bool := false
deriving Repr, DecidableEq

namespace Outline

/-- The parts of a text between its line breaks; a text without line break is one part. -/
def lines : List Char → List (List Char)
  | [] => [[]]
  | c :: rest =>
    if c = '\n' then [] :: lines rest
    else match lines rest with
      | [] => [[c]]
      | line :: others => (c :: line) :: others

def trimBreaks (text : List Char) : List Char :=
  (text.reverse.dropWhile (· = '\n')).reverse

/-- What precedes a line of a child: the branch on its first line, its continuation on the others. -/
def indent (isFirst isLast : Bool) : List Char :=
  match isFirst, isLast with
  | true, true => [' ', '└', '─', ' ']
  | true, false => [' ', '├', '─', ' ']
  | false, true => [' ', ' ', ' ', ' ']
  | false, false => [' ', '│', ' ', ' ']

def tailLines (isLast : Bool) (rest : List (List Char)) : List Char :=
  rest.flatMap fun line => indent false isLast ++ line ++ ['\n']

def child (isLast : Bool) (text : List Char) : List Char :=
  match lines (trimBreaks text) with
  | [] => []
  | first :: rest => indent true isLast ++ first ++ ['\n'] ++ tailLines isLast rest

/-- The outlines of all children of a node, the last one closing the branch. -/
def children : List (List Char) → List Char
  | [] => []
  | [last] => child true last
  | text :: next :: rest => child false text ++ children (next :: rest)

/-- Writes the label of the node, unless it is written already. -/
def writeNode (o : Outline) (label : List Char) : Outline :=
  if o.hasNode then o else { o with text := o.text ++ label ++ ['\n'], hasNode := true }

/-- Writes the children of the node, unless they are written already. -/
def writeChildren (o : Outline) (outlines : List (List Char)) : Outline :=
  if o.hasChildren then o else { o with text := o.text ++ children outlines, hasChildren := true }

/-- The outline of a node from its label and the outlines of its children. -/
def render (label : String) (outlines : List String) : String :=
  String.ofList
    (((({} : Outline).writeNode label.toList).writeChildren (outlines.map String.toList)).text)

end Outline

end Relational
