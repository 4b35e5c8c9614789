/-!
# Source positions
-/

namespace Relational

/-- A line and a column of a source text. -/
structure Position where
  line : Int := 0
  column : Int := 0
deriving Repr, DecidableEq, Inhabited

namespace Position

/-- The position of what has no place in a source text. -/
def none : Position := {}

/-- Whether the position is a place in a source text. -/
def isKnown (p : Position) : Bool :=
  p.line != 0 || p.column != 0

def text (p : Position) : String :=
  toString p.line ++ ":" ++ toString p.column

end Position

end Relational
