/-!
# Qualified names

Objects have dotted names. The segments before the last one are the namespace of the object, the first
one alone its library. A reference may leave out leading segments.
-/

namespace Relational

/-- The libraries searched for an unqualified name, those that take precedence first. -/
abbrev ResolutionPath := List String

namespace Name

def unqualified (name : String) : String :=
  String.ofList (name.toList.reverse.takeWhile (· ≠ '.')).reverse

/-- The first segment of a dotted name, empty when the name has no dot. -/
def library (name : String) : String :=
  if '.' ∈ name.toList then String.ofList (name.toList.takeWhile (· ≠ '.')) else ""

/-- A name in a namespace; the empty namespace adds nothing. -/
def qualified (space name : String) : String :=
  if space = "" then name else space ++ "." ++ name

def startsWith (name beginning : String) : Bool :=
  beginning.toList.isPrefixOf name.toList

def endsWith (name ending : String) : Bool :=
  ending.toList.isSuffixOf name.toList

/-- Whether the object of this full name is designated by a reference: by its full name, or by the
segments at its end. -/
def isDesignatedBy (object reference : String) : Bool :=
  object == reference || endsWith object ("." ++ reference)

end Name

def sortNames (names : List String) : List String :=
  names.mergeSort fun a b => decide (a ≤ b)

end Relational
