import Relational.Stack.Basic
import Relational.Text.Fold

/-!
# Looking up variables

A name designates the visible symbols of that name and the columns of that name of visible rows, in any
case. It is resolved when it designates one of them only, or one of them in the same case; with the
policy that prefers exact matches, the innermost of several in the same case wins.
-/

namespace Relational

/-- The place of a symbol, or of a column of a row symbol, counted from the top of the stack. -/
structure Location where
  index : Nat
  column : Option Nat := none
  name : String
deriving Repr, DecidableEq

def Location.isColumn (l : Location) : Bool :=
  l.column.isSome

/-- Something that a name designates up to case. -/
structure Candidate where
  location : Location
  symbol : Symbol
  isExact : Bool
  description : String

/-- The outcome of resolving a name on the stack. -/
inductive Resolution where
  | missing
  | ambiguous (candidates : List String)
  | found (location : Location) (symbol : Symbol) (shadowed : List String)

namespace CollisionPolicy

def parse? (name : String) : Option CollisionPolicy :=
  match Text.lower name with
  | "" | "ambiguous" => some .ambiguous
  | "prefer-exact" => some .preferExact
  | _ => none

end CollisionPolicy

namespace Stack

open Text

/-- What a name designates in a symbol: the symbol itself, then its columns. -/
def symbolCandidates (name : String) (index : Nat) (symbol : Symbol) : List Candidate :=
  let itself :=
    if symbol.name ≠ "" ∧ equalFold symbol.name name then
      [{ location := { index, name := symbol.name }, symbol,
         isExact := symbol.name == name, description := symbol.name : Candidate }]
    else []
  let columns := symbol.columns.zipIdx.filterMap fun ((column, _), position) =>
    if equalFold column name then
      some { location := { index, column := some position, name := column }, symbol,
             isExact := column == name,
             description := if symbol.name = "" then column else symbol.name ++ "." ++ column :
             Candidate }
    else none
  itself ++ columns

/-- What a name designates among the visible symbols, innermost first. -/
def candidates (s : Stack) (name : String) : List Candidate :=
  s.visible.zipIdx.flatMap fun (symbol, index) => symbolCandidates name index symbol

/-- The descriptions of the candidates elsewhere than at a location. -/
def descriptionsExcept (candidates : List Candidate) (location : Location) : List String :=
  (candidates.filter (·.location ≠ location)).map (·.description)

def choose (policy : CollisionPolicy) (candidates : List Candidate) : Resolution :=
  let found := fun (c : Candidate) =>
    Resolution.found c.location c.symbol (descriptionsExcept candidates c.location)
  match candidates with
  | [] => .missing
  | [c] => .found c.location c.symbol []
  | _ =>
    match candidates.filter (·.isExact), policy with
    | [c], _ => found c
    | c :: _, .preferExact => found c
    | _, _ => .ambiguous (candidates.map (·.description))

def resolve (s : Stack) (name : String) : Resolution :=
  choose s.policy (s.candidates name)

/-- The names of the visible symbols with which a new symbol would collide. -/
def collisions (s : Stack) (name : String) : List String :=
  (s.visible.filter fun symbol => symbol.name ≠ "" ∧ equalFold symbol.name name).map (·.name)

/-- The names of the visible symbols and of their columns, innermost first. -/
def visibleNames (s : Stack) : List String :=
  s.visible.flatMap fun symbol =>
    (if symbol.name = "" then [] else [symbol.name]) ++ symbol.columns.names

end Stack

end Relational
