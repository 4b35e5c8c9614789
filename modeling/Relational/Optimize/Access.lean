import Relational.Optimize.Basic
import Relational.Optimize.Row

/-!
# Choosing access paths

A relational node that reads a table variable directly scans it, filters it, or looks rows up by a key if
its condition compares all columns of the key with values that do not depend on the row.
-/

namespace Relational

open Passing

namespace Plan

/-- Whether a construct calls an operator of an unqualified name. -/
def isCallOf (construct : Construct) (name : String) : Bool :=
  match construct with
  | .call op => Name.unqualified op.name == name
  | _ => false

mutual

def conjuncts : Plan → List Plan
  | ⟨construct, type, characteristics, position, annotations, children⟩ =>
    if isCallOf construct "iAnd" then conjunctsAll children
    else [⟨construct, type, characteristics, position, annotations, children⟩]

def conjunctsAll : List Plan → List Plan
  | [] => []
  | p :: ps => p.conjuncts ++ conjunctsAll ps

end

mutual

def unconverted : Plan → Plan
  | ⟨.convert conversion, type, characteristics, position, annotations, children⟩ =>
    unconvertedHead ⟨.convert conversion, type, characteristics, position, annotations, children⟩
      children
  | p => p

/-- The first of some plans without conversions around it, or another plan. -/
def unconvertedHead (other : Plan) : List Plan → Plan
  | [] => other
  | p :: _ => p.unconverted

end

/-- The place of the column of the innermost row that a plan reads, looking through conversions. -/
def rowColumn? (p : Plan) : Option Nat :=
  match p.unconverted.construct with
  | .stackColumnReference _ 0 column => some column
  | _ => none

end Plan

def referencesRow (p : Plan) (heading : Heading) : Passing Bool := do
  let uses := p.rowUses heading
  if uses.columns.all fun place => place < heading.columns.length then
    return uses.isWhole || !uses.columns.isEmpty
  else outOfRange

/-- The column that one side of an equality fixes, if the other side does not depend on the row. -/
def fixedColumn? (heading : Heading) (side other : Plan) : Passing (Option String) := do
  match side.rowColumn? with
  | none => return none
  | some place =>
    if ← referencesRow other heading then return none
    else if !other.characteristics.isDeterministic then return none
    else
      match heading.columns[place]? with
      | some (name, _) => return some name
      | none => outOfRange

def equalityColumn? (heading : Heading) (p : Plan) : Passing (Option String) := do
  if Plan.isCallOf p.construct "iEqual" then
    match p.children with
    | [left, right] =>
      match ← fixedColumn? heading left right with
      | some name => return some name
      | none => fixedColumn? heading right left
    | _ => return none
  else return none

/-- The columns of a row that a condition compares for equality with values that do not depend on the
row. -/
def equalityColumns (condition : Plan) (heading : Heading) : Passing (List String) :=
  condition.conjuncts.foldlM (fun names p => do
    return names ++ (← equalityColumn? heading p).toList) []

def Plan.tableVar? (p : Plan) : Option TableVar :=
  match p.construct with
  | .tableVarReference tv => some tv
  | _ => none

def accessPath (p : Plan) : Passing AccessPath := do
  match p.construct, p.children with
  | .restrict _, [source, condition] =>
    match source.tableVar? with
    | none => return .unknown
    | some tv =>
      let columns ← match source.heading? with
        | some heading => equalityColumns condition heading
        | none => pure []
      return if (tv.key? columns).isSome then .keyLookup else .filter
  | .project .., children | .rename .., children | .extend .., children | .join .., children =>
    return if children.any fun child => child.tableVar?.isSome then .scan else .unknown
  | _, _ => return .unknown

def determineAccessPath (p : Plan) : Passing Transformed := do
  if p.annotations.accessPath ≠ .unknown then
    return .same p
  match ← accessPath p with
  | .unknown => return .same p
  | path =>
    log (p.kind.text ++ " at " ++ p.position.text ++ " reads by " ++ path.text)
    return .changed (p.annotate fun a => { a with accessPath := path })

def determineAccessPaths (p : Plan) : Passing Transformed :=
  p.transform determineAccessPath

end Relational
