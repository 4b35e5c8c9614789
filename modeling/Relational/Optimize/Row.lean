import Relational.Plan.Transform
import Relational.Plan.Walk

/-!
# References to rows

A condition is compiled with the row of its source innermost. When the condition moves to another
source, its references to columns of that row have to address the columns of the new row.
-/

namespace Relational

/-- How a plan refers to the innermost row: the places of the columns, and whether it refers to the row
as a whole. -/
structure RowUses where
  columns : List Nat := []
  isWhole : Bool := false
deriving Repr, DecidableEq

def rowStack (heading : Heading) : Stack :=
  ({} : Stack).push (Symbol.ofRow heading)

/-- Whether a reference is to the row at the bottom of the stack; references above it belong to inner
scopes, those below it to enclosing ones. -/
def isRowReference (index : Nat) (stack : Stack) : Bool :=
  index + 1 == stack.depth

namespace Plan

/-- Notes the reference of a node to the row at the bottom of the stack, if it is one. -/
def noteUse (node : Plan) (stack : Stack) : StateM RowUses Bool := do
  match node.construct with
  | .stackColumnReference _ index column =>
    if isRowReference index stack then
      modify fun uses => { uses with columns := uses.columns ++ [column] }
  | .stackReference _ index =>
    if isRowReference index stack then
      modify fun uses => { uses with isWhole := true }
  | _ => pure ()
  return true

def rowUses (p : Plan) (heading : Heading) : RowUses :=
  (inspectWithStack noteUse p (rowStack heading, {})).2.2

/-- What stands in the way of moving a reference: the new row has no such column, or the reference has
no column to start with. -/
inductive RebaseIssue where
  | impossible | outOfRange
deriving Repr, DecidableEq

/-- A reference moved from one row to another, by the names of the columns. -/
def rebaseColumn (source target : Columns) (rename : String → String) (p : Plan) (name : String)
    (index column : Nat) : Except RebaseIssue Transformed :=
  match source[column]? with
  | none => .error .outOfRange
  | some (old, type) =>
    match target.index? (rename old), target.type? (rename old) with
    | some place, some newType =>
      if !newType.equals type then .error .impossible
      else if place = column ∧ rename old = name then .ok (.same p)
      else .ok (.changed (.make (.stackColumnReference (rename old) index place) p.type p.position []))
    | _, _ => .error .impossible

/-- A node with its reference moved, or the first issue. -/
def rebaseNode (source target : Columns) (rename : String → String) (p : Plan) (stack : Stack) :
    Visit (Option RebaseIssue) Transformed := do
  if (← get).isSome then
    return .same p
  match p.construct with
  | .stackColumnReference name index column =>
    if isRowReference index stack then
      match rebaseColumn source target rename p name index column with
      | .ok result => return result
      | .error issue =>
        set (some issue)
        return .same p
    else return .same p
  | .stackReference _ index =>
    if isRowReference index stack then
      set (some RebaseIssue.impossible)
    return .same p
  | _ => return .same p

/-- A plan with its references moved from one row to another, unless there is an issue. -/
def rebase (source target : Heading) (rename : String → String) (p : Plan) :
    Except RebaseIssue Plan :=
  match transformWithStack (rebaseNode source.columns target.columns rename) p
      (rowStack source, none) with
  | (.ok result, _, none) => .ok result.plan
  | (_, _, some issue) => .error issue
  | (.error _, _, none) => .error .impossible

end Plan

end Relational
