import Relational.Optimize.Basic
import Relational.Optimize.Row

/-!
# Moving restrictions towards table variables

A restriction is moved below the projection, renaming, extension or join that it sits on, when its
condition only uses columns that are there below. Restrictions that always hold are removed. Conditions
that give different results from time to time stay where they are.
-/

namespace Relational

open Passing

def isLiteralTrue (p : Plan) : Bool :=
  match p.construct with
  | .literal (.boolean true) => true
  | _ => false

def columnNames (heading : Heading) (places : List Nat) : Passing (List String) :=
  match places.mapM fun place => (heading.columns[place]?).map Prod.fst with
  | some names => return names
  | none => outOfRange

/-- The source of a restriction over a restriction of one of its children, if the condition can move
there. -/
def restrictBelow (restriction : Plan) (op : Operator) (source condition : Plan) (index : Nat)
    (heading : Heading) (rename : String → String) : Passing (Option Plan) :=
  match source.children[index]? with
  | none => return none
  | some child =>
    match child.heading? with
    | none => return none
    | some childHeading =>
      match condition.rebase heading childHeading rename with
      | .error .impossible => return none
      | .error .outOfRange => outOfRange
      | .ok condition =>
        let restricted :=
          Plan.make (.restrict op) child.type restriction.position [child, condition]
        some <$> source.rebuild (source.children.set index restricted) false

def covers (p : Plan) (names : List String) : Bool :=
  match p.heading? with
  | none => false
  | some heading => names.all fun name => heading.columns.has name

/-- A restriction moved to the side of a join that has all columns of its condition. Outer joins only
take it on the side whose rows are all kept. -/
def restrictJoin (restriction : Plan) (op : Operator) (join condition : Plan) (kind : JoinKind)
    (heading : Heading) : Passing (Option Plan) := do
  let uses := condition.rowUses heading
  let names ← columnNames heading uses.columns
  if uses.isWhole || names.isEmpty then
    return none
  let sides := join.children.map fun side => covers side names
  if kind != .right && sides[0]?.getD false then
    restrictBelow restriction op join condition 0 heading id
  else if kind != .left && sides[1]?.getD false then
    restrictBelow restriction op join condition 1 heading id
  else return none

/-- A restriction moved below its source, if it can move. -/
def pushRestriction (restriction : Plan) (op : Operator) (source condition : Plan) :
    Passing (Option Plan) := do
  match source.heading? with
  | none => return none
  | some heading =>
    match source.construct with
    | .project _ _ => restrictBelow restriction op source condition 0 heading id
    | .rename _ columns => restrictBelow restriction op source condition 0 heading (unrenamed columns)
    | .extend _ computed =>
      let uses := condition.rowUses heading
      let names ← columnNames heading uses.columns
      if uses.isWhole || names.any computed.contains then return none
      else restrictBelow restriction op source condition 0 heading id
    | .join _ kind => restrictJoin restriction op source condition kind heading
    | _ => return none

def normalizeNode (p : Plan) : Passing Transformed := do
  match p.construct, p.children with
  | .restrict op, [source, condition] =>
    if isLiteralTrue condition then
      warn p.position (.redundantConstruct "restriction that always holds")
      log "removing restriction on literal true"
      return .changed source
    if !condition.characteristics.isDeterministic then
      return .same p
    match ← pushRestriction p op source condition with
    | none => return .same p
    | some pushed =>
      log ("pushed restriction below " ++ source.kind.text)
      return .changed pushed
  | _, _ => return .same p

/-- Restrictions moved one step towards the table variables. -/
def normalizeRestrictions (p : Plan) : Passing Transformed :=
  p.transform normalizeNode

end Relational
