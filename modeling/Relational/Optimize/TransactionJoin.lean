import Relational.Optimize.Basic
import Relational.Plan.Walk

/-!
# Joins across a transaction

A join between a side that only reads copies of a transaction and a side that only reads other table
variables is marked, and the other side is read by lookup, so that the transaction copies only the rows
that the join touches.
-/

namespace Relational

open Passing

/-- Whether a plan reads table variables and all of them are copies of a transaction, or none. -/
def readsOnly (p : Plan) (isTransactional : Bool) : Bool :=
  !p.tableVars.isEmpty && p.tableVars.all (·.isTransactional == isTransactional)

def lookupSide? (left right : Plan) : Option Nat :=
  if readsOnly left true && readsOnly right false then some 1
  else if readsOnly left false && readsOnly right true then some 0
  else none

def prepareNode (p : Plan) : Passing Transformed := do
  match p.construct, p.children with
  | .join _ _, left :: right :: _ =>
    if p.annotations.isTransactionJoin then
      return .same p
    match lookupSide? left right with
    | none => return .same p
    | some side =>
      let children := p.children.modify side fun child =>
        child.annotate fun a => { a with isLookup := true }
      let marked ← p.rebuild children false
      log ("join at " ++ p.position.text ++ " crosses the transaction overlay")
      return .changed
        { marked with annotations := { marked.annotations with isTransactionJoin := true } }
  | _, _ => return .same p

def prepareTransactionJoins (p : Plan) : Passing Transformed :=
  p.transform prepareNode

end Relational
