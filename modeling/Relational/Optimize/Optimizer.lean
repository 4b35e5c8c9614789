import Relational.Optimize.Access
import Relational.Optimize.Device
import Relational.Optimize.Restriction
import Relational.Optimize.TransactionJoin
import Relational.Plan.Text
import Relational.Resolution.Basic

/-!
# The optimizer

The optimizer runs its passes in batches. A batch is repeated until the plan stays the same or the batch
has run as often as it may.
-/

namespace Relational

/-- Passes that run together, at most a number of times. -/
structure Batch where
  description : String
  iterations : Nat
  passes : List Pass

/-- The passes of the optimizer in batches, those that are skipped, and what is logged. -/
structure Optimizer where
  batches : List Batch
  skipped : List PassId := []
  isDebugging : Bool := false
  isVerbose : Bool := false

/-- What optimization keeps track of, and how it may end before its result. -/
abbrev Optimizing := ExceptT Abort (StateM PassState)

namespace Optimizer

def pass (catalog : Option Catalog) (identifier : PassId) : Pass :=
  { identifier
    apply := fun p => some <$>
      match identifier with
      | .normalizeRestrictions => normalizeRestrictions p
      | .prepareTransactionJoins => prepareTransactionJoins p
      | .determinePotentialDevices => determinePotentialDevices p
      | .determineDevices => determineDevices catalog p
      | .determineAccessPaths => determineAccessPaths p
      | _ => return .same p }

def maxNormalizations : Nat := 16

/-- The optimizer with its usual passes and further ones after them. -/
def ofPasses (catalog : Option Catalog) (added : List Pass) : Optimizer :=
  { batches :=
      [{ description := "normalization", iterations := maxNormalizations
         passes := [pass catalog .normalizeRestrictions] },
       { description := "annotation", iterations := 1
         passes := PassId.defaults.tail.map (pass catalog) },
       { description := "post-analyzer", iterations := 1
         passes := added }] }

/-- The optimizer with its first batch repeated another number of times. -/
def withIterations (o : Optimizer) (iterations : Nat) : Optimizer :=
  { o with batches := o.batches.modify 0 fun batch => { batch with iterations } }

/-- Adds a line to the log while debugging, with the batch in front. -/
def log (o : Optimizer) (batch : Option Batch) (line : String) (s : PassState) : PassState :=
  let start := match batch with
    | some batch => batch.description ++ ": "
    | none => ""
  if o.isDebugging then { s with log := s.log ++ [start ++ line] } else s

/-- The outcome of a pass: a pass without a plan fails. -/
def outcome (pass : Pass) (p : Plan) : Except Failure Transformed × PassState :=
  match pass.apply p {} with
  | (.ok (some result), s) => (.ok result, s)
  | (.ok none, s) =>
    (.error (.cause (.internal ("rule " ++ pass.identifier.text ++ " returned no plan"))), s)
  | (.error failure, s) => (.error failure, s)

/-- A plan after a pass. A pass that fails leaves the plan alone, and a warning says so, which takes a
session to be noted. -/
def applyPass (o : Optimizer) (hasSession : Bool) (batch : Batch) (pass : Pass) (p : Plan) :
    Optimizing Transformed := do
  if o.skipped.contains pass.identifier then
    return .same p
  modify (o.log (some batch) ("applying rule " ++ pass.identifier.text))
  let (result, noted) := outcome pass p
  modify fun s => noted.log.foldl (fun s line => o.log (some batch) line s) s
  match result with
  | .ok result =>
    modify fun s => { s with messages := s.messages ++ noted.messages }
    return result
  | .error failure =>
    if !hasSession then
      throw .absent
    modify fun s => { s with
      messages := s.messages.warn
        (.cause (.optimizerPass pass.identifier.text failure.message)) p.position }
    return .same p

/-- A plan after passes one after the other; whether all of them left it alone. -/
def applyPasses (o : Optimizer) (hasSession : Bool) (batch : Batch) :
    List Pass → Plan → Optimizing Transformed
  | [], p => return .same p
  | pass :: passes, p => do
    let first ← o.applyPass hasSession batch pass p
    if !first.isSame && o.isVerbose then
      modify (o.log (some batch) ("plan:\n" ++ first.plan.text))
    let rest ← o.applyPasses hasSession batch passes first.plan
    return ⟨rest.plan, first.isSame && rest.isSame⟩

/-- A plan after at most a number of further runs of a batch. -/
def runBatch (o : Optimizer) (hasSession : Bool) (batch : Batch) :
    (remaining : Nat) → Plan → Optimizing Transformed
  | 0, p => return .same p
  | remaining + 1, p => do
    let first ← o.applyPasses hasSession batch batch.passes p
    if first.isSame then
      return first
    if remaining = 0 ∧ 1 < batch.iterations then
      modify (o.log (some batch)
        ("batch " ++ batch.description ++ " reached " ++ toString batch.iterations ++ " iterations"))
    let rest ← o.runBatch hasSession batch remaining first.plan
    return ⟨rest.plan, false⟩

/-- A plan after batches one after the other; whether all of them left it alone. -/
def runBatches (o : Optimizer) (hasSession : Bool) : List Batch → Plan → Optimizing Transformed
  | [], p => return .same p
  | batch :: batches, p => do
    let first ← o.runBatch hasSession batch batch.iterations p
    let rest ← o.runBatches hasSession batches first.plan
    return ⟨rest.plan, first.isSame && rest.isSame⟩

/-- The optimized plan, and whether it is the plan itself. -/
def run (o : Optimizer) (hasSession : Bool) (p : Plan) : Optimizing Transformed := do
  modify (o.log none ("starting analysis of node of kind: " ++ p.kind.text))
  o.runBatches hasSession o.batches p

end Optimizer

end Relational
