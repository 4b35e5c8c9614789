import Relational.Message
import Relational.Plan.Transform

/-!
# Optimizer passes

A pass transforms a plan. It may warn and keeps a log. A pass that fails, or that gives no plan, leaves
the plan as it was: the optimizer discards what it warned about and warns about the pass instead.
-/

namespace Relational

/-- The identifier of a pass. The usual passes have the first ones, in their order. A pass that is added
has the one that it is given, be it that of another pass. -/
structure PassId where
  code : Int
deriving Repr, DecidableEq

namespace PassId

@[match_pattern] def normalizeRestrictions : PassId := ⟨0⟩
@[match_pattern] def prepareTransactionJoins : PassId := ⟨1⟩
@[match_pattern] def determinePotentialDevices : PassId := ⟨2⟩
@[match_pattern] def determineDevices : PassId := ⟨3⟩
@[match_pattern] def determineAccessPaths : PassId := ⟨4⟩

/-- The first identifier that is meant for added passes. -/
@[match_pattern] def firstAdded : PassId := ⟨5⟩

def text : PassId → String
  | normalizeRestrictions => "normalizeRestrictions"
  | prepareTransactionJoins => "prepareTransactionJoins"
  | determinePotentialDevices => "determinePotentialDevices"
  | determineDevices => "determineDevices"
  | determineAccessPaths => "determineAccessPaths"
  | firstAdded => "PostRuleId"
  | ⟨code⟩ => "RuleId(" ++ toString code ++ ")"

def defaults : List PassId :=
  [normalizeRestrictions, prepareTransactionJoins, determinePotentialDevices, determineDevices,
    determineAccessPaths]

def parse? (name : String) : Option PassId :=
  defaults.find? (·.text == name)

end PassId

/-- What a pass warned about and logged so far. -/
structure PassState where
  messages : Messages := []
  log : List String := []

abbrev Passing := Visit PassState

namespace Passing

def warn (position : Position) (cause : Cause) : Passing Unit :=
  modify fun s => { s with messages := s.messages.warn (.cause cause) position }

def log (line : String) : Passing Unit :=
  modify fun s => { s with log := s.log ++ [line] }

def outOfRange {α : Type} : Passing α :=
  throw (.plain "runtime error")

end Passing

/-- A pass of the optimizer: what it makes of a plan, if it makes anything of it. -/
structure Pass where
  identifier : PassId
  apply : Plan → Passing (Option Transformed)

def Plan.annotate (p : Plan) (change : Annotations → Annotations) : Plan :=
  let copy := p.replaceChildren p.children
  { copy with annotations := change copy.annotations }

end Relational
