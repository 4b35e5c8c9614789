import Relational.Failure
import Relational.Workspace

/-!
# Resolution

Names and calls are resolved against the symbols of the compilation, what the compilation itself
declares, the session, and the catalog. Resolution may change the workspace: it copies table variables
into transactions and declares table variables that a device holds. Such changes stay when it fails
afterwards.
-/

namespace Relational

/-- What ends a computation: a failure that is raised, or a fault inside the compiler itself. -/
inductive Abort where
  | raised (failure : Failure)
  | fault (text : String)

namespace Abort

instance : Inhabited Abort := ⟨fault ""⟩

def absent : Abort := fault "runtime error"

def ofCause (cause : Cause) : Abort := raised (.cause cause)

/-- A raised failure at a position, unless it has one. -/
def at_ (abort : Abort) (position : Position) : Abort :=
  match abort with
  | raised failure => raised (failure.at_ position)
  | fault text => fault text

/-- What is reported at a position: the failure, or a fault as an internal error. -/
def toFailure (abort : Abort) (position : Position) : Failure :=
  match abort with
  | raised failure => failure
  | fault text => Failure.at_ (.cause (.internal text)) position

end Abort

/-- A computation on the workspace that may be ended. -/
abbrev Resolving := ExceptT Abort (StateM Workspace)

/-- Computations in which resolution is a step. -/
class MonadResolving (m : Type → Type) where
  /-- Resolution as a step. -/
  resolve {α : Type} : Resolving α → m α

instance : MonadResolving Resolving := ⟨id⟩

/-- The namespace tried first for every name, and the device asked for unknown names. -/
structure ResolutionOptions where
  space : String := ""
  device : String := ""
deriving Repr, DecidableEq

/-- What a compilation looks names up in besides its symbols: the path of libraries, the aliases of
objects and operators that it created, and the operators that only exist for it. -/
structure PlanScope where
  path : ResolutionPath := []
  objects : Aliases := []
  operatorNames : Aliases := []
  operators : List (String × Overloads) := []

namespace PlanScope

/-- Adds an operator that only exists for the compilation; one that takes the same arguments as another
is refused. -/
def addOperator (s : PlanScope) (op : Operator) : Except Cause PlanScope :=
  match ((s.operators.lookup op.name).getD { name := op.name }).add op with
  | .error existing => .error (.duplicateDeclaration op.text existing.text)
  | .ok overloads => .ok { s with operators := putEntry s.operators op.name overloads }

/-- The operators of the compilation that a name designates. -/
def operators? (s : PlanScope) (name : String) : Option Overloads :=
  (s.operators.find? fun entry => Name.isDesignatedBy entry.1 name).map Prod.snd

end PlanScope

namespace Resolving

def raise {α : Type} (cause : Cause) : Resolving α :=
  throw (.ofCause cause)

/-- Runs an action while a device is being asked, which is over then in any case. -/
def reconciling {α : Type} (action : Resolving α) : Resolving α := fun w =>
  let (result, w) := action { w with isReconciling := true }
  (result, { w with isReconciling := false })

/-- What was found under a name; several candidates are ambiguous. -/
def unambiguous {α : Type} (name : String) : Found α → Resolving (Option α)
  | .nothing => return none
  | .one value => return some value
  | .ambiguous names => raise (.ambiguousIdentifier name names)

end Resolving

end Relational
