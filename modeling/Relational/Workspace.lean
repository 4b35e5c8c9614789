import Relational.Plan.Node
import Relational.Resolution.Overload
import Relational.Session

/-!
# The workspace

What compilations read and change: the catalog, the bodies of operators, the session if there is one, and
the memories of resolved conversions and calls. Changes of the catalog are announced to the memories.
-/

namespace Relational

/-- The body of an operator: a compiled plan, or a remark in its place. -/
inductive OperatorBody where
  | plan (plan : Plan)
  | remark (text : String)

/-- Whether the body of an operator still has to be compiled, and the body if it is there. -/
structure OperatorState where
  isDeferred : Bool := false
  body : Option OperatorBody := none

/-- What compilations read and change. The states of operators are kept by serial number; operators
without an entry have no body and need none. While a device is being asked for a name, none is asked. -/
structure Workspace where
  catalog : Catalog := {}
  operatorStates : List (Nat × OperatorState) := []
  session : Option Session := none
  isReconciling : Bool := false
  conversionCache : Option ConversionCache := none
  operatorCache : Option OperatorCache := none

namespace Workspace

def operatorState (w : Workspace) (op : Operator) : OperatorState :=
  (w.operatorStates.lookup op.serial).getD {}

/-- The workspace with the state of an operator changed. -/
def setOperatorState (w : Workspace) (op : Operator) (state : OperatorState) : Workspace :=
  { w with operatorStates := (op.serial, state) :: w.operatorStates.filter (·.1 ≠ op.serial) }

/-- Binds the body of an operator, which then no longer has to be compiled. -/
def bind (w : Workspace) (op : Operator) (body : OperatorBody) : Workspace :=
  w.setOperatorState op { isDeferred := false, body := some body }

/-- Puts off the body of an operator until it is needed. -/
def defer (w : Workspace) (op : Operator) : Workspace :=
  w.setOperatorState op { isDeferred := true }

/-- Announces a change of the catalog to the memories. -/
def notify (w : Workspace) (event : CatalogEvent) : Workspace :=
  { w with
    conversionCache := w.conversionCache.map (·.notify event)
    operatorCache := w.operatorCache.map (·.notify event) }

/-- Takes over a change of the catalog and announces it. -/
def apply {α : Type} (w : Workspace) (change : Change α) : Workspace :=
  change.events.foldl notify { w with catalog := change.catalog }

def transaction? (w : Workspace) : Option Transaction :=
  w.session.bind Session.transaction?

/-- The innermost transaction, if its private objects hide others. -/
def activeTransaction? (w : Workspace) : Option Transaction :=
  w.transaction?.filter Transaction.isActive

/-- The workspace with the innermost transaction and the catalog replaced. -/
def setTransaction (w : Workspace) (t : Transaction) (catalog : Catalog) : Workspace :=
  { w with catalog, session := w.session.map (·.setTransaction t) }

def withoutCaches (w : Workspace) : Workspace :=
  { w with conversionCache := none, operatorCache := none }

/-- The conversion between two types; with `widen`, the target may have more columns. -/
def findConversion (w : Workspace) (widen : Bool) (source target : Ty) :
    ConversionContext × Workspace :=
  let (context, cache) := Relational.findConversion w.catalog.conversions widen source target
    w.conversionCache
  (context, { w with conversionCache := cache })

end Workspace

end Relational
