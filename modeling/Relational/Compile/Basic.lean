import Relational.Message
import Relational.Plan.Scope
import Relational.Resolution.Name
import Relational.Resolution.Operator

/-!
# Compilations

A compilation reads a syntax tree with a symbol stack and collects messages. It runs in a monad in which a
construct that cannot be compiled is given up by raising a failure; everything recorded until then stays.
Scopes opened by a construct are closed whether it succeeds or not.
-/

namespace Relational

/-- The options of a compiler. -/
structure CompilerOptions where
  resolution : ResolutionOptions := {}
  path : ResolutionPath := []
  policy : CollisionPolicy := .ambiguous
  widen : Bool := false
deriving Repr, DecidableEq

/-- The numbers of loops and of error handlers around a construct. -/
structure Nesting where
  loops : Nat := 0
  handlers : Nat := 0

/-- What statements may be nested in. -/
inductive Enclosure where
  | loop | handler

namespace Nesting

/-- The nesting within one more loop or handler. -/
def enter (nesting : Nesting) : Enclosure → Nesting
  | .loop => { nesting with loops := nesting.loops + 1 }
  | .handler => { nesting with handlers := nesting.handlers + 1 }

/-- The nesting outside of a loop or handler. -/
def leave (nesting : Nesting) : Enclosure → Nesting
  | .loop => { nesting with loops := nesting.loops - 1 }
  | .handler => { nesting with handlers := nesting.handlers - 1 }

end Nesting

/-- The state of a compilation: the workspace, the symbols, the messages so far, what the construct is nested
in, the objects being compiled again, and what the compilation itself declares. -/
structure Builder where
  workspace : Workspace
  stack : Stack := {}
  messages : Messages := []
  nesting : Nesting := {}
  recompiling : List String := []
  scope : PlanScope := {}

abbrev Compiling := ExceptT Abort (StateM Builder)

/-- What the constructs of a compilation depend on: the options, how the body of an operator is compiled
that was put off, and how it is found out what a derived table variable reads. -/
structure Environment where
  options : CompilerOptions
  recompile : Operator → Compiling Unit
  infer : TableVar → Compiling Unit

def describeType (type : Option Ty) : String :=
  (type.map Ty.text).getD "no value"

/-- Resolution changes the workspace of the compilation. -/
instance : MonadResolving Compiling where
  resolve action := fun b =>
    let (result, workspace) := action b.workspace
    (result, { b with workspace })

namespace Builder

def start (options : CompilerOptions) (workspace : Workspace) : Builder :=
  { workspace, stack := { policy := options.policy }, scope := { path := options.path } }

/-- A builder for a part that is compiled on its own; what is being compiled again is remembered. -/
def isolated (b : Builder) (options : CompilerOptions) : Builder :=
  { start options b.workspace with recompiling := b.recompiling }

def addMessage (b : Builder) (severity : Severity) (failure : Failure) (position : Position) :
    Builder :=
  { b with messages := b.messages.add severity failure position }

end Builder

namespace Compiling

variable {α : Type}

def raise (position : Position) (cause : Cause) : Compiling α :=
  throw (.raised (Failure.at_ (.cause cause) position))

def fatal (position : Position) (cause : Cause) : Compiling α :=
  throw (.raised (Failure.fatal (.cause cause) position))

def locate (position : Option Position) : Compiling Position :=
  match position with
  | some position => return position
  | none => throw .absent

/-- Failures of an action get a position, unless they have one. -/
def at_ (position : Position) (action : Compiling α) : Compiling α := fun b =>
  match action b with
  | (.ok value, b) => (.ok value, b)
  | (.error abort, b) => (.error (abort.at_ position), b)

def warn (position : Position) (cause : Cause) : Compiling Unit :=
  modify fun b => b.addMessage .warning (.cause cause) position

def note : Compiling Unit := do
  if (← get).workspace.session.isNone then throw .absent

/-- Records a failure, as fatal if it is, and notes it. -/
def record (position : Position) (failure : Failure) : Compiling Unit := do
  modify fun b => b.addMessage (if failure.isFatal then .fatal else .error) failure position
  note

/-- Runs an action between a change of the state and its inverse, which is applied in any case. -/
def between (enter leave : Builder → Builder) (action : Compiling α) : Compiling α := fun b =>
  let (result, b) := action (enter b)
  (result, leave b)

/-- Closes the scope of a guard after an action, whatever its outcome. A stack that refuses is a fault,
which takes the place of the outcome. -/
def leaveScope (guard : Guard) : Except Abort α × Builder → Except Abort α × Builder
  | (result, b) =>
    match b.stack.release guard with
    | (stack, _, none) => (result, { b with stack })
    | (stack, _, some cause) => (.error (.fault cause.message), { b with stack })

/-- Runs an action in a frame with symbols of its own. -/
def inScope (symbols : List Symbol) (action : Compiling α) : Compiling α := fun b =>
  let (guard, stack) := b.stack.pushFrame
  leaveScope guard (action { b with stack := stack.pushAll symbols })

/-- Runs an action in a window that hides all symbols. -/
def inWindow (action : Compiling α) : Compiling α := fun b =>
  leaveScope (b.stack.guard true) (action { b with stack := b.stack.openWindow 0 })

/-- Runs an action in a loop or a handler. -/
def within (place : Enclosure) : Compiling α → Compiling α :=
  between (fun b => { b with nesting := b.nesting.enter place }) fun b =>
    { b with nesting := b.nesting.leave place }

def push (symbol : Symbol) : Compiling Unit :=
  modify fun b => { b with stack := b.stack.push symbol }

def markModified (index : Nat) : Compiling Unit :=
  modify fun b =>
    { b with stack := b.stack.modify index fun symbol => { symbol with isModified := true } }

/-- Runs the action that compiles a statement at a position. If it is given up, the failure is recorded
and nothing is evaluated in its place, unless the failure ends the compilation. -/
def safely (position : Option Position) (action : Compiling Plan) : Compiling Plan := fun b =>
  let depth := b.stack.depth
  match action b with
  | (.ok plan, b) => (.ok plan, b)
  | (.error abort, b) =>
    match position with
    | none => (.error .absent, b)
    | some position =>
      let failure := abort.toFailure position
      if failure.isFatal then (.error (.raised failure), b)
      else if b.stack.depth ≠ depth then
        (.error (.raised (Failure.fatal (.cause (.internal "unbalanced symbol stack")) .none)), b)
      else (do
        record position failure
        return Plan.noOp position : Compiling Plan) b

def conversionBetween (e : Environment) (source target : Ty) : Compiling ConversionContext := fun b =>
  let (context, workspace) := b.workspace.findConversion e.options.widen source target
  (.ok context, { b with workspace })

def lookUp (e : Environment) (binding : Binding) (position : Position) (name : String) :
    Compiling (Option ResolvedName) := do
  let b ← get
  at_ position
    (resolveName e.options.resolution b.scope (some b.stack) e.infer binding name)

def overloadFor (e : Environment) (name : String) (arguments : List Plan) :
    Compiling OverloadMatch := do
  let b ← get
  resolveOperator e.options.resolution b.scope e.recompile name
    (arguments.map fun p => { type := p.type }) false

def scalarType (e : Environment) (position : Position) (name : String) : Compiling ScalarType := do
  match ← lookUp e .objects position name with
  | some (.object (.scalarType type)) => return type
  | some (.object object) => raise position (.typeMismatch "a scalar type" object.kind.text)
  | _ => raise position (.unknownIdentifier name
      (suggestName (← get).workspace.catalog none name))

/-- A scalar type of the system library. Nothing can be compiled without it. -/
def systemType (position : Position) (name : String) : Compiling Ty := do
  let qualified := Name.qualified "System" name
  match (← get).workspace.catalog.resolveName qualified [] with
  | .one (.scalarType type) => return .scalar type
  | _ => fatal position (.missingType qualified)

end Compiling

end Relational
