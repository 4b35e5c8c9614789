import Relational.Compile.Statement
import Relational.Declarations
import Relational.Plan.Walk

/-!
# Compiling again

The body of an operator that was put off is compiled from its stored declaration when the operator is
first called. What a derived table variable reads is found out by compiling its definition. Both may ask
for further objects; an object that is being compiled already is refused, so that the nesting ends.
-/

namespace Relational

open Compiling

/-- What compilations share: their options, and the store and the parser of declarations. -/
structure Compiler where
  options : CompilerOptions := {}
  store : Option DeclarationStore := none
  parse : Option (String → Except Abort OperatorDeclaration) := none

/-- Runs an action on an object that is compiled again; one that is being compiled already is
refused. -/
def guardRecompile {α : Type} (key name : String) (action : Compiling α) : Compiling α := do
  if (← get).recompiling.contains key then
    throw (.ofCause (.circularRecompile name))
  between (fun b => { b with recompiling := key :: b.recompiling })
    (fun b => { b with recompiling := b.recompiling.erase key }) action

/-- Runs an action on its own, with some symbols in scope; tells the messages it recorded. What is being
compiled again is shared with the compilation around. -/
def isolate {α : Type} (options : CompilerOptions) (symbols : List Symbol) (action : Compiling α) :
    Compiling (α × Messages) := fun b =>
  let inner := b.isolated options
  let (result, inner) := action { inner with stack := inner.stack.pushAll symbols }
  (result.map fun value => (value, inner.messages),
    { b with workspace := inner.workspace, recompiling := inner.recompiling })

def raiseErrors (messages : Messages) : Compiling Unit :=
  match messages.failure? with
  | some failure => throw (.raised failure)
  | none => return ()

def readDeclaration (store : DeclarationStore) (parse : String → Except Abort OperatorDeclaration)
    (op : Operator) : Compiling OperatorDeclaration := do
  match store.get op.name with
  | .error failure => throw (.raised failure)
  | .ok text =>
    match parse text with
    | .error abort => throw abort
    | .ok declaration =>
      if declaration.parameters.length ≠ op.signature.length then
        throw (.ofCause (.typeMismatch op.text declaration.name))
      return declaration

/-- The parameters of a declaration as symbols; only those passed by reference can be assigned. -/
def parameterSymbols (declaration : OperatorDeclaration) (op : Operator) : List Symbol :=
  (declaration.parameters.zip op.signature).map fun (parameter, declared) =>
    { name := parameter.name, type := some declared.type, isConstant := !parameter.isVar }

/-- Compiles the body of an operator that was put off, with only its parameters in scope. -/
def recompileOperator (c : Compiler) (e : Environment) (op : Operator) : Compiling Unit := do
  match c.store, c.parse with
  | some store, some parse =>
    guardRecompile ("operator " ++ op.name) op.name do
      let declaration ← readDeclaration store parse op
      let (body, messages) ← isolate c.options (parameterSymbols declaration op)
        (safely declaration.body.position? (compileStmt e declaration.body))
      modify fun b => { b with messages := b.messages ++ messages.warnings }
      raiseErrors messages
      note
      modify fun b => { b with workspace := b.workspace.bind op (.plan body) }
  | _, _ => throw (.ofCause (.declarationNotFound op.name))

/-- The names of the table variables that a plan reads, sorted and without repetition. -/
def referencedNames (p : Plan) : List String :=
  sortedNames (p.tableVars.map TableVar.sourceName)

/-- The plan of an expression on its own; a failure is recorded, and there is no plan then. -/
def compileAlone (e : Environment) (expr : Expr) : Compiling (Option Plan) := fun b =>
  match compileExpr e expr b with
  | (.ok plan, b) => (.ok (some plan), b)
  | (.error abort, b) =>
    match expr.position? with
    | none => (.error .absent, b)
    | some position => (do
        record position (abort.toFailure position)
        return none : Compiling (Option Plan)) b

/-- Finds out which table variables a derived table variable reads. -/
def inferReferences (c : Compiler) (e : Environment) (tv : TableVar) : Compiling Unit := do
  let setReferences := fun (references : List String) => (modify fun b =>
    { b with workspace := { b.workspace with
        catalog := b.workspace.catalog.updateTableVar tv.name (·.setReferences references) } } :
    Compiling Unit)
  match tv.definition with
  | .missing => setReferences []
  | definition =>
    guardRecompile ("table " ++ tv.name) tv.name do
      let (plan, messages) ← isolate c.options [] (compileAlone e definition)
      raiseErrors messages
      match plan with
      | some plan => setReferences (referencedNames plan)
      | none => throw .absent

/-! ### The depth of nesting -/

/-- The table variables that a catalog may hand out: those declared and those on devices. -/
def Catalog.tableVars (c : Catalog) : List TableVar :=
  c.objects.filterMap (fun entry =>
    match entry.2 with
    | .tableVar tv => some tv
    | .scalarType _ => none) ++
  c.devices.flatMap fun device => device.2.pending.map Prod.snd

namespace Builder

/-- The operators that calls may be resolved with: those of the catalog, those of the compilation and
those of remembered matches. -/
def operators (b : Builder) : List Operator :=
  (b.workspace.catalog.operators ++ b.scope.operators).flatMap (fun entry => entry.2.operators) ++
    b.workspace.operatorCache.toList.flatMap fun cache =>
      cache.entries.map fun entry => entry.2.found.operator

/-- The names of the operators whose bodies still have to be compiled. -/
def deferredNames (b : Builder) : List String :=
  ((b.operators.filter fun op => (b.workspace.operatorState op).isDeferred).map (·.name)).eraseDups

def derivedNames (b : Builder) : List String :=
  ((b.workspace.catalog.tableVars.filter (·.isDerived)).map (·.name)).eraseDups

end Builder

namespace Compiler

/-- The environment of compilations in which at most `depth` objects are compiled again inside one
another. -/
def environment (c : Compiler) : (depth : Nat) → Environment
  | 0 =>
    { options := c.options
      recompile := fun op => throw (.ofCause (.circularRecompile op.name))
      infer := fun tv => throw (.ofCause (.circularRecompile tv.name)) }
  | depth + 1 =>
    let inner := c.environment depth
    { options := c.options
      recompile := recompileOperator c inner
      infer := inferReferences c inner }

/-- A depth that no nesting exceeds: the number of names of operators that still have to be compiled and
of derived table variables, and one more for the request that is refused. -/
def nestingBound (b : Builder) : Nat :=
  b.deferredNames.length + b.derivedNames.length + 1

end Compiler

end Relational
