import Relational.Compile.Program
import Relational.Config
import Relational.Optimize.Optimizer

/-!
# Engines

An engine compiles statements against a workspace as its configuration says, and optimizes what compiled
without errors.
-/

namespace Relational

/-- An engine: its configuration, where it reads declarations, and the passes added to its optimizer. -/
structure Engine where
  config : Config := {}
  store : Option DeclarationStore := none
  parse : Option (String → Except Abort OperatorDeclaration) := none
  added : List Pass := []

namespace Engine

/-- The engine of a configuration, unless something is wrong with it. -/
def create (config : Config) (store : Option DeclarationStore)
    (parse : Option (String → Except Abort OperatorDeclaration)) (added : List Pass) :
    Except Failure Engine :=
  match config.failure? with
  | some failure => .error failure
  | none => .ok { config, store, parse, added }

/-- The workspace with the memories of the engine, which are empty. -/
def attach (e : Engine) (w : Workspace) : Workspace :=
  { w with
    conversionCache := some (.ofSize e.config.conversionCacheSize)
    operatorCache := some (.ofSize e.config.operatorCacheSize) }

/-- The compiler of the engine; declarations are only read if there is a store. -/
def compiler (e : Engine) : Compiler :=
  { options := e.config.compilerOptions, store := e.store, parse := e.parse }

def optimizer (e : Engine) (catalog : Catalog) : Optimizer :=
  { Optimizer.ofPasses (some catalog) e.added with
    skipped := e.config.skipped
    isDebugging := e.config.debug }

/-- A compiled plan optimized, with the warnings of the optimizer. -/
def optimized (e : Engine) (p : Plan) (messages : Messages) : Resolving Compiled := fun w =>
  match (e.optimizer w.catalog).run w.session.isSome p { messages } with
  | (.ok result, s) => (.ok { plan := some result.plan, messages := s.messages }, w)
  | (.error abort, _) => (.error abort, w)

/-- Compiles a statement and, if it has no errors, optimizes it. -/
def compile (e : Engine) (statement : Stmt) : Resolving Compiled := do
  let compiled ← e.compiler.compile statement
  if compiled.messages.hasErrors then
    if (← get).session.isNone then
      throw .absent
    return compiled
  match e.config.optimize, compiled.plan with
  | true, some plan => e.optimized plan compiled.messages
  | _, _ => return compiled

def compileExpression (e : Engine) (expr : Expr) : Resolving Compiled :=
  e.compiler.compileExpression expr

/-- Compiles statements independently of one another, in order. Nothing is compiled once the batch is
cancelled. -/
def compileBatch (e : Engine) (isCancelled : Bool) (statements : List Stmt) :
    Resolving (List Compiled) := do
  if isCancelled ∧ statements ≠ [] then
    throw (.raised (.plain "context canceled"))
  statements.mapM e.compile

end Engine

end Relational
