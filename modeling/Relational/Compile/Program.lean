import Relational.Compile.Recompile

/-!
# Compiling programs

A statement or an expression is compiled as a whole: failures become messages, and faults that no
statement recovers from are told apart.
-/

namespace Relational

open Compiling

namespace Builder

/-- Compiles a statement in an environment; a failure that ends the compilation leaves nothing to
evaluate. -/
def buildIn (e : Environment) (statement : Stmt) : Compiling Plan := fun b =>
  match inScope [] (safely statement.position? (compileStmt e statement)) b with
  | (.ok plan, b) => (.ok plan, b)
  | (.error (.fault text), b) => (.error (.fault text), b)
  | (.error (.raised failure), b) =>
    (do
      let position ← locate statement.position?
      record position failure
      return Plan.noOp position : Compiling Plan) b

/-- Compiles a statement, deep enough for all objects that may be compiled again. -/
def build (c : Compiler) (statement : Stmt) : Compiling Plan := fun b =>
  buildIn (c.environment (Compiler.nestingBound b)) statement b

/-- Compiles an expression; there is no plan if it fails. -/
def buildExpression (c : Compiler) (expr : Expr) : Compiling (Option Plan) := fun b =>
  compileAlone (c.environment (Compiler.nestingBound b)) expr b

end Builder

/-- What a compilation gives: a plan if there is one, and messages. -/
structure Compiled where
  plan : Option Plan
  messages : Messages

namespace Compiler

def run (c : Compiler) (action : Compiling (Option Plan)) : Resolving Compiled := fun w =>
  match action (.start c.options w) with
  | (.ok plan, b) => (.ok { plan, messages := b.messages }, b.workspace)
  | (.error abort, b) => (.error abort, b.workspace)

def compile (c : Compiler) (statement : Stmt) : Resolving Compiled :=
  c.run (some <$> Builder.build c statement)

def compileExpression (c : Compiler) (expr : Expr) : Resolving Compiled :=
  c.run (Builder.buildExpression c expr)

end Compiler

end Relational
