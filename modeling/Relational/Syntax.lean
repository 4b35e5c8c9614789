import Relational.Position
import Relational.Value

/-!
# Syntax trees

Expressions, statements and type specifiers of the language, each with its position. A place where
something is required but absent holds `missing`.

A dotted chain of parts is one expression with the parts in a list, however the dots were grouped.
-/

namespace Relational

/-- The kinds of joins. The kind `other` is not one the compiler knows. -/
inductive JoinKind where
  | inner | left | right | other
deriving Repr, DecidableEq

def JoinKind.text : JoinKind → String
  | left => "left"
  | right => "right"
  | inner | other => "inner"

def JoinKind.ofCode (code : Nat) : JoinKind :=
  match code with
  | 0 => inner
  | 1 => left
  | 2 => right
  | _ => other

/-- A type as it is written. -/
inductive TypeSpec where
  | missing
  | named (position : Position) (name : String)
  | rows (form : Form) (position : Position) (columns : List (String × TypeSpec))
  | list (position : Position) (element : TypeSpec)
  | generic (position : Position) (kind : String)
  | other (position : Position)

/-- An expression. -/
inductive Expr where
  | missing
  | literal (position : Position) (value : Value) (typeName : String)
  | nil (position : Position)
  | identifier (position : Position) (name : String)
  | chain (position : Position) (parts : List Expr)
  | call (position : Position) (name : String) (arguments : List Expr)
  | binary (position : Position) (operator : String) (left right : Expr)
  | unary (position : Position) (operator : String) (operand : Expr)
  | conditional (position : Position) (condition thenBranch elseBranch : Expr)
  | case (position : Position) (selector : Expr) (items : List (Expr × Expr)) (elseBranch : Expr)
  | row (position : Position) (columns : List (String × Expr)) (type : TypeSpec)
  | table (position : Position) (rows : List Expr) (type : TypeSpec)
  | list (position : Position) (elements : List Expr) (type : TypeSpec)
  | restrict (position : Position) (source condition : Expr)
  | project (position : Position) (source : Expr) (columns : List String)
  | remove (position : Position) (source : Expr) (columns : List String)
  | rename (position : Position) (source : Expr) (columns : List (String × String))
  | extend (position : Position) (source : Expr) (columns : List (String × Expr))
  | join (position : Position) (kind : JoinKind) (left right condition : Expr)
  | other (position : Position)

namespace Expr

instance : Inhabited Expr := ⟨missing⟩

def isMissing : Expr → Bool
  | missing => true
  | _ => false

def position? : Expr → Option Position
  | missing => none
  | literal p _ _ | nil p | identifier p _ | chain p _ | call p _ _ | binary p _ _ _ | unary p _ _
  | conditional p _ _ _ | case p _ _ _ | row p _ _ | table p _ _ | list p _ _ | restrict p _ _
  | project p _ _ | remove p _ _ | rename p _ _ | extend p _ _ | join p _ _ _ _ | other p => some p

def parts : Expr → List Expr
  | chain _ ps => ps
  | e => [e]

def qualify (position : Position) (left right : Expr) : Expr :=
  chain position (left.parts ++ right.parts)

/-- The name of the kind of an expression in messages. -/
def kindName : Expr → String
  | missing => "<nil>"
  | literal .. => "*ast.ValueLiteral"
  | nil .. => "*ast.NilLiteral"
  | identifier .. => "*ast.IdentifierExpression"
  | chain .. => "*ast.QualifierExpression"
  | call .. => "*ast.CallExpression"
  | binary .. => "*ast.BinaryExpression"
  | unary .. => "*ast.UnaryExpression"
  | conditional .. => "*ast.IfExpression"
  | case .. => "*ast.CaseExpression"
  | row .. => "*ast.RowSelector"
  | table .. => "*ast.TableSelector"
  | list .. => "*ast.ListSelector"
  | restrict .. => "*ast.RestrictExpression"
  | project .. => "*ast.ProjectExpression"
  | remove .. => "*ast.RemoveExpression"
  | rename .. => "*ast.RenameExpression"
  | extend .. => "*ast.ExtendExpression"
  | join .. => "*ast.JoinExpression"
  | other .. => "*main.otherExpression"

end Expr

/-- A statement. -/
inductive Stmt where
  | missing
  | block (position : Position) (statements : List Stmt)
  | declaration (position : Position) (name : String) (type : TypeSpec) (default : Expr)
      (isConstant : Bool)
  | assignment (position : Position) (name : String) (value : Expr)
  | conditional (position : Position) (condition : Expr) (thenBranch elseBranch : Stmt)
  | case (position : Position) (selector : Expr) (items : List (Expr × Stmt)) (elseBranch : Stmt)
  | while (position : Position) (condition : Expr) (body : Stmt)
  | forEach (position : Position) (name : String) (source : Expr) (body : Stmt)
  | break (position : Position)
  | continue (position : Position)
  | try (position : Position) (body : Stmt) (name : String) (handler : Stmt)
  | raise (position : Position) (error : Expr)
  | expression (position : Position) (value : Expr)
  | other (position : Position)

namespace Stmt

instance : Inhabited Stmt := ⟨missing⟩

def isMissing : Stmt → Bool
  | missing => true
  | _ => false

def position? : Stmt → Option Position
  | missing => none
  | block p _ | declaration p _ _ _ _ | assignment p _ _ | conditional p _ _ _ | case p _ _ _
  | .while p _ _ | forEach p _ _ _ | .break p | .continue p | .try p _ _ _ | raise p _
  | expression p _ | other p => some p

end Stmt

/-- A parameter of a declared operator. -/
structure ParameterDeclaration where
  name : String
  type : TypeSpec
  isVar : Bool

/-- A declared operator with its body. -/
structure OperatorDeclaration where
  position : Position
  name : String
  parameters : List ParameterDeclaration
  returnType : TypeSpec
  body : Stmt

end Relational
