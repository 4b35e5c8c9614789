import Relational.Conversion.Context
import Relational.Stack.Lookup
import Relational.TableVar

/-!
# Constructs

What the nodes of plans stand for. Each construct has a field for every child of its nodes; some of these
may be missing or hold any number of children.
-/

namespace Relational

/-- The kinds of plan nodes. -/
inductive PlanKind where
  | noOp | block | variable_ | assignment | conditional | case | whileLoop | forEach | breakLoop
  | continueLoop | tryHandler | raise | literal | stackReference | stackColumnReference
  | columnExtractor | tableVarReference | call | convert | structuralConvert | rowSelector
  | tableSelector | listSelector | restrict | project | rename | extend | join
deriving Repr, DecidableEq

namespace PlanKind

/-- The names of the kinds in their order. -/
def texts : List String :=
  ["NoOp", "Block", "Variable", "Assignment", "If", "Case", "While", "ForEach", "Break", "Continue", "Try",
    "Raise", "Literal", "StackReference", "StackColumnReference", "ColumnExtractor", "TableVarReference",
    "Call", "Convert", "StructuralConvert", "RowSelector", "TableSelector", "ListSelector", "Restrict",
    "Project", "Rename", "Extend", "Join"]

/-- The name of the kind with a number, or the number where there is none. -/
def textOfCode (code : Nat) : String :=
  texts.getD code ("Kind(" ++ toString code ++ ")")

def text (kind : PlanKind) : String :=
  textOfCode kind.ctorIdx

/-- Whether nodes of the kind have any number of children. -/
def isVariadic : PlanKind → Bool
  | block | tableSelector | listSelector => true
  | _ => false

end PlanKind

/-- The construct that a node stands for, without the node's children. -/
inductive Construct where
  /-- Nothing to evaluate, also in place of a statement that cannot be compiled. -/
  | noOp
  /-- Statements in order; the variables of each are visible to those after it. -/
  | block
  /-- The declaration of a variable, with a default value or without one. -/
  | variable_ (name : String) (type : Option Ty) (isConstant : Bool)
  /-- Storing a value in a variable. -/
  | assignment (target : Location)
  /-- Condition and first branch, with or without a second branch. -/
  | conditional
  /-- Conditions, each followed by its branch, with or without a last branch. -/
  | case
  /-- Condition and body of a loop. -/
  | whileLoop
  /-- Source and body of a loop over elements or rows. -/
  | forEach (name : String) (type : Option Ty)
  /-- Leaving the innermost loop. -/
  | breakLoop
  /-- Going on with the innermost loop. -/
  | continueLoop
  /-- A body, with or without a handler, to which the error is visible if it is named. -/
  | tryHandler (name : String) (errorType : Option Ty)
  /-- Raising an error, or the error being handled when there is no child. -/
  | raise
  /-- A constant. -/
  | literal (value : Value)
  /-- A symbol at a distance from the top of the stack. -/
  | stackReference (name : String) (index : Nat)
  /-- A column of a row symbol at a distance from the top of the stack. -/
  | stackColumnReference (name : String) (index column : Nat)
  /-- A column of a row. -/
  | columnExtractor (column : String) (index : Nat)
  /-- A table variable. -/
  | tableVarReference (tableVar : TableVar)
  /-- An operator applied to arguments. -/
  | call (operator : Operator)
  /-- A conversion between scalar types. -/
  | convert (conversion : Conversion)
  /-- A conversion column by column or element by element. -/
  | structuralConvert (context : ConversionContext)
  /-- A row of values. -/
  | rowSelector (columns : List String)
  /-- A table of rows. -/
  | tableSelector
  /-- A list of elements. -/
  | listSelector
  /-- The rows of a source for which a condition holds. -/
  | restrict (operator : Operator)
  /-- Some columns of a source. -/
  | project (operator : Operator) (columns : List String)
  /-- A source with columns renamed, old names first. -/
  | rename (operator : Operator) (columns : List (String × String))
  /-- A source with computed columns. -/
  | extend (operator : Operator) (names : List String)
  /-- Two sources joined by a condition, or by their shared columns when there is none. -/
  | join (operator : Operator) (kind : JoinKind)

namespace Construct

def kind : Construct → PlanKind
  | noOp => .noOp
  | block => .block
  | variable_ .. => .variable_
  | assignment .. => .assignment
  | conditional => .conditional
  | case => .case
  | whileLoop => .whileLoop
  | forEach .. => .forEach
  | breakLoop => .breakLoop
  | continueLoop => .continueLoop
  | tryHandler .. => .tryHandler
  | raise => .raise
  | literal .. => .literal
  | stackReference .. => .stackReference
  | stackColumnReference .. => .stackColumnReference
  | columnExtractor .. => .columnExtractor
  | tableVarReference .. => .tableVarReference
  | call .. => .call
  | convert .. => .convert
  | structuralConvert .. => .structuralConvert
  | rowSelector .. => .rowSelector
  | tableSelector => .tableSelector
  | listSelector => .listSelector
  | restrict .. => .restrict
  | project .. => .project
  | rename .. => .rename
  | extend .. => .extend
  | join .. => .join

def operator? : Construct → Option Operator
  | call op | restrict op | project op _ | rename op _ | extend op _ | join op _ => some op
  | convert conversion => conversion.operator
  | _ => none

end Construct

/-- Each condition of a case and its branch, and then the last branch. -/
def caseChildren {α : Type} (branches : List (α × α)) (last : Option α) : List α :=
  branches.flatMap (fun (condition, branch) => [condition, branch]) ++ last.toList

/-- The children of a node of a kind, each in its field. -/
inductive Fields (α : Type) : PlanKind → Type where
  | noOp : Fields α .noOp
  | block (statements : List α) : Fields α .block
  | variable_ (default : Option α) : Fields α .variable_
  | assignment (value : α) : Fields α .assignment
  | conditional (condition first : α) (second : Option α) : Fields α .conditional
  | case (branches : List (α × α)) (last : Option α) : Fields α .case
  | whileLoop (condition body : α) : Fields α .whileLoop
  | forEach (source body : α) : Fields α .forEach
  | breakLoop : Fields α .breakLoop
  | continueLoop : Fields α .continueLoop
  | tryHandler (body : α) (handler : Option α) : Fields α .tryHandler
  | raise (error : Option α) : Fields α .raise
  | literal : Fields α .literal
  | stackReference : Fields α .stackReference
  | stackColumnReference : Fields α .stackColumnReference
  | columnExtractor (row : α) : Fields α .columnExtractor
  | tableVarReference : Fields α .tableVarReference
  | call (arguments : List α) : Fields α .call
  | convert (operand : α) : Fields α .convert
  | structuralConvert (operand : α) : Fields α .structuralConvert
  | rowSelector (values : List α) : Fields α .rowSelector
  | tableSelector (rows : List α) : Fields α .tableSelector
  | listSelector (elements : List α) : Fields α .listSelector
  | restrict (source condition : α) : Fields α .restrict
  | project (source : α) : Fields α .project
  | rename (source : α) : Fields α .rename
  | extend (source : α) (values : List α) : Fields α .extend
  | join (left right : α) (condition : Option α) : Fields α .join

namespace Fields

variable {α : Type} {kind : PlanKind}

/-- The conditions and branches that stand in turn, and the last branch if one is left over. -/
def caseFields : List α → List (α × α) × Option α
  | [] => ([], none)
  | [last] => ([], some last)
  | condition :: branch :: rest =>
    let (branches, last) := caseFields rest
    ((condition, branch) :: branches, last)

/-- The children in the order in which they are evaluated. -/
def children : Fields α kind → List α
  | noOp | breakLoop | continueLoop | literal | stackReference | stackColumnReference
  | tableVarReference => []
  | block xs | call xs | rowSelector xs | tableSelector xs | listSelector xs => xs
  | variable_ x | raise x => x.toList
  | assignment x | columnExtractor x | convert x | structuralConvert x | project x | rename x => [x]
  | whileLoop x y | forEach x y | restrict x y => [x, y]
  | tryHandler x y => x :: y.toList
  | conditional x y z | join x y z => x :: y :: z.toList
  | case branches last => caseChildren branches last
  | extend x xs => x :: xs

/-- The fields in which children stand, if nodes of the kind have as many. -/
def of? : (kind : PlanKind) → List α → Option (Fields α kind)
  | .noOp, [] => some noOp
  | .block, xs => some (block xs)
  | .variable_, [] => some (variable_ none)
  | .variable_, [x] => some (variable_ (some x))
  | .assignment, [x] => some (assignment x)
  | .conditional, [x, y] => some (conditional x y none)
  | .conditional, [x, y, z] => some (conditional x y (some z))
  | .case, xs => some (case (caseFields xs).1 (caseFields xs).2)
  | .whileLoop, [x, y] => some (whileLoop x y)
  | .forEach, [x, y] => some (forEach x y)
  | .breakLoop, [] => some breakLoop
  | .continueLoop, [] => some continueLoop
  | .tryHandler, [x] => some (tryHandler x none)
  | .tryHandler, [x, y] => some (tryHandler x (some y))
  | .raise, [] => some (raise none)
  | .raise, [x] => some (raise (some x))
  | .literal, [] => some literal
  | .stackReference, [] => some stackReference
  | .stackColumnReference, [] => some stackColumnReference
  | .columnExtractor, [x] => some (columnExtractor x)
  | .tableVarReference, [] => some tableVarReference
  | .call, xs => some (call xs)
  | .convert, [x] => some (convert x)
  | .structuralConvert, [x] => some (structuralConvert x)
  | .rowSelector, xs => some (rowSelector xs)
  | .tableSelector, xs => some (tableSelector xs)
  | .listSelector, xs => some (listSelector xs)
  | .restrict, [x, y] => some (restrict x y)
  | .project, [x] => some (project x)
  | .rename, [x] => some (rename x)
  | .extend, x :: xs => some (extend x xs)
  | .join, [x, y] => some (join x y none)
  | .join, [x, y, z] => some (join x y (some z))
  | _, _ => none

/-- The fields with other children in them, as many as before unless any number is allowed. -/
def withChildren (fields : Fields α kind) (given : List α) : Except Cause (Fields α kind) :=
  let expected := fields.children.length
  match if kind.isVariadic ∨ given.length = expected then of? kind given else none with
  | some fields => .ok fields
  | none => .error (.invalidChildrenNumber ("*plan." ++ kind.text) given.length expected)

end Fields

end Relational
