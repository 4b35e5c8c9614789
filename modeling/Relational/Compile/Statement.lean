import Relational.Compile.Expression

/-!
# Compiling statements

Each statement of a block is compiled on its own: one that fails is replaced by nothing, and its failure
is recorded. Variables stay in scope until the end of their block.
-/

namespace Relational

open Compiling

/-- The type and the value of a variable. A value is converted to the type that is specified, if one is. -/
def typedValue (e : Environment) (type : Option Ty) :
    Option (Option Position × Plan) → Compiling (Option Ty × Option Plan)
  | none => pure (type, none)
  | some (position, value) =>
    type.elim (pure (value.type, some value)) fun type => do
      return (some type, some (← convert e position value type))

/-- The variable of a type and a value, which it needs if it is constant. -/
def declareAs (p : Position) (name : String) (isConstant : Bool) (type : Option Ty)
    (value : Option Plan) : Compiling Plan :=
  match type.filter fun type => !type.isNil with
  | none => fatal p (.missingType name)
  | some type => do
    if isConstant && value.isNone then
      raise p (.invalidContext ("constant " ++ Text.quote name ++ " without a value")
        "in a declaration")
    push { name, type := some type, isConstant }
    return .make (.variable_ name (some type) isConstant) none p value.toList

/-- The declaration of a variable, whose default value is compiled already. -/
def declare (e : Environment) (p : Position) (name : String) (type : Option Ty)
    (default : Option (Option Position × Plan)) (isConstant : Bool) : Compiling Plan := do
  let typed ← typedValue e type default
  declareAs p name isConstant typed.1 typed.2

def assignmentTarget (e : Environment) (p : Position) (name : String) :
    Compiling (Location × Option Ty) := do
  match ← lookUp e .symbols p name with
  | some (.symbol location symbol _) =>
    if location.isColumn then
      raise p (.invalidContext ("assignment to column " ++ Text.quote name) "outside of an update")
    else if symbol.isConstant then raise p (.constantAssignment name)
    else return (location, symbol.type)
  | _ =>
    let b ← get
    raise p (.unknownIdentifier name (suggestName b.workspace.catalog (some b.stack) name))

/-- The type of what a loop runs over: the elements of a list, the rows of a table or a cursor. -/
def elementType (position : Option Position) (source : Plan) : Compiling Ty := do
  match source.type with
  | some (.list element) => return element
  | some .anyList => raise (← locate position) (.missingType "list element")
  | some (.rows .table columns) | some (.rows .cursor columns) => return .rows .row columns
  | some (.anyRows .table) | some (.anyRows .cursor) => return .anyRows .row
  | type =>
    raise (← locate position) (.typeMismatch "a list, table or cursor" (describeType type))

/-- The variable of a loop must be new; a loop without one runs over rows. -/
def checkLoopVariable (p : Position) (name : String) (type : Ty) : Compiling Unit := do
  if name = "" then
    unless type.isRow do
      raise p (.typeMismatch "rows" type.text)
  else
    let collisions := (← get).stack.collisions name
    unless collisions.isEmpty do
      raise p (.duplicateIdentifier name collisions)

def errorType (p : Position) (name : String) : Compiling (Option Ty) := do
  if name = "" then return none else return some (← systemType p "Error")

mutual

def compileStmt (e : Environment) : Stmt → Compiling Plan
  | .missing => throw .absent
  | .block p statements => inScope [] do
    return .make .block none p (← compileBlock e statements)
  | .declaration p name spec default isConstant => do
    let collisions := (← get).stack.collisions name
    unless collisions.isEmpty do
      raise p (.duplicateIdentifier name collisions)
    let type ← match spec with
      | .missing => pure none
      | spec => some <$> compileType e spec
    if default.isMissing then
      declare e p name type none isConstant
    else
      let value ← inWindow (compileExpr e default)
      declare e p name type (some (default.position?, value)) isConstant
  | .assignment p name value => do
    let (location, type) ← assignmentTarget e p name
    let plan ← compileExpr e value
    match type with
    | none => throw .absent
    | some type =>
      let plan ← convert e value.position? plan type
      markModified location.index
      return .make (.assignment location) none p [plan]
  | .conditional p condition thenBranch elseBranch => do
    let condition ← asCondition e condition.position? (← compileExpr e condition)
    checkReachable p condition !elseBranch.isMissing
    let first ← inScope [] (compileStmt e thenBranch)
    if elseBranch.isMissing then
      return .make .conditional none p [condition, first]
    else
      let second ← inScope [] (compileStmt e elseBranch)
      return .make .conditional none p [condition, first, second]
  | .case p selector items elseBranch => do
    let selector ← if selector.isMissing then pure none else some <$> compileExpr e selector
    let branches ← compileBranches e selector items
    if elseBranch.isMissing then
      return .make .case none p (caseChildren branches none)
    else
      let last ← inScope [] (compileStmt e elseBranch)
      return .make .case none p (caseChildren branches (some last))
  | .while p condition body => do
    let condition ← asCondition e condition.position? (← compileExpr e condition)
    let body ← within .loop (inScope [] (compileStmt e body))
    return .make .whileLoop none p [condition, body]
  | .forEach p name source body => do
    let plan ← compileExpr e source
    let type ← elementType source.position? plan
    checkLoopVariable p name type
    let body ← inScope [{ name, type := some type }] (within .loop (compileStmt e body))
    return .make (.forEach name (some type)) none p [plan, body]
  | .break p => do
    if (← get).nesting.loops = 0 then
      raise p (.invalidContext "break" "outside of a loop")
    return .make .breakLoop none p []
  | .continue p => do
    if (← get).nesting.loops = 0 then
      raise p (.invalidContext "continue" "outside of a loop")
    return .make .continueLoop none p []
  | .try p body name handler => do
    let body ← inScope [] (compileStmt e body)
    let type ← errorType p name
    if handler.isMissing then
      return .make (.tryHandler name type) none p [body]
    else
      let symbols : List Symbol := if name = "" then [] else [{ name, type }]
      let handler ← inScope symbols (within .handler (compileStmt e handler))
      return .make (.tryHandler name type) none p [body, handler]
  | .raise p error => do
    if error.isMissing then
      if (← get).nesting.handlers = 0 then
        raise p (.invalidContext "raise without an error" "outside of an error handler")
      return .make .raise none p []
    else
      let plan ← compileExpr e error
      let plan ← convert e error.position? plan (← systemType p "Error")
      return .make .raise none p [plan]
  | .expression _ value => compileExpr e value
  | .other p => raise p (.internal "unknown statement *main.otherStatement")

/-- The plans of the statements of a block, each on its own. -/
def compileBlock (e : Environment) : List Stmt → Compiling (List Plan)
  | [] => return []
  | statement :: statements => do
    let first ← safely statement.position? (compileStmt e statement)
    return first :: (← compileBlock e statements)

def compileBranches (e : Environment) (selector : Option Plan) :
    List (Expr × Stmt) → Compiling (List (Plan × Plan))
  | [] => return []
  | (condition, statement) :: rest => do
    let condition ←
      branchCondition e condition.position? selector (← compileExpr e condition)
    let branch ← inScope [] (compileStmt e statement)
    return (condition, branch) :: (← compileBranches e selector rest)

end

end Relational
