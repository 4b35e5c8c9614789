import Relational.Compile.Call
import Relational.Compile.Literal
import Relational.Compile.TypeSpec

/-!
# Compiling expressions

Every expression is compiled to a plan with a type. Operators in expressions are calls of operators with
fixed names, and relational expressions are checked against the columns of their sources.
-/

namespace Relational

open Compiling

/-- The operator behind a symbol between two operands, in any case. -/
def binaryOperator? (symbol : String) : Option String :=
  match Text.lower symbol with
  | "+" => some "iAddition"
  | "-" => some "iSubtraction"
  | "*" => some "iMultiplication"
  | "/" => some "iDivision"
  | "=" => some "iEqual"
  | "<>" => some "iNotEqual"
  | "<" => some "iLess"
  | "<=" => some "iInclusiveLess"
  | ">" => some "iGreater"
  | ">=" => some "iInclusiveGreater"
  | "and" => some "iAnd"
  | "or" => some "iOr"
  | _ => none

/-- The operator behind a symbol in front of an operand, in any case. -/
def unaryOperator? (symbol : String) : Option String :=
  match Text.lower symbol with
  | "-" => some "iNegate"
  | "not" => some "iNot"
  | _ => none

def joinOperator : JoinKind → String
  | .inner => "iJoin"
  | .left => "iLeftJoin"
  | .right => "iRightJoin"
  | .other => ""

def valueRequired : Cause :=
  .typeMismatch "a value" "an operator call without a result"

def requireValue (position : Option Position) (p : Plan) : Compiling Plan := do
  if p.type.isNone then
    raise (← locate position) valueRequired
  return p

/-- The heading of the rows of a relational operand; lists of rows are accepted too. -/
def relationHeading (position : Option Position) (p : Plan) : Compiling Heading := do
  match p.type with
  | some (.rows _ columns) => return some columns
  | some (.anyRows _) => return none
  | some (.list (.rows .row columns)) => return some columns
  | some (.list (.anyRows .row)) => return none
  | type => raise (← locate position) (.typeMismatch "a relation" (describeType type))

/-- The columns of a heading with the given names, after those that are done. -/
def selectColumns (position : Position) (heading : Heading) (done : Columns) :
    List String → Compiling Columns
  | [] => return done
  | name :: names =>
    match heading.columns.type? name with
    | none => raise position (.unknownColumn (heading.toTy .row).text name)
    | some type =>
      if done.has name then raise position (.duplicateIdentifier name [name])
      else selectColumns position heading (done ++ [(name, type)]) names

/-- The columns of a heading with some renamed one after the other. -/
def renameColumns (position : Position) (heading : Heading) (columns : Columns) :
    List (String × String) → Compiling Columns
  | [] => return columns
  | (old, new) :: rest =>
    match columns.index? old with
    | none => raise position (.unknownColumn (heading.toTy .row).text old)
    | some index =>
      match columns.index? new with
      | some other =>
        if other ≠ index then raise position (.duplicateIdentifier new [new])
        else renameColumns position heading (columns.modify index fun c => (new, c.2)) rest
      | none => renameColumns position heading (columns.modify index fun c => (new, c.2)) rest

/-- The columns of two sides that a natural join brings together: shared ones once, of types one of which
covers the other. -/
def naturalColumns (position : Position) (left : Columns) : Columns → Compiling Columns
  | [] => return []
  | (name, type) :: rest =>
    match left.type? name with
    | none => return (name, type) :: (← naturalColumns position left rest)
    | some leftType =>
      if leftType.isA type || type.isA leftType then naturalColumns position left rest
      else raise position
        (.typeMismatch leftType.text (type.text ++ " for column " ++ Text.quote name))

/-- No column of the right side of a join may have the name of one of the left side. -/
def disjointColumns (position : Position) (left : Columns) : Columns → Compiling Unit
  | [] => return ()
  | (name, _) :: rest =>
    if left.has name then raise position (.duplicateIdentifier name [name])
    else disjointColumns position left rest

/-- Warns about the branch that a literal condition never takes. -/
def checkReachable (position : Position) (condition : Plan) (hasElse : Bool) : Compiling Unit :=
  match condition.construct with
  | .literal (.boolean false) => warn position (.unreachableBranch "then")
  | .literal (.boolean true) => do
    if hasElse then warn position (.unreachableBranch "else")
  | _ => return ()

/-- The condition of a branch of a case: the compiled expression itself, or that it equals the
selector. -/
def branchCondition (e : Environment) (position : Option Position) (selector : Option Plan)
    (p : Plan) : Compiling Plan := do
  match selector with
  | none => asCondition e position p
  | some selector =>
    let call ← compileCall e (← locate position) "iEqual" [selector, p]
    asCondition e position call

def conditionalPlan (e : Environment) (position : Position) (condition thenBranch elseBranch : Plan) :
    Compiling Plan := do
  match ← unify e (some position) thenBranch.type elseBranch.type with
  | none => raise position valueRequired
  | some type =>
    let thenBranch ← convert e (some position) thenBranch type
    let elseBranch ← convert e (some position) elseBranch type
    return .make .conditional (some type) position [condition, thenBranch, elseBranch]

/-- A case expression. Each branch comes with its condition and its position. -/
def casePlan (e : Environment) (position : Position) (type : Option Ty)
    (branches : List (Plan × Option Position × Plan)) (last : Option (Option Position × Plan)) :
    Compiling Plan := do
  match type with
  | none => raise position (.missingType "case expression")
  | some type =>
    let values ← convertAll e type (branches.map Prod.snd)
    let last ← convertAll e type last.toList
    return .make .case (some type) position
      (caseChildren ((branches.map Prod.fst).zip values) last.head?)

def restrictPlan (e : Environment) (position : Position) (source condition : Plan) :
    Compiling Plan := do
  let (op, operands) ← compileRelational e position "iRestrict" [source, condition]
  return .make (.restrict op) (operands.head?.bind (·.type)) position operands

def projectPlan (e : Environment) (position : Position) (heading : Heading) (source : Plan)
    (names : List String) : Compiling Plan := do
  let columns ← selectColumns position heading [] names
  if columns.length = heading.columns.length then
    warn position (.redundantConstruct "projection over every column")
  let (op, operands) ← compileRelational e position "iProject" [source]
  return .make (.project op columns.names) (some (.rows .table columns)) position operands

/-- A projection on the columns that are not removed. -/
def removePlan (e : Environment) (position : Position) (heading : Heading) (source : Plan)
    (names : List String) : Compiling Plan := do
  let removed ← selectColumns position heading [] names
  let kept : Columns := heading.columns.filter fun column => !removed.has column.1
  if removed.isEmpty then
    warn position (.redundantConstruct "remove without columns")
  let (op, operands) ← compileRelational e position "iRemove" [source]
  return .make (.project op kept.names) (some (.rows .table kept)) position operands

def renamePlan (e : Environment) (position : Position) (heading : Heading) (source : Plan)
    (renames : List (String × String)) : Compiling Plan := do
  let columns ← renameColumns position heading heading.columns renames
  let (op, operands) ← compileRelational e position "iRename" [source]
  return .make (.rename op renames) (some (.rows .table columns)) position operands

def extendPlan (e : Environment) (position : Position) (heading : Heading) (source : Plan)
    (values : List (String × Ty × Plan)) : Compiling Plan := do
  let columns := heading.columns ++ values.map fun (name, type, _) => (name, type)
  let (op, operands) ← compileRelational e position "iExtend" [source]
  return .make (.extend op (values.map Prod.fst)) (some (.rows .table columns)) position
    (operands ++ values.map fun (_, _, value) => value)

def joinPlan (e : Environment) (position : Position) (kind : JoinKind) (columns : Columns)
    (operands : List Plan) : Compiling Plan := do
  let (op, operands) ← compileRelational e position (joinOperator kind) operands
  return .make (.join op kind) (some (.rows .table columns)) position operands

/-- A table of rows; each row comes with its position. -/
def tablePlan (position : Position) (columns : Option Columns) (rows : List Plan) :
    Compiling Plan :=
  match columns with
  | none => raise position (.missingType "table selector")
  | some columns => return .make .tableSelector (some (.rows .table columns)) position rows

/-- A list of elements; each element comes with its position. -/
def listPlan (e : Environment) (position : Position) (type : Option Ty)
    (elements : List (Option Position × Plan)) : Compiling Plan := do
  match type.filter fun type => !type.isNil with
  | none => raise position (.missingType "list selector")
  | some type =>
    return .make .listSelector (some (.list type)) position (← convertAll e type elements)

/-- The columns of a table specifier, if there is one. -/
def tableColumns? (e : Environment) (spec : TypeSpec) : Compiling (Option Columns) := do
  match spec with
  | .missing => return none
  | spec =>
    match ← compileType e spec with
    | .rows .table columns => return some columns
    | _ => throw .absent

/-- The element type of a list specifier, if there is one. -/
def elementType? (e : Environment) (spec : TypeSpec) : Compiling (Option Ty) := do
  match spec with
  | .missing => return none
  | spec =>
    match ← compileType e spec with
    | .list element => return some element
    | _ => throw .absent

def endsWithCall (parts : List Expr) : Bool :=
  match parts.getLast? with
  | some (.call ..) => true
  | _ => false

def startsWithName (parts : List Expr) : Bool :=
  match parts.head? with
  | some (.identifier ..) => true
  | _ => false

mutual

def compileExpr (e : Environment) : Expr → Compiling Plan
  | .missing => raise .none (.internal "missing expression")
  | .literal p value typeName => compileLiteral e p value typeName
  | .nil p => return nilLiteral p
  | .identifier p name => compileName e p name
  | .chain p parts => do
    if endsWithCall parts then
      compileChainCall e (← chainNames p parts.dropLast) parts
    else if startsWithName parts then
      compileNames e p [] (← chainNames p parts)
    else
      let first ← compileFirst e parts
      extractColumns p first (← chainNames p parts.tail)
  | .call p name arguments => do
    compileCall e p name (← compileArguments e arguments)
  | .binary p operator left right => do
    match binaryOperator? operator with
    | none => raise p (.unknownOperator operator "")
    | some name =>
      let left ← requireValue left.position? (← compileExpr e left)
      let right ← requireValue right.position? (← compileExpr e right)
      compileCall e p name [left, right]
  | .unary p operator operand => do
    match unaryOperator? operator with
    | none => raise p (.unknownOperator operator "")
    | some name =>
      compileCall e p name [← requireValue operand.position? (← compileExpr e operand)]
  | .conditional p condition thenBranch elseBranch => do
    let condition ← asCondition e condition.position? (← compileExpr e condition)
    checkReachable p condition true
    let thenBranch ← inScope [] (compileExpr e thenBranch)
    let elseBranch ←
      if elseBranch.isMissing then pure (nilLiteral p) else inScope [] (compileExpr e elseBranch)
    conditionalPlan e p condition thenBranch elseBranch
  | .case p selector items elseBranch => do
    let selector ← if selector.isMissing then pure none else some <$> compileExpr e selector
    let (branches, type) ← compileItems e selector none items
    if elseBranch.isMissing then
      casePlan e p type branches none
    else
      let last ← inScope [] (compileExpr e elseBranch)
      let type ← unify e elseBranch.position? type last.type
      casePlan e p type branches (some (elseBranch.position?, last))
  | .row p columns spec => do
    let values ← compileColumns e p [] [] columns
    let type : Ty := .rows .row (values.map fun (name, type, _) => (name, type))
    let row := Plan.make (.rowSelector (values.map Prod.fst)) (some type) p
      (values.map fun (_, _, value) => value)
    match spec with
    | .missing => return row
    | spec => convert e (some p) row (← compileType e spec)
  | .table p rows spec => do
    let (columns, rows) ← compileRows e (← tableColumns? e spec) rows
    tablePlan p columns rows
  | .list p elements spec => do
    let type ← elementType? e spec
    let (inferred, elements) ← compileElements e type.isNone type elements
    listPlan e p inferred elements
  | .restrict p source condition => do
    let plan ← compileExpr e source
    let heading ← relationHeading source.position? plan
    let condition ← inScope [Symbol.ofRow heading] do
      asCondition e condition.position? (← compileExpr e condition)
    restrictPlan e p plan condition
  | .project p source names => do
    let plan ← compileExpr e source
    projectPlan e p (← relationHeading source.position? plan) plan names
  | .remove p source names => do
    let plan ← compileExpr e source
    removePlan e p (← relationHeading source.position? plan) plan names
  | .rename p source renames => do
    let plan ← compileExpr e source
    renamePlan e p (← relationHeading source.position? plan) plan renames
  | .extend p source columns => do
    let plan ← compileExpr e source
    let heading ← relationHeading source.position? plan
    let values ← compileColumns e p [Symbol.ofRow heading] heading.columns columns
    extendPlan e p heading plan values
  | .join p kind left right condition => do
    let leftPlan ← compileExpr e left
    let rightPlan ← compileExpr e right
    let leftHeading ← relationHeading left.position? leftPlan
    let rightHeading ← relationHeading right.position? rightPlan
    if condition.isMissing then
      let added ← naturalColumns p leftHeading.columns rightHeading.columns
      joinPlan e p kind (leftHeading.columns ++ added) [leftPlan, rightPlan]
    else
      disjointColumns p leftHeading.columns rightHeading.columns
      let condition ← inScope [Symbol.ofRow leftHeading, Symbol.ofRow rightHeading] do
        asCondition e condition.position? (← compileExpr e condition)
      joinPlan e p kind (leftHeading.columns ++ rightHeading.columns)
        [leftPlan, rightPlan, condition]
  | .other p => raise p (.internal "unknown expression *main.otherExpression")

def compileArguments (e : Environment) : List Expr → Compiling (List Plan)
  | [] => return []
  | argument :: arguments => do
    let first ← requireValue argument.position? (← compileExpr e argument)
    return first :: (← compileArguments e arguments)

/-- The call at the end of a chain, with the names before it in front of its name. -/
def compileChainCall (e : Environment) (names : List String) : List Expr → Compiling Plan
  | [] => throw .absent
  | [.call p name arguments] => do
    compileCall e p (".".intercalate (names ++ [name])) (← compileArguments e arguments)
  | _ :: rest => compileChainCall e names rest

def compileFirst (e : Environment) : List Expr → Compiling Plan
  | [] => throw .absent
  | first :: _ => compileExpr e first

/-- The branches of a case with their positions, and the type that their values share. -/
def compileItems (e : Environment) (selector : Option Plan) (type : Option Ty) :
    List (Expr × Expr) → Compiling (List (Plan × Option Position × Plan) × Option Ty)
  | [] => return ([], type)
  | (condition, value) :: items => do
    let condition ←
      branchCondition e condition.position? selector (← compileExpr e condition)
    let plan ← inScope [] (compileExpr e value)
    let type ← unify e value.position? type plan.type
    let (branches, type) ← compileItems e selector type items
    return ((condition, value.position?, plan) :: branches, type)

/-- Named values with their types, each compiled with some symbols in scope. No two columns may have one
name, those that are done included. -/
def compileColumns (e : Environment) (p : Position) (symbols : List Symbol) (done : Columns) :
    List (String × Expr) → Compiling (List (String × Ty × Plan))
  | [] => return []
  | (name, value) :: rest => do
    if done.has name then
      raise p (.duplicateIdentifier name [name])
    let plan ← inScope symbols (compileExpr e value)
    match plan.type with
    | none => raise (← locate value.position?) valueRequired
    | some type =>
      return (name, type, plan) ::
        (← compileColumns e p symbols (done ++ [(name, type)]) rest)

/-- The rows of a table, converted to its columns, which are those of the first row unless given. -/
def compileRows (e : Environment) (columns : Option Columns) :
    List Expr → Compiling (Option Columns × List Plan)
  | [] => return (columns, [])
  | row :: rows => do
    let plan ← compileExpr e row
    match plan.type.filter Ty.isRow with
    | none => raise (← locate row.position?) (.typeMismatch "a row" (describeType plan.type))
    | some type =>
      let chosen := columns.getD type.rowColumns
      let first ← convert e row.position? plan (.rows .row chosen)
      let (columns, rest) ← compileRows e (some chosen) rows
      return (columns, first :: rest)

/-- The elements of a list with their positions, and the type that they share if it is inferred. -/
def compileElements (e : Environment) (isInferred : Bool) (type : Option Ty) :
    List Expr → Compiling (Option Ty × List (Option Position × Plan))
  | [] => return (type, [])
  | element :: elements => do
    let plan ← compileExpr e element
    let type ← if isInferred then unify e element.position? type plan.type else pure type
    let (type, rest) ← compileElements e isInferred type elements
    return (type, (element.position?, plan) :: rest)

end

end Relational
