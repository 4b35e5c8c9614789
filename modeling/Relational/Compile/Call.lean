import Relational.Compile.Conversion

/-!
# Compiling names and calls
-/

namespace Relational

open Compiling

def namePlan (position : Position) (name : String) : ResolvedName → Compiling Plan
  | .symbol location symbol shadowed => do
    unless shadowed.isEmpty do
      warn position (.shadowedIdentifier name shadowed)
    match location.column with
    | none =>
      return .make (.stackReference location.name location.index) symbol.type position []
    | some column =>
      match symbol.columns[column]? with
      | some (name, type) =>
        return .make (.stackColumnReference name location.index column) (some type) position []
      | none => throw .absent
  | .object (.tableVar tv) => return .make (.tableVarReference tv) (some tv.type) position []
  | .object object => raise position (.typeMismatch "a value" object.kind.text)

def compileName (e : Environment) (position : Position) (name : String) : Compiling Plan := do
  match ← lookUp e .all position name with
  | some found => namePlan position name found
  | none =>
    let b ← get
    raise position (.unknownIdentifier name
      (suggestName b.workspace.catalog (some b.stack) name))

def extractColumns (position : Position) : Plan → List String → Compiling Plan
  | p, [] => return p
  | p, column :: columns =>
    match p.type with
    | some type =>
      if type.isRow then
        match type.rowColumns.index? column, type.rowColumns.type? column with
        | some index, some columnType =>
          extractColumns position
            (.make (.columnExtractor column index) (some columnType) position [p]) columns
        | _, _ => raise position (.unknownColumn type.text column)
      else raise position (.typeMismatch "a row" type.text)
    | none => raise position (.typeMismatch "a row" (describeType none))

/-- The names between the dots of a chain, which must all be identifiers. -/
def chainNames (position : Position) : List Expr → Compiling (List String)
  | [] => return []
  | .identifier _ name :: rest => return name :: (← chainNames position rest)
  | part :: _ => raise position (.unresolvedQualifier part.kindName)

/-- The plan for dotted names: the shortest beginning that designates something, and columns of it. -/
def compileNames (e : Environment) (position : Position) (before : List String) :
    List String → Compiling Plan
  | [] => raise position (.unresolvedQualifier (".".intercalate before))
  | next :: rest => do
    let names := before ++ [next]
    let name := ".".intercalate names
    match ← lookUp e .all position name with
    | none => compileNames e position names rest
    | some found => extractColumns position (← namePlan position name found) rest

/-- An argument passed by reference must be a variable that is not constant, which then counts as
modified. -/
def checkReference (position : Position) (argument : Plan) : Compiling Unit := do
  match argument.construct with
  | .stackReference name index =>
    match (← get).stack.peek index with
    | none => throw .absent
    | some symbol =>
      if symbol.isConstant then raise position (.constantAssignment name)
      else markModified index
  | _ =>
    raise position (.invalidContext "passing an expression to a var parameter" "in an operator call")

def bindArgument (position : Position) (parameter : Option Parameter) (fit : Option ArgumentMatch)
    (argument : Plan) : Compiling Plan := do
  if parameter.any (·.modifier == .var) then
    checkReference position argument
  match fit.bind (·.conversion) with
  | some context => applyConversion position argument context
  | none => return argument

/-- The arguments from an index on as an overload takes them. -/
def bindArguments (position : Position) (found : OverloadMatch) :
    Nat → List Plan → Compiling (List Plan)
  | _, [] => return []
  | index, argument :: arguments => do
    let first ← bindArgument position found.operator.signature[index]? found.arguments[index]?
      argument
    return first :: (← bindArguments position found (index + 1) arguments)

/-- The arguments of a call as its overload takes them. -/
def bindCall (position : Position) (found : OverloadMatch) (arguments : List Plan) :
    Compiling (List Plan) := do
  if found.operator.isDeprecated then
    warn position (.deprecatedOperator found.operator.text)
  bindArguments position found 0 arguments

def compileCall (e : Environment) (position : Position) (name : String) (arguments : List Plan) :
    Compiling Plan := do
  let found ← at_ position (overloadFor e name arguments)
  let bound ← bindCall position found arguments
  return .make (.call found.operator) found.operator.returnType position bound

/-- A row, or a list of rows that is written out, as a table. -/
def asTable? (position : Position) (p : Plan) : Option Plan :=
  match p.type, p.construct with
  | some (.rows .row columns), _ =>
    some (.make .tableSelector (some (.rows .table columns)) position [p])
  | some (.list element), .listSelector =>
    if element.isRow then
      some (.make .tableSelector (some (.rows .table element.rowColumns)) position p.children)
    else none
  | _, _ => none

/-- Plans with rows and lists of rows as tables, if there are any. -/
def asTables? (position : Position) (plans : List Plan) : Option (List Plan) :=
  if plans.any fun p => (asTable? position p).isSome then
    some (plans.map fun p => (asTable? position p).getD p)
  else none

/-- Whether a failed call is tried again with tables: no overload takes the arguments as they are. -/
def isMismatch : Abort → Bool
  | .raised failure => failure.isKind .noOperatorMatch
  | .fault _ => false

/-- Whether the compilation or the construct ends whatever was tried. -/
def isFinal : Abort → Bool
  | .raised failure => failure.isFatal
  | .fault _ => true

/-- The overload for a relational operator and the operands it takes: the given ones, else the same with
rows and lists of rows as tables. -/
def overloadForTables (e : Environment) (position : Position) (name : String) (operands : List Plan) :
    Compiling (OverloadMatch × List Plan) := fun b =>
  match overloadFor e name operands b with
  | (.ok found, b) => (.ok (found, operands), b)
  | (.error abort, b) =>
    match isMismatch abort, asTables? position operands with
    | true, some tables =>
      match overloadFor e name tables b with
      | (.ok found, b) => (.ok (found, tables), b)
      | (.error second, b) => (.error (if isFinal second then second else abort), b)
    | _, _ => (.error abort, b)

/-- The operator and the operands of a relational construct. -/
def compileRelational (e : Environment) (position : Position) (name : String)
    (operands : List Plan) : Compiling (Operator × List Plan) := do
  let (found, operands) ← at_ position (overloadForTables e position name operands)
  return (found.operator, ← bindCall position found operands)

end Relational
