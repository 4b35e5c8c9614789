import Relational.Catalog.Basic

/-!
# The system library

The catalog of the system library holds the built-in scalar types, the conversions between numbers, the
operators behind arithmetic, comparison, logic and relational expressions, a few functions, and a device
that evaluates everything.
-/

namespace Relational.SystemLibrary

def libraryName : String := "System"

def deviceName : String := "Memory"

def qualified (name : String) : String :=
  Name.qualified libraryName name

def boolean : ScalarType := { serial := 2, name := qualified "Boolean", native := .boolean }

def integer : ScalarType := { serial := 3, name := qualified "Integer", native := .integer }

def long : ScalarType := { serial := 4, name := qualified "Long", native := .integer }

def decimal : ScalarType := { serial := 5, name := qualified "Decimal", native := .decimal }

def string : ScalarType := { serial := 6, name := qualified "String", native := .string }

def error : ScalarType := { serial := 7, name := qualified "Error" }

def types : List ScalarType :=
  [boolean, integer, long, decimal, string, error]

/-- The first serial number free for other scalar types. -/
def nextTypeSerial : Nat := 8

/-- The built-in conversions with the names of their operators; those that may lose information are
marked. -/
def conversions : List (ScalarType × ScalarType × String × Bool) :=
  [(integer, long, "ToLong", false), (integer, decimal, "ToDecimal", false),
    (long, decimal, "ToDecimal", false), (decimal, long, "ToLong", true),
    (long, integer, "ToInteger", true)]

/-- The description of an operator: its name, the type of its result, the types of its parameters. -/
abbrev Description := String × Ty × List Ty

/-- Numbers are added, subtracted, multiplied and negated; texts are added; decimal numbers are
divided. -/
def arithmetic : List Description :=
  let numeric := [integer, long, decimal].flatMap fun t =>
    let t := Ty.scalar t
    [("iAddition", t, [t, t]), ("iSubtraction", t, [t, t]), ("iMultiplication", t, [t, t]),
      ("iNegate", t, [t])]
  numeric ++ [("iAddition", .scalar string, [.scalar string, .scalar string]),
    ("iDivision", .scalar decimal, [.scalar decimal, .scalar decimal])]

/-- Numbers and texts are compared by size, truth values for equality only. -/
def comparison : List Description :=
  let names := ["iEqual", "iNotEqual", "iLess", "iInclusiveLess", "iGreater", "iInclusiveGreater"]
  let sized := [integer, long, decimal, string].flatMap fun t =>
    names.map fun name => (name, Ty.scalar boolean, [Ty.scalar t, Ty.scalar t])
  sized ++ ["iEqual", "iNotEqual"].map fun name =>
    (name, Ty.scalar boolean, [Ty.scalar boolean, Ty.scalar boolean])

def logic : List Description :=
  let b := Ty.scalar boolean
  [("iAnd", b, [b, b]), ("iOr", b, [b, b]), ("iNot", b, [b])]

/-- The relational operators, over tables of any columns. -/
def relational : List Description :=
  let b := Ty.scalar boolean
  let t := Ty.anyRows .table
  [("iRestrict", t, [t, b]), ("iProject", t, [t]), ("iRemove", t, [t]), ("iRename", t, [t]),
    ("iExtend", t, [t])] ++
  ["iJoin", "iLeftJoin", "iRightJoin"].flatMap fun name =>
    [(name, t, [t, t]), (name, t, [t, t, b])]

def functions : List Description :=
  [("Length", .scalar integer, [.scalar string]), ("Count", .scalar long, [.anyRows .table]),
    ("Error", .scalar error, [.scalar string]),
    ("Round", .scalar decimal, [.scalar decimal, .scalar integer]), ("Random", .scalar decimal, [])]

/-- The operator of a description. The number of places to round to may be left out, and random
numbers differ from call to call. -/
def toOperator (serial : Nat) : Description → Operator
  | (name, result, parameters) =>
    let op : Operator :=
      { serial, name := qualified name, signature := .ofTypes parameters, returnType := some result }
    if name = "Round" then
      { op with signature := op.signature.modify 1 fun p => { p with isOptional := true } }
    else if name = "Random" then
      { op with characteristics := { isDeterministic := false, isRepeatable := false } }
    else op

/-- The operators of the system library apart from those of its conversions. -/
def operators : List Description :=
  arithmetic ++ comparison ++ logic ++ relational ++ functions

/-- The conversions as declared, their operators numbered from zero. -/
def declaredConversions : List Conversion :=
  conversions.zipIdx.map fun ((source, target, name, isNarrowing), serial) =>
    { source, target, isNarrowing
      operator := some (toOperator serial (name, .scalar target, [.scalar source])) }

/-- The operators as declared, numbered after those of the conversions. -/
def declaredOperators : List Operator :=
  operators.zipIdx.map fun (description, index) =>
    toOperator (conversions.length + index) description

/-- The first serial number that no operator of the system library has. -/
def nextSerial : Nat :=
  conversions.length + operators.length

def catalog : Catalog :=
  let c : Catalog := {}
  let c := types.foldl (fun c t => (c.addScalarType t).catalog) c
  let c := declaredConversions.foldl (fun c conversion => (c.addConversion conversion).catalog) c
  let c := declaredOperators.foldl (fun c op => (c.addOperator op).catalog) c
  c.addDevice { name := deviceName, operators := [Device.allOperators] }

end Relational.SystemLibrary
