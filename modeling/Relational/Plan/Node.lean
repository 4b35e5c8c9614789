import Relational.Plan.Construct

/-!
# Plans

A plan is the tree that an expression or a statement is compiled to. Every node stands for one construct
and has a type if it is an expression, static characteristics, the position it was compiled from, and
annotations that the optimizer fills in. What a node evaluates are its children, in the order in which
they are evaluated.
-/

namespace Relational

/-- How a relational node reads its rows. -/
inductive AccessPath where
  | unknown | scan | filter | keyLookup
deriving Repr, DecidableEq

namespace AccessPath

def textOfCode (code : Nat) : String :=
  ["unknown", "scan", "filter", "key lookup"].getD code "unknown"

def text (path : AccessPath) : String :=
  textOfCode path.ctorIdx

end AccessPath

/-- What the optimizer finds out about a node: the devices of the table variables that it reads, the
device chosen to evaluate it and whether that device can, how it reads its rows, whether it joins
copies of a transaction with other table variables, and whether it is the side of such a join that is
looked up. -/
structure Annotations where
  potentialDevices : List String := []
  device : String := ""
  isSupported : Bool := false
  accessPath : AccessPath := .unknown
  isTransactionJoin : Bool := false
  isLookup : Bool := false
deriving Repr, DecidableEq

/-- The name that a source column has after renaming. -/
def renamed (columns : List (String × String)) (old : String) : String :=
  ((columns.find? (·.1 == old)).map Prod.snd).getD old

/-- The name that a result column had before renaming. -/
def unrenamed (columns : List (String × String)) (name : String) : String :=
  ((columns.find? (·.2 == name)).map Prod.fst).getD name

/-- A plan: a construct with its type, if it is an expression, and its children. -/
structure Plan where
  construct : Construct
  type : Option Ty := none
  characteristics : Characteristics := {}
  position : Position := .none
  annotations : Annotations := {}
  children : List Plan := []

/-- The type of a node over its fields, given what it was. -/
def Fields.typeOver {kind : PlanKind} (type : Option Ty) : Fields Plan kind → Option Ty
  | restrict source _ => source.type
  | _ => type

namespace Plan

instance : Inhabited Plan := ⟨{ construct := .noOp }⟩

def kind (p : Plan) : PlanKind :=
  p.construct.kind

/-- The heading of the rows that a node yields, if it is relational. -/
def heading? (p : Plan) : Option Heading :=
  p.type.bind Ty.heading?

/-- The characteristics that children give a node: it is functional, deterministic and repeatable if
all of them are, and may be nil if one of them may. -/
def derived (children : List Plan) : Characteristics :=
  let all := children.map (·.characteristics)
  { isFunctional := all.all (·.isFunctional)
    isDeterministic := all.all (·.isDeterministic)
    isRepeatable := all.all (·.isRepeatable)
    isNilable := all.any (·.isNilable) }

def allLiteral (children : List Plan) : Bool :=
  children.all (·.characteristics.isLiteral)

/-- The characteristics of a call: those of the operator and of the arguments together. A call without
effects that always gives the same result is literal over literal arguments. -/
def callCharacteristics (op : Operator) (arguments : List Plan) : Characteristics :=
  let own := op.characteristics
  let given := derived arguments
  let isFunctional := given.isFunctional && own.isFunctional
  let isDeterministic := given.isDeterministic && own.isDeterministic
  { isFunctional, isDeterministic
    isRepeatable := given.isRepeatable && own.isRepeatable
    isNilable := given.isNilable || own.isNilable
    isLiteral := isDeterministic && isFunctional && allLiteral arguments }

/-- The characteristics of a construct over children. -/
def characteristicsOf (construct : Construct) (children : List Plan) : Characteristics :=
  let given := derived children
  match construct with
  | .literal value => { given with isLiteral := true, isNilable := value.isNil }
  | .stackReference .. | .stackColumnReference .. | .columnExtractor .. =>
    { given with isNilable := true }
  | .tableVarReference _ => { given with isRepeatable := false }
  | .call op => callCharacteristics op children
  | .convert _ | .rowSelector _ | .tableSelector | .listSelector =>
    { given with isLiteral := allLiteral children }
  | .raise => { given with isFunctional := false }
  | .join _ kind => { given with isNilable := given.isNilable || kind != .inner }
  | _ => given

def make (construct : Construct) (type : Option Ty) (position : Position)
    (children : List Plan) : Plan :=
  { construct, type, position, children, characteristics := characteristicsOf construct children }

/-- The node with other children. A restriction takes the type of its new source; everything else
stays. -/
def replaceChildren (p : Plan) (children : List Plan) : Plan :=
  match p.construct, children with
  | .restrict _, source :: _ => { p with children, type := source.type }
  | _, _ => { p with children }

mutual

/-- The number of nodes on the longest way down a tree. -/
def height : Plan → Nat
  | ⟨_, _, _, _, _, children⟩ => heights children + 1

def heights : List Plan → Nat
  | [] => 0
  | p :: ps => max p.height (heights ps)

end

def noOp (position : Position) : Plan :=
  make .noOp none position []

def convertAlong (position : Position) (path : ConversionPath) (p : Plan) : Plan :=
  path.foldl (fun p conversion => make (.convert conversion) (some (.scalar conversion.target))
    position [p]) p

/-- The children of a node in their fields, if it has as many as nodes of its kind have. -/
def fields? (p : Plan) : Option (Fields Plan p.kind) :=
  Fields.of? p.kind p.children

/-- The node with children in its fields. A restriction takes the type of its source. -/
def withFields (p : Plan) (fields : Fields Plan p.kind) : Plan :=
  { p with children := fields.children, type := fields.typeOver p.type }

/-- The node with other children, as many as it has unless any number is allowed. -/
def withChildren (p : Plan) (children : List Plan) : Except Cause Plan :=
  match p.fields? with
  | some fields => p.withFields <$> fields.withChildren children
  | none =>
    if children.length = p.children.length then .ok (p.replaceChildren children)
    else .error (.invalidChildrenNumber ("*plan." ++ p.kind.text) children.length p.children.length)

end Plan

end Relational
