import Relational.Type

/-!
# Operators

An operator is one overload of a name: a signature, the type of its result if it has one, and the static
properties of its calls.
-/

namespace Relational

/-- How an argument is passed. -/
inductive Modifier where
  | plain | var | const
deriving Repr, DecidableEq

/-- The word for a modifier with a blank after it; nothing for a plain argument. -/
def Modifier.text : Modifier → String
  | plain => ""
  | var => "var "
  | const => "const "

/-- The modifier with a number; numbers without a modifier mean plain passing. -/
def Modifier.ofCode (code : Nat) : Modifier :=
  match code with
  | 1 => var
  | 2 => const
  | _ => plain

/-- A parameter of an overload, or an argument of a call. Optional parameters may be left out at the
end of a call. -/
structure Parameter where
  type : Ty
  modifier : Modifier := .plain
  isOptional : Bool := false

/-- The parameters of an overload, or the arguments of a call. -/
abbrev Signature := List Parameter

namespace Signature

def ofTypes (types : List Ty) : Signature :=
  types.map fun type => { type }

/-- The least number of arguments: optional parameters at the end may be left out. -/
def minArity (s : Signature) : Nat :=
  (s.reverse.dropWhile (·.isOptional)).length

def maxArity (s : Signature) : Nat :=
  s.length

def types (s : Signature) : List Ty :=
  s.map (·.type)

/-- Whether two signatures take the same arguments: equal types passed in the same way. -/
def equals : Signature → Signature → Bool
  | [], [] => true
  | p :: ps, q :: qs => p.type.equals q.type && p.modifier == q.modifier && equals ps qs
  | _, _ => false

def text (s : Signature) : String :=
  "(" ++ ", ".intercalate (s.map fun p =>
    p.modifier.text ++ p.type.text ++ if p.isOptional then "?" else "") ++ ")"

end Signature

/-- The static properties of an operator or a plan. -/
structure Characteristics where
  isFunctional : Bool := true
  isDeterministic : Bool := true
  isRepeatable : Bool := true
  isNilable : Bool := false
  isLiteral : Bool := false
deriving Repr, DecidableEq

/-- One overload of an operator. The serial number tells apart overloads that look the same. -/
structure Operator where
  serial : Nat
  name : String
  signature : Signature
  returnType : Option Ty
  characteristics : Characteristics := {}
  isDeprecated : Bool := false
  isSession : Bool := false
  isTransactional : Bool := false

namespace Operator

/-- The text of an overload: its name and its signature. -/
def text (op : Operator) : String :=
  op.name ++ op.signature.text

def isSame (op other : Operator) : Bool :=
  op.serial == other.serial

/-- Whether the overload belongs to a session or a transaction. -/
def isPrivate (op : Operator) : Bool :=
  op.isSession || op.isTransactional

end Operator

/-- The overloads of a name, in the order they were declared. -/
structure Overloads where
  name : String
  operators : List Operator := []

namespace Overloads

/-- The overloads with one more; an overload that takes the same arguments is refused, and the one
that is there already is told. -/
def add (o : Overloads) (op : Operator) : Except Operator Overloads :=
  match o.operators.find? (·.signature.equals op.signature) with
  | some existing => .error existing
  | none => .ok { o with operators := o.operators ++ [op] }

def has (o : Overloads) (op : Operator) : Bool :=
  o.operators.any (·.isSame op)

def remove (o : Overloads) (op : Operator) : Overloads :=
  { o with operators := o.operators.eraseP (·.isSame op) }

/-- Whether there are overloads and all of them belong to sessions or transactions. -/
def isPrivate (o : Overloads) : Bool :=
  !o.operators.isEmpty && o.operators.all Operator.isPrivate

end Overloads

/-- A declared conversion between two scalar types. A narrowing conversion may lose information. -/
structure Conversion where
  source : ScalarType
  target : ScalarType
  operator : Option Operator := none
  isNarrowing : Bool := false

/-- The text of a conversion: its types with an arrow between them. -/
def Conversion.text (c : Conversion) : String :=
  c.source.name ++ (if c.isNarrowing then " ~> " else " -> ") ++ c.target.name

end Relational
