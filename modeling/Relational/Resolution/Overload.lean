import Relational.Conversion.Find

/-!
# Choosing an overload

A call is matched against the overloads of an operator that take its number of arguments. An argument
matches exactly if its type is the type of the parameter, otherwise by conversion, unless it is passed
by reference. The overload that narrows least wins, then the one with the fewest conversions; overloads
that tie are ambiguous.
-/

namespace Relational

/-- An argument of a call. An argument without a type has no value. -/
structure Argument where
  type : Option Ty
  modifier : Modifier := .plain
  isOptional : Bool := false

abbrev Call := List Argument

namespace Call

def ofSignature (s : Signature) : Call :=
  s.map fun p => { type := some p.type, modifier := p.modifier, isOptional := p.isOptional }

def text (call : Call) : String :=
  "(" ++ ", ".intercalate (call.map fun a =>
    a.modifier.text ++ typeText a.type ++ if a.isOptional then "?" else "") ++ ")"

def typeTexts (call : Call) : List String :=
  call.map fun a => typeText a.type

def isScalar (call : Call) : Bool :=
  call.all fun a =>
    match a.type with
    | some (.scalar _) => true
    | _ => false

end Call

/-- How an argument fits a parameter: exactly, by a conversion, or not at all. -/
structure ArgumentMatch where
  isExact : Bool := false
  conversion : Option ConversionContext := none

namespace ArgumentMatch

def fits (a : ArgumentMatch) : Bool :=
  a.isExact || a.conversion.any (·.canConvert)

/-- What the argument adds to the score of its match. -/
def score (a : ArgumentMatch) : Int :=
  match a.conversion with
  | some c => if c.canConvert then c.score else 0
  | none => 0

/-- What the argument adds to the length of its match. -/
def length (a : ArgumentMatch) : Nat :=
  match a.conversion with
  | some c => if c.canConvert then c.length else 0
  | none => 0

end ArgumentMatch

/-- How a call fits an overload. -/
structure OverloadMatch where
  operator : Operator
  arguments : List ArgumentMatch

namespace OverloadMatch

def canConvert (m : OverloadMatch) : Bool :=
  m.arguments.all ArgumentMatch.fits

def isExact (m : OverloadMatch) : Bool :=
  m.arguments.all (·.isExact)

def failures (m : OverloadMatch) : Nat :=
  m.arguments.countP fun a => !a.fits

/-- The sum of the scores of the conversions; negative if one of them is narrowing. -/
def score (m : OverloadMatch) : Int :=
  m.arguments.foldr (fun a total => a.score + total) 0

def length (m : OverloadMatch) : Nat :=
  m.arguments.foldr (fun a total => a.length + total) 0

def isNarrowing (m : OverloadMatch) : Bool :=
  m.score < 0

/-- Whether a match narrows less than another, or as much with fewer conversions. -/
def isBetter (m other : OverloadMatch) : Bool :=
  if m.score ≠ other.score then other.score < m.score else m.length < other.length

def ties (m other : OverloadMatch) : Bool :=
  m.score = other.score && m.length = other.length

/-- Whether a match that fails is closer to success than another. -/
def isCloser (m other : OverloadMatch) : Bool :=
  if m.failures ≠ other.failures then m.failures < other.failures else m.isBetter other

/-- The scalar types that the conversions of the arguments saw. -/
def visited (m : OverloadMatch) : List String :=
  m.arguments.flatMap fun a => (a.conversion.map (·.visited)).getD []

def failureText (argument : Argument) (parameter : Parameter) (fit : ArgumentMatch) : String :=
  let types := typeText argument.type ++ " to " ++ parameter.type.text
  if fit.conversion.any (·.isAmbiguous) then "ambiguous conversion from " ++ types
  else if argument.modifier = .var || parameter.modifier = .var then
    "var argument of type " ++ typeText argument.type ++ " must be exactly " ++ parameter.type.text
  else "no conversion from " ++ types

def describeFailures (m : OverloadMatch) (call : Call) : String :=
  let places := (call.zip (m.operator.signature.zip m.arguments)).zipIdx
  ", ".intercalate (places.filterMap fun ((argument, parameter, fit), index) =>
    if fit.fits then none
    else some ("argument " ++ toString (index + 1) ++ ": " ++ failureText argument parameter fit))

end OverloadMatch

/-- The match of an argument with a parameter; nothing if the argument has no value. -/
def matchArgument (graph : ConversionGraph) (argument : Argument) (parameter : Parameter) :
    StateM (Option ConversionCache) (Option ArgumentMatch) :=
  match argument.type with
  | none => return none
  | some type =>
    if type.isNil || type.isA parameter.type then return some { isExact := true }
    else if argument.modifier = .var || parameter.modifier = .var then return some {}
    else do
      let context ← findConversion graph false type parameter.type
      return some { conversion := some context }

/-- The matches of arguments with parameters, as far as the arguments have values. -/
def matchArguments (graph : ConversionGraph) :
    Call → Signature → StateM (Option ConversionCache) (Option (List ArgumentMatch))
  | argument :: call, parameter :: signature => do
    match ← matchArgument graph argument parameter with
    | none => return none
    | some first =>
      match ← matchArguments graph call signature with
      | none => return none
      | some rest => return some (first :: rest)
  | _, _ => return some []

/-- The match of a call with an overload; nothing if an argument has no value. -/
def matchOverload (graph : ConversionGraph) (call : Call) (op : Operator) :
    StateM (Option ConversionCache) (Option OverloadMatch) := do
  match ← matchArguments graph call op.signature with
  | none => return none
  | some arguments => return some { operator := op, arguments }

def takesArity (op : Operator) (arity : Nat) : Bool :=
  op.signature.minArity ≤ arity && arity ≤ op.signature.maxArity

/-- The outcome of matching a call with the overloads of a name: the best match and those that tie with
it, the failing match that is closest to success, whether an overload takes the number of arguments, and
the scalar types that conversions saw. -/
structure OverloadChoice where
  best : Option OverloadMatch := none
  ties : List OverloadMatch := []
  closest : Option OverloadMatch := none
  hasArity : Bool := false
  visited : List String := []

namespace OverloadChoice

/-- The closest of the failing matches so far and one more; the earlier one if they are alike. -/
def closer (closest : Option OverloadMatch) (m : OverloadMatch) : Option OverloadMatch :=
  match closest with
  | none => some m
  | some other => if m.isCloser other then some m else closest

def add (choice : OverloadChoice) (isExact : Bool) (m : OverloadMatch) : OverloadChoice :=
  let choice := { choice with hasArity := true, visited := choice.visited ++ m.visited }
  if !m.canConvert || (isExact && !m.isExact) then
    { choice with closest := closer choice.closest m }
  else
    match choice.best with
    | none => { choice with best := some m, ties := [] }
    | some best =>
      if m.isBetter best then { choice with best := some m, ties := [] }
      else if m.ties best then { choice with ties := choice.ties ++ [m] }
      else choice

end OverloadChoice

/-- Matches a call with overloads in order; nothing if an argument has no value where one is needed. -/
def chooseOverload (graph : ConversionGraph) (call : Call) (isExact : Bool) (operators : List Operator) :
    StateM (Option ConversionCache) (Option OverloadChoice) :=
  (operators.filter (takesArity · call.length)).foldlM (fun choice op => do
    match choice with
    | none => return none
    | some choice =>
      match ← matchOverload graph call op with
      | none => return none
      | some m => return some (choice.add isExact m)) (some {})

/-- A call that was resolved before: the name and the texts of the types of its arguments, the path of
libraries, and whether only exact matches were allowed. -/
structure CallKey where
  name : String
  arguments : List String
  path : ResolutionPath
  isExact : Bool
deriving Repr, DecidableEq

def Call.key (call : Call) (name : String) (path : ResolutionPath) (isExact : Bool) : CallKey :=
  { name, path, isExact, arguments := call.map fun a => a.modifier.text ++ typeText a.type }

/-- A remembered match with the names of operators and of types whose change outdates it. -/
structure RememberedMatch where
  found : OverloadMatch
  names : List String
  types : List String

/-- What a change that outdates a match is a change of: the operators of a name, or a type. -/
inductive CallTag where
  | operators (name : String)
  | type (name : String)
deriving Repr, DecidableEq

abbrev OperatorCache := Recent CallTag CallKey RememberedMatch

namespace OperatorCache

/-- The number of matches that are remembered when none is configured. -/
def defaultCapacity : Nat := 512

/-- An empty memory; sizes that are not positive mean the default size. -/
def ofSize (size : Int) : OperatorCache :=
  { capacity := if size ≤ 0 then defaultCapacity else size.toNat }

def tags (_ : CallKey) (m : RememberedMatch) : List CallTag :=
  m.names.map .operators ++ m.types.map .type

/-- Remembers the match of a call with the overloads of a name. -/
def remember (cache : OperatorCache) (key : CallKey) (overloads : String) (found : OverloadMatch)
    (visited : List String) : OperatorCache :=
  cache.put tags key
    { found
      names := [key.name, overloads, Name.unqualified overloads]
      types := found.operator.signature.types.map Ty.text ++ visited }

/-- Forgets the matches that a change of the operators of a name may have outdated. -/
def invalidateName (cache : OperatorCache) (name : String) : OperatorCache :=
  cache.invalidate tags (.operators name)

/-- Forgets the matches that a change of a type may have outdated. -/
def invalidateType (cache : OperatorCache) (name : String) : OperatorCache :=
  cache.invalidate tags (.type name)

/-- Forgets what a change of the catalog may have outdated. -/
def notify (cache : OperatorCache) : CatalogEvent → OperatorCache
  | .typeChanged type => cache.invalidateType type.name
  | .conversionChanged conversion => cache.invalidateType conversion.source.name
  | .operatorChanged name => (cache.invalidateName name).invalidateName (Name.unqualified name)

end OperatorCache

end Relational
