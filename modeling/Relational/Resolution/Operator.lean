import Relational.Resolution.Basic
import Relational.Text.Similar

/-!
# Resolving calls

The overloads of an operator are looked for among the private operators of the active transaction, the
aliases of the compilation and of the session, the operators of the compilation, and in the catalog. The
first of these places where an overload fits the call decides. Calls of catalog operators over scalar
arguments are remembered.
-/

namespace Relational

/-- The overloads of a name in one of the places where they are looked for. -/
structure OverloadSource where
  overloads : Overloads
  isCataloged : Bool := false

def findGlobalOverloads (name : String) (global : Option String) :
    Resolving (List OverloadSource) := do
  match global with
  | none => return []
  | some global =>
    let found ← Resolving.unambiguous name ((← get).catalog.resolveOperatorName global [])
    return found.toList.map fun overloads => { overloads }

/-- The overloads of a name in the catalog, with the default namespace in front or as it is. -/
def findDeclaredOverloads (options : ResolutionOptions) (path : ResolutionPath) (name : String) :
    Resolving (List OverloadSource) := do
  let catalog := (← get).catalog
  let source := fun (overloads : Overloads) => [({ overloads, isCataloged := true } : OverloadSource)]
  if options.space ≠ "" ∧ ¬ Name.startsWith name (options.space ++ ".") then
    let qualified := Name.qualified options.space name
    if let some overloads ←
        Resolving.unambiguous name (catalog.resolveOperatorName qualified path) then
      return source overloads
  let found ← Resolving.unambiguous name (catalog.resolveOperatorName name path)
  return (found.map source).getD []

/-- The overloads of a name in all places, those that take precedence first. -/
def findOverloads (options : ResolutionOptions) (scope : PlanScope) (name : String) :
    Resolving (List OverloadSource) := do
  let w ← get
  let private_ ← findGlobalOverloads name (w.activeTransaction?.bind (·.operatorName? name))
  let planned ← findGlobalOverloads name (scope.operatorNames.find? name)
  let aliased ← findGlobalOverloads name (w.session.bind fun s => s.operators.find? name)
  let local_ := (scope.operators? name).toList.map fun overloads => ({ overloads } : OverloadSource)
  let declared ← findDeclaredOverloads options scope.path name
  return private_ ++ planned ++ aliased ++ local_ ++ declared

def recallMatch (key : CallKey) : Resolving (Option OverloadMatch) := do
  let w ← get
  match w.operatorCache with
  | none => return none
  | some cache =>
    let (found, cache) := cache.get? key
    set { w with operatorCache := some cache }
    return found.map (·.found)

/-- Remembers the match of a call, unless the overload is private. -/
def rememberMatch (key : CallKey) (overloads : String) (found : OverloadMatch) (visited : List String) :
    Resolving Unit :=
  modify fun w =>
    if found.operator.isPrivate then w
    else { w with operatorCache := w.operatorCache.map (·.remember key overloads found visited) }

def choose (call : Call) (isExact : Bool) (overloads : Overloads) : Resolving OverloadChoice := do
  let w ← get
  let (choice, cache) := chooseOverload w.catalog.conversions call isExact overloads.operators
    w.conversionCache
  set { w with conversionCache := cache }
  match choice with
  | some choice => return choice
  | none => throw .absent

def mismatch (name : String) (call : Call) (isExact hasArity : Bool)
    (closest : Option OverloadMatch) : Cause :=
  if !hasArity then .noSignatureForArity name call.length
  else
    .noOperatorMatch name call.text <|
      match closest with
      | none => ""
      | some m =>
        "; closest candidate " ++ m.operator.text ++
          if isExact && m.canConvert then " requires conversions"
          else ": " ++ m.describeFailures call

/-- The closest of failing matches from one place and from the next. -/
def closestOf (earlier later : Option OverloadMatch) : Option OverloadMatch :=
  match later with
  | none => earlier
  | some m => OverloadChoice.closer earlier m

/-- The overload that fits a call best, in the first place where one fits. -/
def selectAmong (scope : PlanScope) (name : String) (call : Call) (isExact : Bool) :
    (closest : Option OverloadMatch) → (hasArity : Bool) → List OverloadSource →
      Resolving OverloadMatch
  | closest, hasArity, [] => Resolving.raise (mismatch name call isExact hasArity closest)
  | closest, hasArity, source :: sources => do
    let key := call.key name scope.path isExact
    let isRemembered := source.isCataloged && call.isScalar
    if isRemembered then
      if let some found ← recallMatch key then
        return found
    let choice ← choose call isExact source.overloads
    match choice.best, choice.ties with
    | none, _ =>
      selectAmong scope name call isExact (closestOf closest choice.closest)
        (hasArity || choice.hasArity) sources
    | some best, [] =>
      if isRemembered then
        rememberMatch key source.overloads.name best (choice.visited ++ call.typeTexts)
      return best
    | some best, ties =>
      Resolving.raise (.ambiguousOperatorCall name call.text
        ((best :: ties).map (·.operator.text)))

def selectOperator (options : ResolutionOptions) (scope : PlanScope) (name : String) (call : Call)
    (isExact : Bool) : Resolving OverloadMatch := do
  let sources ← findOverloads options scope name
  if sources.isEmpty then
    Resolving.raise (.unknownOperator name (Text.suggest (← get).catalog.operatorNames name))
  else selectAmong scope name call isExact none false sources

/-- Whether the body of an operator still has to be compiled. -/
def isDeferred (op : Operator) : Resolving Bool := do
  return ((← get).operatorState op).isDeferred

section

variable {m : Type → Type} [Monad m] [MonadResolving m]

open MonadResolving

/-- The overload of a name that fits a call best; `compile` compiles its body if that was put off. -/
def resolveOperator (options : ResolutionOptions) (scope : PlanScope) (compile : Operator → m Unit)
    (name : String) (call : Call) (isExact : Bool) : m OverloadMatch := do
  let found ← resolve (selectOperator options scope name call isExact)
  if ← resolve (isDeferred found.operator) then
    compile found.operator
  return found

end

end Relational
