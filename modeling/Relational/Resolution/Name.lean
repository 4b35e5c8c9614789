import Relational.Resolution.Basic
import Relational.Text.Similar

/-!
# Resolving names

A name is looked for among the symbols first. Then it is a private object of the active transaction, an
alias of the compilation or of the session, which is followed, or an object of the catalog, with the
default namespace in front or as it is. A name that is still unknown is asked for at the default device.

An object that is found takes effect: what a stale derived table variable reads is found out, and inside
a transaction a table variable is copied.
-/

namespace Relational

/-- Where a name may be found: anywhere, among the symbols, or elsewhere. -/
inductive Binding where
  | all | symbols | objects
deriving Repr, DecidableEq

/-- What a name designates. -/
inductive ResolvedName where
  | symbol (location : Location) (symbol : Symbol) (shadowed : List String)
  | object (object : CatalogObject)

/-- The number of aliases that are followed one after the other. -/
def maxAliasDepth : Nat := 8

/-- The object of a name in the catalog, with the default namespace in front or as it is. -/
def findDeclared (options : ResolutionOptions) (path : ResolutionPath) (name : String) :
    Resolving (Option CatalogObject) := do
  let catalog := (← get).catalog
  if options.space ≠ "" ∧ ¬ Name.startsWith name (options.space ++ ".") then
    let qualified := Name.qualified options.space name
    if let some object ← Resolving.unambiguous name (catalog.resolveName qualified path) then
      return some object
  Resolving.unambiguous name (catalog.resolveName name path)

/-- The object of a name that the default device gives to the catalog. Looking for it asks no device, since
one is being asked. -/
def askDevice (options : ResolutionOptions) (path : ResolutionPath) (name : String) :
    Resolving (Option CatalogObject) := do
  let change := (← get).catalog.reconcile options.device name
  modify (·.apply change)
  match change.result with
  | .error cause => Resolving.raise cause
  | .ok false => return none
  | .ok true => findDeclared options path name

/-- The object of a name in the catalog, or on the default device. -/
def findCataloged (options : ResolutionOptions) (scope : PlanScope) (name : String) :
    Resolving (Option CatalogObject) := do
  if let some object ← findDeclared options scope.path name then
    return some object
  if options.device = "" || (← get).isReconciling then
    return none
  Resolving.reconciling (askDevice options scope.path name)

/-- The private object of the active transaction that a name designates. -/
def findPrivate (name : String) : Resolving (Option CatalogObject) := do
  let w ← get
  match w.activeTransaction?.bind (·.tableName? name) with
  | none => return none
  | some global => Resolving.unambiguous name (w.catalog.resolveName global [])

/-- What a name stands for as an alias of the compilation or of the session. -/
def findAlias (aliases : Aliases) (sessionAliases : Session → Aliases) (w : Workspace)
    (name : String) : Option String :=
  match aliases.find? name with
  | some global => some global
  | none => w.session.bind fun session => (sessionAliases session).find? name

/-- The object of a name, following at most a number of aliases. -/
def findObjectWithin (options : ResolutionOptions) (scope : PlanScope) :
    (fuel : Nat) → String → Resolving (Option CatalogObject)
  | 0, name => Resolving.raise (.internal ("session alias chain too deep resolving " ++ name))
  | fuel + 1, name => do
    if let some object ← findPrivate name then
      return some object
    match findAlias scope.objects Session.objects (← get) name with
    | some global => findObjectWithin options scope fuel global
    | none => findCataloged options scope name

def findObject (options : ResolutionOptions) (scope : PlanScope) (name : String) :
    Resolving (Option CatalogObject) :=
  findObjectWithin options scope (maxAliasDepth + 1) name

/-- The symbol or column of a name, unless the name is only looked for elsewhere. -/
def findSymbol (stack : Option Stack) (binding : Binding) (name : String) :
    Resolving (Option ResolvedName) :=
  match binding, stack with
  | .objects, _ | _, none => return none
  | _, some stack =>
    match stack.resolve name with
    | .missing => return none
    | .ambiguous candidates => Resolving.raise (.ambiguousIdentifier name candidates)
    | .found location symbol shadowed => return some (.symbol location symbol shadowed)

/-- An object inside the active transaction: the transaction's copy of it. -/
def copyObject (object : CatalogObject) : Resolving CatalogObject := do
  let w ← get
  match w.activeTransaction? with
  | none => return object
  | some t =>
    if object.isTransactional then return object
    else
      match t.ensureMapped w.catalog object with
      | .error cause => Resolving.raise cause
      | .ok (t, catalog, copy) =>
        set (w.setTransaction t catalog)
        return copy

/-- Whether what an object reads has to be found out first. -/
def staleTableVar? : CatalogObject → Option TableVar
  | .tableVar tv => if tv.isDerived && tv.isStale then some tv else none
  | .scalarType _ => none

def refreshed (object : CatalogObject) : Resolving CatalogObject := do
  return ((← get).catalog.object? object.name).getD object

section

variable {m : Type → Type} [Monad m] [MonadResolving m]

open MonadResolving

/-- What an object that was found takes effect on: `infer` finds out what a stale derived table
variable reads. -/
def bindObject (infer : TableVar → m Unit) (object : CatalogObject) : m CatalogObject := do
  match staleTableVar? object with
  | some tv =>
    infer tv
    let object ← resolve (refreshed object)
    resolve (copyObject object)
  | none => resolve (copyObject object)

/-- What a name designates, with its effects; nothing if the name is unknown. -/
def resolveName (options : ResolutionOptions) (scope : PlanScope) (stack : Option Stack)
    (infer : TableVar → m Unit) (binding : Binding) (name : String) : m (Option ResolvedName) := do
  match ← resolve (findSymbol stack binding name), binding with
  | some found, _ => return some found
  | none, .symbols => return none
  | none, _ =>
    match ← resolve (findObject options scope name) with
    | none => return none
    | some object => return some (.object (← bindObject infer object))

end

/-- The suggestion for an unknown name among the visible symbols and the objects of the catalog. -/
def suggestName (catalog : Catalog) (stack : Option Stack) (name : String) : String :=
  Text.suggest ((stack.map Stack.visibleNames).getD [] ++ catalog.objectNames) name

end Relational
