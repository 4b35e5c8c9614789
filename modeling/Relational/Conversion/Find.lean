import Relational.Catalog.Basic
import Relational.Conversion.Context
import Relational.Recent

/-!
# Finding conversions

Conversions between scalar types are searched in the graph of declared conversions, those between other
types column by column and element by element. The outcomes for scalar types are remembered together
with the types that the search saw, and forgotten when one of these types or a conversion from one of
them changes.
-/

namespace Relational

/-- The remembered conversions between scalar types, by the names of the two types, tagged with the names
of the types whose changes outdate them. -/
abbrev ConversionCache := Recent String (String × String) ConversionContext

namespace ConversionCache

/-- The number of outcomes that are remembered when none is configured. -/
def defaultCapacity : Nat := 1024

/-- An empty memory; sizes that are not positive mean the default size. -/
def ofSize (size : Int) : ConversionCache :=
  { capacity := if size ≤ 0 then defaultCapacity else size.toNat }

/-- The names of the types whose changes outdate an outcome: those that the search saw, and the one it
was for. -/
def tags (key : String × String) (context : ConversionContext) : List String :=
  context.visited ++ [key.2]

/-- Forgets the outcomes whose search saw a type, or was for it. -/
def invalidateType (cache : ConversionCache) (name : String) : ConversionCache :=
  cache.invalidate tags name

/-- Forgets what a change of the catalog may have outdated. -/
def notify (cache : ConversionCache) : CatalogEvent → ConversionCache
  | .typeChanged type => cache.invalidateType type.name
  | .conversionChanged conversion => cache.invalidateType conversion.source.name
  | .operatorChanged _ => cache

end ConversionCache

/-- The names of a list, sorted and without repetition. -/
def sortedNames (names : List String) : List String :=
  sortNames names.eraseDups

/-- The conversion between two scalar types by search. -/
def searchScalar (graph : ConversionGraph) (source target : ScalarType) : ConversionContext :=
  let found := searchPaths graph source target
  let context : ConversionContext :=
    { source := .scalar source, target := .scalar target, candidates := found.candidates
      visited := sortedNames found.visited }
  match found.candidates with
  | [path] => { context with canConvert := true, path }
  | _ => context

/-- The conversion between two scalar types, remembered unless it is ambiguous. -/
def findScalar (graph : ConversionGraph) (source target : ScalarType) :
    StateM (Option ConversionCache) ConversionContext := fun cache =>
  match cache with
  | none => (searchScalar graph source target, none)
  | some cache =>
    let key := (source.name, target.name)
    match cache.get? key with
    | (some context, cache) => (context, some cache)
    | (none, cache) =>
      let context := searchScalar graph source target
      if context.candidates.length ≤ 1 then (context, some (cache.put ConversionCache.tags key context))
      else (context, some cache)

/-- The outcome for rows or tables from the outcomes for their shared columns. -/
def combineColumns (source target : Ty) (columns columns' : Columns) (widen : Bool)
    (outcomes : List (String × ConversionContext)) : ConversionContext :=
  let missingFromTarget := columns.names.filter fun name => !columns'.has name
  let missingFromSource :=
    if widen then [] else columns'.names.filter fun name => !columns.has name
  { source, target, columns := outcomes, missingFromTarget, missingFromSource
    canConvert := missingFromTarget.isEmpty && missingFromSource.isEmpty &&
      outcomes.all (·.2.canConvert)
    visited := sortedNames (outcomes.flatMap (·.2.visited)) }

/-- The outcome for lists or cursors from the outcome for what they contain. -/
def wrapElement (source target : Ty) (element : ConversionContext) : ConversionContext :=
  { source, target, canConvert := element.canConvert, element := some element
    visited := element.visited }

mutual

/-- The conversion between two types. With `widen`, the target may have more columns. -/
def findConversion (graph : ConversionGraph) (widen : Bool) (source target : Ty) :
    StateM (Option ConversionCache) ConversionContext :=
  if source.isNil || source.isA target then pure { source, target, canConvert := true }
  else
    match source, target with
    | .scalar s, .scalar t => findScalar graph s t
    | .rows .row columns, .rows .row columns' => do
      return combineColumns source target columns columns' widen
        (← findColumns graph widen columns columns')
    | .rows .table columns, .rows .table columns' => do
      return combineColumns source target columns columns' widen
        (← findColumns graph widen columns columns')
    | .rows .cursor columns, .rows .cursor columns' => do
      return wrapElement source target
        (combineColumns (.rows .table columns) (.rows .table columns') columns columns' widen
          (← findColumns graph widen columns columns'))
    | .anyRows .row, .rows .row columns' =>
      pure (combineColumns source target [] columns' widen [])
    | .anyRows .table, .rows .table columns' =>
      pure (combineColumns source target [] columns' widen [])
    | .anyRows .cursor, .rows .cursor columns' =>
      pure (wrapElement source target
        (combineColumns (.anyRows .table) (.rows .table columns') [] columns' widen []))
    | .list element, .list element' => do
      return wrapElement source target (← findConversion graph widen element element')
    | _, _ => pure { source, target }

/-- The conversions of the columns that both sides have. -/
def findColumns (graph : ConversionGraph) (widen : Bool) :
    List (String × Ty) → Columns → StateM (Option ConversionCache) (List (String × ConversionContext))
  | [], _ => pure []
  | (name, type) :: rest, columns' => do
    match columns'.type? name with
    | none => findColumns graph widen rest columns'
    | some type' =>
      let context ← findConversion graph widen type type'
      return (name, context) :: (← findColumns graph widen rest columns')

end

end Relational
