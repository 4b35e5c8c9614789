import Relational.Syntax

/-!
# Table variables

A table variable is stored on a device, derived from an expression over other table variables, private
to a session, or the copy of another one that a transaction works on. A derived table variable knows
which table variables its definition reads, unless that has to be found out again.
-/

namespace Relational

/-- A named variable that holds a table. -/
structure TableVar where
  name : String
  heading : Heading
  keys : List (List String) := []
  device : String := ""
  isSession : Bool := false
  isTransactional : Bool := false
  source : Option TableVar := none
  isDerived : Bool := false
  definition : Expr := .missing
  isStale : Bool := false
  references : List String := []

namespace TableVar

def base (name : String) (heading : Heading) (device : String) (keys : List (List String)) : TableVar :=
  { name, heading, device, keys }

def session (name : String) (heading : Heading) (device : String) : TableVar :=
  { name, heading, device, isSession := true }

/-- A table variable defined by an expression; what it reads is found out on first use. -/
def derived (name : String) (heading : Heading) (definition : Expr) : TableVar :=
  { name, heading, definition, isDerived := true, isStale := true }

/-- The copy of a table variable that a transaction works on. -/
def copyOf (source : TableVar) (name : String) : TableVar :=
  { name, heading := source.heading, keys := source.keys, device := source.device,
    isTransactional := true, source := some source }

def type (tv : TableVar) : Ty :=
  tv.heading.toTy .table

/-- Whether the table variable belongs to a session or a transaction. -/
def isPrivate (tv : TableVar) : Bool :=
  tv.isSession || tv.isTransactional

/-- The name of the table variable that is read: that of the source for a copy. -/
def sourceName (tv : TableVar) : String :=
  match tv.source with
  | some source => source.name
  | none => tv.name

/-- The derived table variable with what it reads to be found out again. -/
def invalidate (tv : TableVar) : TableVar :=
  if tv.isDerived then { tv with isStale := true } else tv

/-- The table variable with the table variables that it reads. -/
def setReferences (tv : TableVar) (references : List String) : TableVar :=
  { tv with references, isStale := false }

/-- The first of some keys that is not empty and whose columns are all among the given ones. -/
def coveredKey? (keys : List (List String)) (columns : List String) : Option (List String) :=
  keys.find? fun key => key.all columns.contains && !key.isEmpty

/-- The first key of the table variable covered by the given columns. -/
def key? (tv : TableVar) (columns : List String) : Option (List String) :=
  coveredKey? tv.keys columns

end TableVar

end Relational
