import Relational.Catalog.Basic

/-!
# Sessions and transactions

A session knows its own objects under names of its own: each alias stands for the global name of an
object. While a transaction is active, the table variables and operators that belong to it hide those of
the same names outside; a table variable is copied into the transaction when it is first used.
-/

namespace Relational

abbrev Aliases := List (String × String)

namespace Aliases

def find? (aliases : Aliases) (name : String) : Option String :=
  aliases.lookup name

def set (aliases : Aliases) (name global : String) : Aliases :=
  putEntry aliases name global

def remove (aliases : Aliases) (name : String) : Aliases :=
  aliases.filter (·.1 ≠ name)

/-- The name made up for a session object from an identifier. -/
def generated (identifier name : String) : String :=
  "Session_" ++ identifier ++ "." ++ Name.unqualified name

end Aliases

/-- A transaction: the global names of its private table variables and operators by the names that
they hide, and how often it is told to look past them, for global names and for lookups. -/
structure Transaction where
  identifier : String
  tables : Aliases := []
  operators : Aliases := []
  globalDepth : Int := 0
  lookupDepth : Int := 0

namespace Transaction

/-- Whether the transaction looks past its private objects for global names. -/
def isGlobal (t : Transaction) : Bool :=
  0 < t.globalDepth

/-- Whether the transaction looks past its private objects for a lookup. -/
def isLookup (t : Transaction) : Bool :=
  0 < t.lookupDepth

/-- Whether the private objects of the transaction hide others. -/
def isActive (t : Transaction) : Bool :=
  !t.isGlobal && !t.isLookup

/-- The number of characters of the identifier in the names of private objects. -/
def identifierLength : Nat := 8

def privateName (t : Transaction) (name : String) : String :=
  "AT_" ++ String.ofList (t.identifier.toList.take identifierLength) ++ "." ++ name

/-- What a possibly partial name stands for: its own entry, else the only entry that it designates. -/
def designated? (names : Aliases) (name : String) : Option String :=
  match names.find? name with
  | some global => some global
  | none =>
    match names.filter fun entry => Name.isDesignatedBy entry.1 name with
    | [(_, global)] => some global
    | _ => none

def tableName? (t : Transaction) (name : String) : Option String :=
  designated? t.tables name

def operatorName? (t : Transaction) (name : String) : Option String :=
  designated? t.operators name

/-- Declares the copy of a table variable that hides a name. -/
def addCopy (t : Transaction) (catalog : Catalog) (name : String) (source : TableVar) :
    Except Cause (Transaction × Catalog × TableVar) :=
  let copy := source.copyOf (t.privateName name)
  match catalog.addTableVar copy with
  | { result := .error cause, .. } => .error cause
  | { catalog, result := .ok _, .. } =>
    .ok ({ t with tables := t.tables.set name copy.name }, catalog, copy)

/-- Declares a table variable that only exists inside the transaction. -/
def addTableVar (t : Transaction) (catalog : Catalog) (name : String) (heading : Heading)
    (device : String) : Except Cause (Transaction × Catalog × TableVar) :=
  t.addCopy catalog name (.base name heading device [])

/-- The operator of a name that only exists inside the transaction. -/
def operator (t : Transaction) (serial : Nat) (name : String) (signature : Signature)
    (returnType : Option Ty) : Operator :=
  { serial, name := t.privateName name, signature, returnType, isTransactional := true }

/-- The transaction's private copy of an object: the one there is, else a new one. Only stored table
variables outside sessions are copied. -/
def ensureMapped (t : Transaction) (catalog : Catalog) (object : CatalogObject) :
    Except Cause (Transaction × Catalog × CatalogObject) :=
  match object with
  | .scalarType _ => .ok (t, catalog, object)
  | .tableVar tv =>
    if tv.isDerived || tv.isSession then .ok (t, catalog, object)
    else
      let mapped := (t.tables.find? tv.name).bind fun global =>
        match catalog.resolveName global [] with
        | .one object => some object
        | _ => none
      match mapped with
      | some object => .ok (t, catalog, object)
      | none => do
        let (t, catalog, copy) ← t.addCopy catalog tv.name tv
        return (t, catalog, .tableVar copy)

end Transaction

/-- A session: its aliases for objects and operators, and its transactions, innermost first. -/
structure Session where
  objects : Aliases := []
  operators : Aliases := []
  transactions : List Transaction := []

namespace Session

def transaction? (s : Session) : Option Transaction :=
  s.transactions.head?

/-- The session with the innermost transaction replaced. -/
def setTransaction (s : Session) (t : Transaction) : Session :=
  { s with transactions := t :: s.transactions.tail }

def begin (s : Session) (identifier : String) : Session :=
  { s with transactions := { identifier } :: s.transactions }

def finish (s : Session) : Session :=
  { s with transactions := s.transactions.tail }

end Session

end Relational
