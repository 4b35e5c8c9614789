import Relational.Cause
import Relational.Name
import Relational.Operator
import Relational.TableVar

/-!
# The catalog

The catalog holds the declared scalar types and table variables, the overloads of operators, the
conversions between scalar types, and the storage devices. Objects that belong to a session or a
transaction are found by their full name only.

Changes of the catalog that may outdate what was resolved before are announced as events.
-/

namespace Relational

/-- The categories of declared objects. -/
inductive ObjectKind where
  | scalarType | tableVar | operator
deriving Repr, DecidableEq

def ObjectKind.textOfCode (code : Nat) : String :=
  ["scalar type", "table variable", "operator"].getD code "object"

def ObjectKind.text (kind : ObjectKind) : String :=
  textOfCode kind.ctorIdx

/-- A named object of the catalog. -/
inductive CatalogObject where
  | scalarType (type : ScalarType)
  | tableVar (tableVar : TableVar)

namespace CatalogObject

def name : CatalogObject → String
  | scalarType t => t.name
  | tableVar tv => tv.name

def kind : CatalogObject → ObjectKind
  | scalarType _ => .scalarType
  | tableVar _ => .tableVar

def isSession : CatalogObject → Bool
  | scalarType _ => false
  | tableVar tv => tv.isSession

def isTransactional : CatalogObject → Bool
  | scalarType _ => false
  | tableVar tv => tv.isTransactional

/-- Whether the object belongs to a session or a transaction. -/
def isPrivate (o : CatalogObject) : Bool :=
  o.isSession || o.isTransactional

end CatalogObject

/-- A storage device: the operators that it evaluates, by their unqualified names, and the table
variables that it holds but the catalog does not know yet. -/
structure Device where
  name : String
  operators : List String
  pending : List (String × TableVar) := []

namespace Device

def allOperators : String := "*"

/-- Whether the device evaluates an operator of a name. -/
def supportsName (d : Device) (name : String) : Bool :=
  d.operators.contains allOperators || d.operators.contains (Name.unqualified name)

def supports (d : Device) (op : Operator) : Bool :=
  d.supportsName op.name

/-- The device holding one more table variable, in place of one of the same name. -/
def store (d : Device) (tv : TableVar) : Device :=
  { d with
    pending := d.pending.filter (·.1 ≠ tv.name) ++ [(tv.name, { tv with device := d.name })] }

/-- The pending table variable that a name designates; of several the first that is held. -/
def pending? (d : Device) (name : String) : Option TableVar :=
  (d.pending.find? fun entry => Name.isDesignatedBy entry.1 name).map Prod.snd

def forget (d : Device) (tv : TableVar) : Device :=
  { d with pending := d.pending.filter (·.1 ≠ tv.name) }

end Device

/-- What a possibly partial name designates. -/
inductive Designation where
  | nothing
  | one (name : String)
  | several (names : List String)
deriving Repr, DecidableEq

/-- Chooses among several names along a path: the first library with a name decides. -/
def designateAlong (designated : List String) : ResolutionPath → Designation
  | [] => .several designated
  | library :: path =>
    match designated.filter (Name.startsWith · (library ++ ".")) with
    | [] => designateAlong designated path
    | [name] => .one name
    | level => .several level

/-- What a reference designates among names: the only name that it fits, else what the path of
libraries decides. -/
def designate (names : List String) (reference : String) (path : ResolutionPath) : Designation :=
  match sortNames (names.filter (Name.isDesignatedBy · reference)) with
  | [] => .nothing
  | [name] => .one name
  | designated => designateAlong designated path

/-- The outcome of looking something up by name. -/
inductive Found (α : Type) where
  | nothing
  | one (value : α)
  | ambiguous (names : List String)

/-- What a name designates: what is kept under that full name, else under a visible one. -/
def findDesignated {α : Type} (lookup : String → Option α) (visible : List String) (name : String)
    (path : ResolutionPath) : Found α :=
  match lookup name with
  | some value => .one value
  | none =>
    match designate visible name path with
    | .nothing => .nothing
    | .several names => .ambiguous names
    | .one found => (lookup found).elim .nothing .one

/-- The declared objects, operators, conversions and devices. -/
structure Catalog where
  objects : List (String × CatalogObject) := []
  operators : List (String × Overloads) := []
  conversions : List (String × List Conversion) := []
  devices : List (String × Device) := []

/-- What a change of the catalog announces. -/
inductive CatalogEvent where
  | typeChanged (type : ScalarType)
  | operatorChanged (name : String)
  | conversionChanged (conversion : Conversion)

def CatalogEvent.text : CatalogEvent → String
  | typeChanged type => "type " ++ type.name
  | operatorChanged name => "operator " ++ name
  | conversionChanged conversion => "conversion " ++ conversion.text

/-- The outcome of a change: the catalog after it, what it announces, and its result. -/
structure Change (α : Type) where
  catalog : Catalog
  events : List CatalogEvent := []
  result : Except Cause α

/-- Puts a value under a key in place of the value there was, or behind all others. -/
def putEntry {α : Type} (entries : List (String × α)) (key : String) (value : α) :
    List (String × α) :=
  if entries.any (·.1 == key) then
    entries.map fun entry => if entry.1 == key then (key, value) else entry
  else entries ++ [(key, value)]

namespace Catalog

def object? (c : Catalog) (name : String) : Option CatalogObject :=
  c.objects.lookup name

/-- The conversions from a scalar type, in the order they were declared. -/
def conversionsFrom (c : Catalog) (source : ScalarType) : List Conversion :=
  (c.conversions.lookup source.name).getD []

def device? (c : Catalog) (name : String) : Option Device :=
  c.devices.lookup name

def objectNames (c : Catalog) : List String :=
  sortNames (c.objects.map Prod.fst)

def operatorNames (c : Catalog) : List String :=
  sortNames (c.operators.map Prod.fst)

/-- The object that a name designates: the one of that full name, else a public one. -/
def resolveName (c : Catalog) : (name : String) → ResolutionPath → Found CatalogObject :=
  findDesignated c.object? ((c.objects.filter fun entry => !entry.2.isPrivate).map Prod.fst)

/-- The overloads that a name designates: those of that full name, else public ones. -/
def resolveOperatorName (c : Catalog) : (name : String) → ResolutionPath → Found Overloads :=
  findDesignated (c.operators.lookup ·) ((c.operators.filter fun entry => !entry.2.isPrivate).map Prod.fst)

def scalarType? (c : Catalog) (name : String) : Option ScalarType :=
  match c.resolveName name [] with
  | .one (.scalarType t) => some t
  | _ => none

/-- Declares an object; a name that is taken is refused. -/
def addObject (c : Catalog) (object : CatalogObject) : Except Cause Catalog :=
  match c.object? object.name with
  | some existing => .error (.duplicateIdentifier object.name [existing.name])
  | none => .ok { c with objects := c.objects ++ [(object.name, object)] }

def addScalarType (c : Catalog) (type : ScalarType) : Change Unit :=
  match c.addObject (.scalarType type) with
  | .error cause => { catalog := c, result := .error cause }
  | .ok catalog => { catalog, events := [.typeChanged type], result := .ok () }

/-- The conversions without those from a name and those to a declaration. -/
def conversionsWithout (c : Catalog) (name : String) (type : ScalarType) :
    List (String × List Conversion) :=
  (c.conversions.filter (·.1 ≠ name)).map fun (source, conversions) =>
    (source, conversions.filter fun conversion => !conversion.target.isSame type)

/-- Removes a scalar type and every conversion from or to it. -/
def dropScalarType (c : Catalog) (name : String) : Change Unit :=
  match c.object? name with
  | some (.scalarType type) =>
    { catalog := { c with
        objects := c.objects.filter (·.1 ≠ name)
        conversions := c.conversionsWithout name type }
      events := [.typeChanged type]
      result := .ok () }
  | _ => { catalog := c, result := .error (.unknownIdentifier name "") }

def addTableVar (c : Catalog) (tv : TableVar) : Change Unit :=
  match c.addObject (.tableVar tv) with
  | .error cause => { catalog := c, result := .error cause }
  | .ok catalog => { catalog, result := .ok () }

/-- The catalog with the table variable of a name changed. -/
def updateTableVar (c : Catalog) (name : String) (change : TableVar → TableVar) : Catalog :=
  { c with objects := c.objects.map fun (key, object) =>
      match object with
      | .tableVar tv => (key, .tableVar (if key == name then change tv else tv))
      | object => (key, object) }

/-- Removes a table variable. What the derived table variables that read it read has to be found out
again. -/
def dropTableVar (c : Catalog) (name : String) : Change Unit :=
  match c.object? name with
  | some (.tableVar _) =>
    let kept := c.objects.filter (·.1 ≠ name)
    let objects := kept.map fun (key, object) =>
      match object with
      | .tableVar tv =>
        (key, CatalogObject.tableVar (if tv.references.contains name then tv.invalidate else tv))
      | object => (key, object)
    { catalog := { c with objects }, result := .ok () }
  | _ => { catalog := c, result := .error (.unknownIdentifier name "") }

/-- Declares an overload; one that takes the same arguments as another is refused. -/
def addOperator (c : Catalog) (op : Operator) : Change Unit :=
  match ((c.operators.lookup op.name).getD { name := op.name }).add op with
  | .error existing =>
    { catalog := c, result := .error (.duplicateDeclaration op.text existing.text) }
  | .ok overloads =>
    { catalog := { c with operators := putEntry c.operators op.name overloads }
      events := [.operatorChanged op.name]
      result := .ok () }

/-- Removes an overload; whether it was declared is told. -/
def removeOperator (c : Catalog) (op : Operator) : Change Bool :=
  match c.operators.lookup op.name with
  | none => { catalog := c, result := .ok false }
  | some overloads =>
    if overloads.has op then
      { catalog := { c with operators := putEntry c.operators op.name (overloads.remove op) }
        events := [.operatorChanged op.name]
        result := .ok true }
    else { catalog := c, result := .ok false }

/-- Declares the operator of a conversion, unless an overload takes its arguments already. -/
def addConversionOperator (c : Catalog) (conversion : Conversion) : Change Unit :=
  match conversion.operator with
  | none => { catalog := c, result := .ok () }
  | some op => { c.addOperator op with result := .ok () }

/-- Declares a conversion together with its operator; a second conversion between two types is
refused. -/
def addConversion (c : Catalog) (conversion : Conversion) : Change Unit :=
  let { catalog, events, .. } := c.addConversionOperator conversion
  let existing := catalog.conversionsFrom conversion.source
  match existing.find? (·.target.name == conversion.target.name) with
  | some other =>
    { catalog, events, result := .error (.duplicateIdentifier conversion.text [other.text]) }
  | none =>
    { catalog := { catalog with
        conversions := putEntry catalog.conversions conversion.source.name
          (existing ++ [conversion]) }
      events := events ++ [.conversionChanged conversion]
      result := .ok () }

/-- Removes the conversion between two types; whether there was one is told. -/
def removeConversion (c : Catalog) (source target : ScalarType) : Change Bool :=
  let existing := c.conversionsFrom source
  match existing.find? (·.target.name == target.name) with
  | none => { catalog := c, result := .ok false }
  | some removed =>
    { catalog := { c with
        conversions := putEntry c.conversions source.name
          (existing.eraseP (·.target.name == target.name)) }
      events := [.conversionChanged removed]
      result := .ok true }

/-- Registers a device, in place of one of the same name. -/
def addDevice (c : Catalog) (device : Device) : Catalog :=
  { c with devices := putEntry c.devices device.name device }

/-- Declares the table variable of a name that a device holds, if it holds one. The device gives it
up also when its name is taken. -/
def reconcile (c : Catalog) (device name : String) : Change Bool :=
  match c.device? device with
  | none => { catalog := c, result := .ok false }
  | some d =>
    match d.pending? name with
    | none => { catalog := c, result := .ok false }
    | some tv =>
      let catalog := c.addDevice (d.forget tv)
      match catalog.addObject (.tableVar tv) with
      | .error cause => { catalog, result := .error cause }
      | .ok catalog => { catalog, result := .ok true }

end Catalog

end Relational
