/-!
# Types

Every value has a type. Scalar types are declared by name and may inherit from other scalar types; rows,
tables and cursors have columns; lists have elements. For each form there is a generic type that covers
all types of that form, and one type that covers every type.

Equality and subtyping compare scalar types by name and columns without regard to their order.
-/

namespace Relational

/-- How literal values of a scalar type are represented. -/
inductive NativeKind where
  | none | integer | decimal | string | boolean
deriving Repr, DecidableEq

/-- A declared scalar type. The serial number tells apart declarations that share a name; a generic
scalar type covers every scalar type. -/
structure ScalarType where
  serial : Nat
  name : String
  native : NativeKind := .none
  generic : Bool := false
  parents : List ScalarType := []

namespace ScalarType

/-- The type of the nil value, which fits every type. -/
def nil : ScalarType := { serial := 0, name := "System.Nil" }

def any : ScalarType := { serial := 1, name := "System.Scalar", generic := true }

def firstSerial : Nat := 2

def isSame (s t : ScalarType) : Bool :=
  s.serial == t.serial

mutual

/-- Whether values of the first type are values of the second: the second is generic, has the same
name, or a parent of the first is one. -/
def isA : ScalarType → ScalarType → Bool
  | ⟨_, name, _, _, parents⟩, target =>
    target.generic || name == target.name || anyIsA parents target

/-- Whether some type of a list is a subtype of a type. -/
def anyIsA : List ScalarType → ScalarType → Bool
  | [], _ => false
  | parent :: parents, target => parent.isA target || anyIsA parents target

end

end ScalarType

/-- The scalar types declared by name, the latest one first, and the next free serial number. -/
structure ScalarTypes where
  types : List (String × ScalarType) := []
  next : Nat := ScalarType.firstSerial

/-- Reading with the scalar types declared so far. -/
abbrev Typing := StateM ScalarTypes

namespace ScalarTypes

/-- Adds a scalar type, which takes the place of one of the same name. -/
def add (name : String) (native : NativeKind) (generic : Bool) (parents : List ScalarType) :
    Typing ScalarType := fun known =>
  let type : ScalarType := { serial := known.next, name, native, generic, parents }
  (type, ⟨(name, type) :: known.types, known.next + 1⟩)

/-- The scalar type of a name; an unknown name gets a plain type. -/
def named (name : String) : Typing ScalarType := do
  match (← get).types.lookup name with
  | some type => return type
  | none => add name .none false []

end ScalarTypes

/-- The forms of types with columns: one row, a table of rows, a cursor over a table. -/
inductive Form where
  | row | table | cursor
deriving Repr, DecidableEq

/-- The categories of types. -/
inductive TypeKind where
  | scalar | row | table | list | cursor | generic
deriving Repr, DecidableEq

/-- The name of the category with a number, or the number where there is none. -/
def TypeKind.textOfCode (code : Nat) : String :=
  ["scalar", "row", "table", "list", "cursor", "generic"].getD code ("TypeKind(" ++ toString code ++ ")")

def TypeKind.text (kind : TypeKind) : String :=
  textOfCode kind.ctorIdx

/-- A type: scalar, with columns, a list, or generic in one of four ways. -/
inductive Ty where
  | scalar (type : ScalarType)
  | rows (form : Form) (columns : List (String × Ty))
  | anyRows (form : Form)
  | list (element : Ty)
  | anyList
  | any

abbrev Columns := List (String × Ty)

/-- The columns of a row, or nothing for rows with any columns. -/
abbrev Heading := Option Columns

namespace Columns

def names (columns : Columns) : List String :=
  columns.map Prod.fst

def index? (columns : Columns) (name : String) : Option Nat :=
  columns.findIdx? (·.1 == name)

def type? (columns : Columns) (name : String) : Option Ty :=
  columns.lookup name

def has (columns : Columns) (name : String) : Bool :=
  columns.any (·.1 == name)

end Columns

namespace Heading

/-- The type of one row, a table or a cursor with this heading. -/
def toTy (heading : Heading) (form : Form) : Ty :=
  match heading with
  | some columns => .rows form columns
  | none => .anyRows form

/-- The columns of a heading; rows with any columns show none. -/
def columns (heading : Heading) : Columns :=
  heading.getD []

end Heading

namespace Ty

def nil : Ty := scalar .nil

def isNil : Ty → Bool
  | scalar s => s.isSame .nil
  | _ => false

def kind : Ty → TypeKind
  | scalar _ => .scalar
  | rows .row _ | anyRows .row => .row
  | rows .table _ | anyRows .table => .table
  | rows .cursor _ | anyRows .cursor => .cursor
  | list _ | anyList => .list
  | any => .generic

/-- Whether a type stands for the types of its form; a list does when its elements do. -/
def isGeneric : Ty → Bool
  | scalar s => s.generic
  | rows _ _ => false
  | anyRows _ => true
  | list element => element.isGeneric
  | anyList => true
  | any => true

def isStructural : Ty → Bool
  | rows _ _ | anyRows _ | list _ | anyList => true
  | scalar _ | any => false

mutual

/-- Equality of types: scalar types by name, columns without regard to order. -/
def equals : Ty → Ty → Bool
  | scalar s, scalar t => s.name == t.name
  | rows form columns, rows form' columns' =>
    form == form' && columns.length == columns'.length && columnsEqual columns columns'
  | anyRows form, anyRows form' => form == form'
  | list element, list element' => element.equals element'
  | anyList, anyList => true
  | any, any => true
  | _, _ => false

/-- Whether each column of the first list has its equal in the second. -/
def columnsEqual : List (String × Ty) → List (String × Ty) → Bool
  | [], _ => true
  | (name, type) :: rest, others =>
    (match others.lookup name with
      | some other => type.equals other
      | none => false) && columnsEqual rest others

end

mutual

/-- Whether values of the first type are values of the second. -/
def isA : Ty → Ty → Bool
  | _, any => true
  | scalar s, scalar t => s.isA t
  | rows form columns, rows form' columns' =>
    form == form' && columns.length == columns'.length && columnsAre columns columns'
  | rows form _, anyRows form' => form == form'
  | anyRows form, anyRows form' => form == form'
  | anyRows form, rows form' columns' => form == form' && columns'.isEmpty
  | list element, list element' => element.isA element'
  | list _, anyList => true
  | anyList, anyList => true
  | _, _ => false

/-- Whether each column of the first list has a column in the second whose type covers its own. -/
def columnsAre : List (String × Ty) → List (String × Ty) → Bool
  | [], _ => true
  | (name, type) :: rest, others =>
    (match others.lookup name with
      | some other => type.isA other
      | none => false) && columnsAre rest others

end

def bracedTexts (texts : List String) : String :=
  "\x7b" ++ ", ".intercalate texts ++ "\x7d"

mutual

def text : Ty → String
  | scalar s => s.name
  | rows .row columns => "row" ++ bracedTexts (columnTexts columns)
  | rows .table columns => "table" ++ bracedTexts (columnTexts columns)
  | rows .cursor columns => "cursor(table" ++ bracedTexts (columnTexts columns) ++ ")"
  | anyRows .row => "generic row"
  | anyRows .table => "generic table"
  | anyRows .cursor => "cursor(generic table)"
  | list element => "list(" ++ element.text ++ ")"
  | anyList => "generic list"
  | any => "generic"

def columnTexts : List (String × Ty) → List String
  | [] => []
  | (name, type) :: rest => (name ++ ": " ++ type.text) :: columnTexts rest

end

/-- The heading of one row of a row, table or cursor. -/
def heading? : Ty → Option Heading
  | rows _ columns => some (some columns)
  | anyRows _ => some none
  | _ => none

def rowColumns : Ty → Columns
  | rows .row columns => columns
  | _ => []

def isRow : Ty → Bool
  | rows .row _ | anyRows .row => true
  | _ => false

end Ty

/-- The text of an optional type as messages show it. -/
def typeText (type : Option Ty) : String :=
  match type with
  | some t => t.text
  | none => "%!s(<nil>)"

end Relational
