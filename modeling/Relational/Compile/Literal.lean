import Relational.Compile.Basic

/-!
# Compiling literals
-/

namespace Relational

open Compiling

def nilLiteral (position : Position) : Plan :=
  .make (.literal .nil) (some .nil) position []

/-- The scalar type of a literal: the named one, else the one of its representation. -/
def literalType (e : Environment) (position : Position) (value : Value) (typeName : String) :
    Compiling Ty :=
  if typeName ≠ "" then return .scalar (← scalarType e position typeName)
  else match value.systemTypeName? with
    | some name => systemType position name
    | none => raise position (.typeMismatch "a literal" value.typeName)

def nativeKind : Ty → NativeKind
  | .scalar type => type.native
  | _ => .none

def compileLiteral (e : Environment) (position : Position) (value : Value) (typeName : String) :
    Compiling Plan := do
  if value.isNil ∧ typeName = "" then
    return nilLiteral position
  let type ← literalType e position value typeName
  match value.normalize (nativeKind type) with
  | .ok value => return .make (.literal value) (some type) position []
  | .error .notConvertible => raise position (.typeMismatch type.text value.toText)
  | .error (.notFinite text) => throw (.fault ("Cannot create a Decimal from " ++ text))

end Relational
