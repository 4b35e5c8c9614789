import Relational.Compile.Basic

/-!
# Compiling type specifiers
-/

namespace Relational

open Compiling

def genericType? (kind : String) : Option Ty :=
  match Text.lower kind with
  | "" => some .any
  | "scalar" => some (.scalar .any)
  | "row" => some (.anyRows .row)
  | "table" => some (.anyRows .table)
  | "list" => some .anyList
  | _ => none

mutual

def compileType (e : Environment) : TypeSpec → Compiling Ty
  | .missing => throw .absent
  | .named p name => return .scalar (← scalarType e p name)
  | .rows form p columns => return .rows form (← compileColumnTypes e p [] columns)
  | .list _ element => return .list (← compileType e element)
  | .generic p kind =>
    match genericType? kind with
    | some type => return type
    | none => raise p (.unknownIdentifier ("generic " ++ kind) "")
  | .other p => raise p (.internal "unknown type specifier")

/-- The columns of a specifier after those that are done; no two may have one name. -/
def compileColumnTypes (e : Environment) (p : Position) (done : Columns) :
    List (String × TypeSpec) → Compiling Columns
  | [] => return done
  | (name, spec) :: rest => do
    if done.has name then
      raise p (.duplicateIdentifier name [name])
    else
      let type ← compileType e spec
      compileColumnTypes e p (done ++ [(name, type)]) rest

end

/-- The types that two branches share, one of them converted to the other if need be. -/
def unify (e : Environment) (position : Option Position) (left right : Option Ty) :
    Compiling (Option Ty) :=
  match left, right with
  | none, right => return right
  | some l, none => return if l.isNil then none else some l
  | some l, some r => do
    if l.isNil then return some r
    else if r.isNil || r.isA l then return some l
    else if l.isA r then return some r
    else if (← conversionBetween e r l).canConvert then return some l
    else if (← conversionBetween e l r).canConvert then return some r
    else raise (← locate position) (.typeMismatch l.text r.text)

end Relational
