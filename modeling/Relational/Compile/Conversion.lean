import Relational.Compile.Basic

/-!
# Implicit conversions

A value is converted to the type that its context requires, along the best path between scalar types,
column by column or element by element otherwise.
-/

namespace Relational

open Compiling

/-- A plan with the conversions of an outcome applied to it. -/
def applyConversion (position : Position) (p : Plan) (context : ConversionContext) :
    Compiling Plan := do
  if context.isExact then
    return p
  if context.isNarrowing then
    warn position (.narrowingConversion context.source.text context.target.text)
  if context.path.isEmpty then
    return .make (.structuralConvert context) (some context.target) position [p]
  else
    return .convertAlong position context.path p

/-- A plan of the target type for the value of a plan. -/
def convert (e : Environment) (position : Option Position) (p : Plan) (target : Ty) :
    Compiling Plan := do
  match p.type with
  | none => raise (← locate position) (.typeMismatch target.text "a statement")
  | some source =>
    if source.isNil || source.isA target then
      return p
    let context ← conversionBetween e source target
    match context.check with
    | some cause => raise (← locate position) cause
    | none => applyConversion (← locate position) p context

/-- Plans of the target type for the values of plans, each at its position. -/
def convertAll (e : Environment) (target : Ty) : List (Option Position × Plan) → Compiling (List Plan)
  | [] => return []
  | (position, p) :: rest => do
    let first ← convert e position p target
    return first :: (← convertAll e target rest)

def asCondition (e : Environment) (position : Option Position) (p : Plan) : Compiling Plan := do
  convert e position p (← systemType (← locate position) "Boolean")

end Relational
