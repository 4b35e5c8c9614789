import Relational.Text.Quoted

/-!
# Causes of errors and warnings

Every error of the compiler has a cause: the rule that was broken together with the names, types and
texts that the message about it shows. Each cause is of one kind, and each kind has a fixed code.
-/

namespace Relational

/-- The kinds of errors and, last, of warnings. -/
inductive ErrorKind where
  | unknownIdentifier | ambiguousIdentifier | unresolvedQualifier | unknownColumn
  | noConversion | ambiguousConversion | columnConversion
  | noSignatureForArity | ambiguousOperatorCall | noOperatorMatch | unknownOperator
  | invalidContext | duplicateIdentifier | typeMismatch | missingType | constantAssignment
  | optimizerPass | unknownDevice | declarationNotFound | circularRecompile | invalidConfig
  | internal | invalidChildrenNumber
  | narrowingConversion | shadowedIdentifier | deprecatedOperator | unreachableBranch
  | redundantConstruct
deriving Repr, DecidableEq

/-- The code of a kind, the same in every release: names from 1001, conversions from 1101, operators
from 1201, statements from 1301, plans from 1401, recompilation from 1501, configuration from 1601,
the compiler itself from 1901, warnings from 2001. -/
def ErrorKind.code : ErrorKind → Nat
  | unknownIdentifier => 1001
  | ambiguousIdentifier => 1002
  | unresolvedQualifier => 1003
  | unknownColumn => 1004
  | noConversion => 1101
  | ambiguousConversion => 1102
  | columnConversion => 1103
  | noSignatureForArity => 1201
  | ambiguousOperatorCall => 1202
  | noOperatorMatch => 1203
  | unknownOperator => 1204
  | invalidContext => 1301
  | duplicateIdentifier => 1302
  | typeMismatch => 1303
  | missingType => 1304
  | constantAssignment => 1305
  | optimizerPass => 1401
  | unknownDevice => 1402
  | declarationNotFound => 1501
  | circularRecompile => 1502
  | invalidConfig => 1601
  | internal => 1901
  | invalidChildrenNumber => 1902
  | narrowingConversion => 2001
  | shadowedIdentifier => 2002
  | deprecatedOperator => 2003
  | unreachableBranch => 2004
  | redundantConstruct => 2005

/-- What went wrong, or what a warning is about. -/
inductive Cause where
  | unknownIdentifier (name suggestion : String)
  | ambiguousIdentifier (name : String) (candidates : List String)
  | unresolvedQualifier (name : String)
  | unknownColumn (type column : String)
  | noConversion (source target details : String)
  | ambiguousConversion (source target : String) (candidates : List String)
  | columnConversion (column reason : String)
  | noSignatureForArity (operator : String) (arity : Int)
  | ambiguousOperatorCall (operator arguments : String) (overloads : List String)
  | noOperatorMatch (operator arguments details : String)
  | unknownOperator (name suggestion : String)
  | invalidContext (construct place : String)
  | duplicateIdentifier (name : String) (conflicts : List String)
  | duplicateDeclaration (name existing : String)
  | typeMismatch (expected found : String)
  | missingType (construct : String)
  | constantAssignment (name : String)
  | optimizerPass (pass reason : String)
  | unknownDevice (name : String)
  | declarationNotFound (name : String)
  | circularRecompile (name : String)
  | invalidConfig (reason : String)
  | internal (reason : String)
  | invalidChildrenNumber (node : String) (given expected : Int)
  | narrowingConversion (source target : String)
  | shadowedIdentifier (name : String) (shadowed : List String)
  | deprecatedOperator (operator : String)
  | unreachableBranch (branch : String)
  | redundantConstruct (construct : String)
deriving Repr, DecidableEq

namespace Cause

open Text

/-- The kind of a cause. A declaration that exists already is a duplicate identifier too. -/
def kind : Cause → ErrorKind
  | unknownIdentifier .. => .unknownIdentifier
  | ambiguousIdentifier .. => .ambiguousIdentifier
  | unresolvedQualifier .. => .unresolvedQualifier
  | unknownColumn .. => .unknownColumn
  | noConversion .. => .noConversion
  | ambiguousConversion .. => .ambiguousConversion
  | columnConversion .. => .columnConversion
  | noSignatureForArity .. => .noSignatureForArity
  | ambiguousOperatorCall .. => .ambiguousOperatorCall
  | noOperatorMatch .. => .noOperatorMatch
  | unknownOperator .. => .unknownOperator
  | invalidContext .. => .invalidContext
  | duplicateIdentifier .. => .duplicateIdentifier
  | duplicateDeclaration .. => .duplicateIdentifier
  | typeMismatch .. => .typeMismatch
  | missingType .. => .missingType
  | constantAssignment .. => .constantAssignment
  | optimizerPass .. => .optimizerPass
  | unknownDevice .. => .unknownDevice
  | declarationNotFound .. => .declarationNotFound
  | circularRecompile .. => .circularRecompile
  | invalidConfig .. => .invalidConfig
  | internal .. => .internal
  | invalidChildrenNumber .. => .invalidChildrenNumber
  | narrowingConversion .. => .narrowingConversion
  | shadowedIdentifier .. => .shadowedIdentifier
  | deprecatedOperator .. => .deprecatedOperator
  | unreachableBranch .. => .unreachableBranch
  | redundantConstruct .. => .redundantConstruct

def message : Cause → String
  | unknownIdentifier name suggestion => "unknown identifier " ++ quote name ++ suggestion
  | ambiguousIdentifier name candidates =>
    "ambiguous identifier " ++ quote name ++ ", could be any of: " ++ bracketed candidates
  | unresolvedQualifier name => "unable to resolve qualifier " ++ quote name
  | unknownColumn type column => type ++ " does not have a column named " ++ quote column
  | noConversion source target details =>
    "no conversion from " ++ source ++ " to " ++ target ++ details
  | ambiguousConversion source target candidates =>
    "ambiguous conversion from " ++ source ++ " to " ++ target ++ ", candidates: " ++
      bracketed candidates
  | columnConversion column reason => "column " ++ quote column ++ ": " ++ reason
  | noSignatureForArity operator arity =>
    "no signature of operator " ++ quote operator ++ " takes " ++ toString arity ++ " arguments"
  | ambiguousOperatorCall operator arguments overloads =>
    "ambiguous call to " ++ operator ++ arguments ++ ", matching overloads: " ++
      bracketed overloads
  | noOperatorMatch operator arguments details =>
    "no overload of " ++ operator ++ " matches " ++ arguments ++ details
  | unknownOperator name suggestion => "unknown operator " ++ quote name ++ suggestion
  | invalidContext construct place => construct ++ " is not allowed " ++ place
  | duplicateIdentifier name conflicts =>
    "duplicate identifier " ++ quote name ++ ", conflicts with " ++ bracketed conflicts
  | duplicateDeclaration name existing =>
    "duplicate identifier " ++ quote name ++ ", conflicts with " ++ existing
  | typeMismatch expected found => "expected a value of type " ++ expected ++ ", found " ++ found
  | missingType construct => "cannot determine the type of " ++ quote construct
  | constantAssignment name => "cannot assign to constant " ++ quote name
  | optimizerPass pass reason => "optimizer pass " ++ pass ++ " failed: " ++ reason
  | unknownDevice name => "unknown device " ++ quote name
  | declarationNotFound name => "no declaration stored for " ++ quote name
  | circularRecompile name => "circular recompilation of " ++ quote name
  | invalidConfig reason => "invalid configuration: " ++ reason
  | internal reason => "internal compiler error: " ++ reason
  | invalidChildrenNumber node given expected =>
    node ++ ": invalid children number, got " ++ toString given ++ ", expected " ++
      toString expected
  | narrowingConversion source target => "narrowing conversion from " ++ source ++ " to " ++ target
  | shadowedIdentifier name shadowed =>
    "identifier " ++ quote name ++ " shadows " ++ bracketed shadowed
  | deprecatedOperator operator => "operator " ++ operator ++ " is deprecated"
  | unreachableBranch branch => branch ++ " branch is never taken"
  | redundantConstruct construct => "redundant " ++ construct

end Cause

end Relational
