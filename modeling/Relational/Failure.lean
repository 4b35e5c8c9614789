import Relational.Cause
import Relational.Position

/-!
# Failures

A failure is a cause, possibly with the source position of what failed and a mark that compilation
cannot go on, or several failures at once. Texts reported by parts outside the compiler are failures of
no kind.
-/

namespace Relational

/-- What an operation reports when it does not succeed. -/
inductive Failure where
  | plain (text : String)
  | cause (cause : Cause)
  | located (inner : Failure) (position : Position) (isFatal : Bool)
  | several (parts : List Failure)

namespace Failure

instance : Inhabited Failure := ⟨plain ""⟩

instance : Coe Cause Failure := ⟨cause⟩

mutual

/-- The text of a failure: a known position stands in front, parts are separated by semicolons. -/
def message : Failure → String
  | plain text => text
  | cause c => c.message
  | located inner position _ =>
    if position.isKnown then position.text ++ ": " ++ inner.message else inner.message
  | several parts => "; ".intercalate (messages parts)

def messages : List Failure → List String
  | [] => []
  | f :: fs => f.message :: messages fs

end

/-- The failure at a position; one that has a position keeps it. -/
def at_ (f : Failure) (position : Position) : Failure :=
  match f with
  | located .. => f
  | _ => located f position false

/-- The failure at a position, marked as one after which compilation cannot go on. -/
def fatal (f : Failure) (position : Position) : Failure :=
  match f with
  | located inner p _ => located inner p true
  | _ => located f position true

/-- Whether compilation cannot go on after the failure. -/
def isFatal : Failure → Bool
  | located _ _ fatal => fatal
  | _ => false

/-- The parts of a failure, of which there is at least one; a failure that is not several is its own only
part. -/
def flatten : Failure → List Failure
  | several (part :: parts) => part :: parts
  | f => [f]

/-- Failures as one failure, none when there is none. -/
def ofParts : List Failure → Option Failure
  | [] => none
  | [f] => some f
  | fs => some (several fs)

def append (left : Option Failure) (right : Failure) : Failure :=
  match left with
  | none => right
  | some left => several (left.flatten ++ right.flatten)

/-- The kind of the cause of a failure, looking through positions. -/
def kind? : Failure → Option ErrorKind
  | cause c => some c.kind
  | located inner _ _ => inner.kind?
  | plain _ | several _ => none

/-- Whether the failure is of a kind, looking through positions. -/
def isKind (f : Failure) (kind : ErrorKind) : Bool :=
  f.kind? == some kind

def unlocated : Failure → Failure
  | located inner _ _ => inner
  | f => f

/-- The code of the kind of a failure, looking through its own position only; zero when there is no
kind to be seen. -/
def code (f : Failure) : Nat :=
  match f.unlocated with
  | cause c => c.kind.code
  | _ => 0

end Failure

end Relational
