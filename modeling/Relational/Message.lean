import Relational.Failure

/-!
# Messages

Compilation collects messages: failures with a severity, a code and a position.
-/

namespace Relational

/-- How grave a message is; graver messages have higher levels. -/
structure Severity where
  level : Nat
deriving Repr, DecidableEq

namespace Severity

def information : Severity := ⟨0⟩

def warning : Severity := ⟨1⟩

def error : Severity := ⟨2⟩

def fatal : Severity := ⟨3⟩

def text (s : Severity) : String :=
  match s.level with
  | 0 => "info"
  | 1 => "warning"
  | 2 => "error"
  | 3 => "fatal"
  | _ => "unknown"

end Severity

/-- A message of the compiler. -/
structure Message where
  severity : Severity
  code : Nat
  failure : Failure
  position : Position

namespace Message

def isError (m : Message) : Bool :=
  Severity.error.level ≤ m.severity.level

def isFatal (m : Message) : Bool :=
  Severity.fatal.level ≤ m.severity.level

def isWarning (m : Message) : Bool :=
  m.severity == Severity.warning

/-- Severity, code, position if known, and text of a message. -/
def text (m : Message) : String :=
  let place := if m.position.isKnown then " (" ++ m.position.text ++ ")" else ""
  m.severity.text ++ " " ++ toString m.code ++ place ++ ": " ++ m.failure.message

def toFailure (m : Message) : Failure :=
  .located m.failure m.position (m.severity == Severity.fatal)

end Message

/-- The messages of a compilation, in the order they were recorded. -/
abbrev Messages := List Message

namespace Messages

/-- Messages for the parts of a failure: at its own position if it has a known one, at least fatal if
it is marked so. -/
def ofFailure (severity : Severity) (f : Failure) (position : Position) : Messages :=
  let place := match f with
    | .located _ p _ => if p.isKnown then p else position
    | _ => position
  let grade := if f.isFatal && severity.level < Severity.fatal.level then Severity.fatal else severity
  f.unlocated.flatten.map fun part => ⟨grade, part.code, part, place⟩

def add (ms : Messages) (severity : Severity) (f : Failure) (position : Position) : Messages :=
  ms ++ ofFailure severity f position

def addError (ms : Messages) (f : Failure) : Messages :=
  ms.add .error f .none

def warn (ms : Messages) (f : Failure) (position : Position) : Messages :=
  ms.add .warning f position

def errors (ms : Messages) : Messages :=
  ms.filter Message.isError

def warnings (ms : Messages) : Messages :=
  ms.filter Message.isWarning

def hasErrors (ms : Messages) : Bool :=
  ms.any Message.isError

/-- Whether there is a fatal message among the messages. -/
def hasFatal (ms : Messages) : Bool :=
  ms.any Message.isFatal

/-- The errors as one failure, none when there is no error. -/
def failure? (ms : Messages) : Option Failure :=
  Failure.ofParts ((ms.errors).map Message.toFailure)

end Messages

end Relational
