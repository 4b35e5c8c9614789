import Relational.Cause
import Relational.Type

/-!
# The symbol stack

While a tree is compiled, its local variables and the rows whose columns are in scope are kept on a
stack of symbols. Frames delimit scopes: closing a frame removes the symbols pushed since it was opened.
Windows hide the symbols below them, except as many of the topmost ones as were asked for, so that a
part can be compiled without seeing what surrounds it.

Frames and windows are closed through guards. A guard acts once; a guard that is released when the
frames or windows opened after it are still open is an internal error.
-/

namespace Relational

/-- An entry of the symbol stack. A symbol without a name is a row whose columns are in scope. -/
structure Symbol where
  name : String := ""
  type : Option Ty
  isConstant : Bool := false
  isModified : Bool := false

namespace Symbol

def ofRow (heading : Heading) : Symbol :=
  { type := some (heading.toTy .row) }

def text (s : Symbol) : String :=
  if s.name = "" then "<row " ++ typeText s.type ++ ">" else s.name ++ ": " ++ typeText s.type

def columns (s : Symbol) : Columns :=
  match s.type with
  | some type => type.rowColumns
  | none => []

end Symbol

/-- What decides between several visible names that differ by case only. -/
inductive CollisionPolicy where
  | ambiguous | preferExact
deriving Repr, DecidableEq

/-- The symbol stack, topmost symbol first. `marks` holds the depths at which frames were opened, of
which the first `frameCount` are open; `windows` holds the lowest visible depth of each open window,
innermost first; `maxDepth` is the greatest number of symbols the stack ever held. -/
structure Stack where
  policy : CollisionPolicy := .ambiguous
  symbols : List Symbol := []
  marks : List Nat := []
  frameCount : Nat := 0
  windows : List Nat := []
  maxDepth : Nat := 0

/-- What releases a frame or a window: the numbers of symbols, frames and windows before it was
opened. -/
structure Guard where
  depth : Nat
  frames : Nat
  windows : Nat
  isWindow : Bool
  isReleased : Bool := false
deriving Repr, DecidableEq

namespace Stack

def depth (s : Stack) : Nat :=
  s.symbols.length

/-- The depths at which the open frames were opened, outermost first. -/
def frames (s : Stack) : List Nat :=
  s.marks.take s.frameCount

def base (s : Stack) : Nat :=
  s.windows.headD 0

def visible (s : Stack) : List Symbol :=
  s.symbols.take (s.depth - s.base)

def push (s : Stack) (symbol : Symbol) : Stack :=
  { s with
    symbols := symbol :: s.symbols
    maxDepth := max s.maxDepth (s.depth + 1) }

/-- The stack with more symbols on top, the last one topmost. -/
def pushAll (s : Stack) (symbols : List Symbol) : Stack :=
  symbols.foldl push s

/-- The depth below which no symbol is popped: that of the innermost frame or window. -/
def floor (s : Stack) : Nat :=
  max s.base ((s.frames.getLast?).getD 0)

/-- The topmost symbol and the stack without it; a symbol of an enclosing scope is not popped. -/
def pop (s : Stack) : Except Cause (Symbol × Stack) :=
  match s.symbols with
  | [] => .error (.internal "symbol stack underflow")
  | top :: rest =>
    if s.depth ≤ s.floor then .error (.internal "symbol stack underflow")
    else .ok (top, { s with symbols := rest })

def peek (s : Stack) (index : Nat) : Option Symbol :=
  s.symbols[index]?

/-- The stack with the symbol at a distance from the top changed. -/
def modify (s : Stack) (index : Nat) (change : Symbol → Symbol) : Stack :=
  { s with symbols := s.symbols.modify index change }

/-- The guard of the frame or window that is opened next. -/
def guard (s : Stack) (isWindow : Bool) : Guard :=
  { depth := s.depth, frames := s.frameCount, windows := s.windows.length, isWindow }

/-- The stack with a frame opened at its present depth. -/
def openFrame (s : Stack) : Stack :=
  { s with
    marks := s.marks.take s.frameCount ++ s.depth :: s.marks.drop (s.frameCount + 1)
    frameCount := s.frameCount + 1 }

def pushFrame (s : Stack) : Guard × Stack :=
  (s.guard false, s.openFrame)

/-- The stack with a window opened that leaves only the topmost `extra` symbols visible. -/
def openWindow (s : Stack) (extra : Nat) : Stack :=
  { s.openFrame with windows := (s.depth - extra) :: s.windows }

/-- Opens a scope in which only the topmost `extra` symbols stay visible. -/
def pushWindow (s : Stack) (extra : Int) : Except Cause (Guard × Stack) :=
  if extra < 0 ∨ s.depth < extra then
    .error (.internal ("invalid window depth " ++ toString extra))
  else .ok (s.guard true, s.openWindow extra.toNat)

/-- The stack cut back to a number of symbols and frames. -/
def truncate (s : Stack) (depth frames : Nat) : Stack :=
  { s with symbols := s.symbols.drop (s.depth - depth), frameCount := frames }

/-- Closes the frame or window of a guard, removing every symbol pushed since. A guard acts once, also
when it is refused because later scopes are still open. -/
def release (s : Stack) (g : Guard) : Stack × Guard × Option Cause :=
  let released := { g with isReleased := true }
  let close := fun (s : Stack) =>
    if s.depth < g.depth then
      (s, released, some (.internal ("symbol stack depth " ++ toString s.depth ++
        " below frame depth " ++ toString g.depth)))
    else (s.truncate g.depth g.frames, released, none)
  if g.isReleased then (s, g, none)
  else if g.isWindow then
    if s.windows.length ≠ g.windows + 1 then
      (s, released, some (.internal "unbalanced symbol stack window"))
    else close { s with windows := s.windows.tail }
  else if s.frameCount ≠ g.frames + 1 then
    (s, released, some (.internal "unbalanced symbol stack frame"))
  else close s

/-- The text of the stack, a line for each symbol, topmost first. -/
def text (s : Stack) : String :=
  String.join (s.symbols.zipIdx.map fun (symbol, index) =>
    toString index ++ ": " ++ symbol.text ++ "\n")

end Stack

end Relational
