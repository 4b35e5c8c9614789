import Relational.Plan.Node

/-!
# Scopes of plans

Some nodes bring symbols into the scope of some of their children: the rows of a source for conditions
and computed columns, the variable of a loop for its body, an error for its handler, the variables of a
block for the statements after them. The default value of a variable sees nothing around it.
-/

namespace Relational

namespace Plan

/-- The symbol for the rows of a node, if it is relational. -/
def rowSymbols (p : Plan) : List Symbol :=
  (p.heading?.map Symbol.ofRow).toList

def declaredSymbol? (p : Plan) : Option Symbol :=
  match p.construct with
  | .variable_ name type isConstant => some { name, type, isConstant }
  | _ => none

/-- The symbols that a child sees on top of what its parent sees, the last one innermost. -/
def childScope (p : Plan) (index : Nat) : List Symbol :=
  match p.construct, p.children, index with
  | .block, children, _ => (children.take index).filterMap declaredSymbol?
  | .forEach name type, _, 1 => [{ name, type }]
  | .tryHandler name errorType, _, 1 => if name = "" then [] else [{ name, type := errorType }]
  | .restrict _, source :: _, 1 => source.rowSymbols
  | .extend _ _, source :: _, _ + 1 => source.rowSymbols
  | .join _ _, left :: right :: _, 2 => left.rowSymbols ++ right.rowSymbols
  | _, _, _ => []

/-- Whether the children see nothing of what their parent sees. -/
def isWindowed (p : Plan) : Bool :=
  match p.construct with
  | .variable_ .. => true
  | _ => false

/-- Opens the scope of a child: a window if it sees nothing around it, else a frame, with the symbols
that its parent brings into scope. -/
def enterChild (p : Plan) (index : Nat) (stack : Stack) : Guard × Stack :=
  let (guard, stack) :=
    if p.isWindowed then (stack.guard true, stack.openWindow 0) else stack.pushFrame
  (guard, stack.pushAll (p.childScope index))

end Plan

end Relational
