import Relational.Plan.Scope

/-!
# Walking through plans

Plans are inspected in pre-order. An inspection is cut short at the first node at which it is told to
stop; a walk only leaves out what is below such a node. With a symbol stack, every node is inspected with
the stack as it was when the node was compiled.
-/

namespace Relational

namespace Plan

variable {σ : Type}

mutual

/-- Inspects a node and, if told to go on, its children; tells whether the inspection went through. -/
def inspect (f : Plan → StateM σ Bool) : Plan → StateM σ Bool
  | ⟨construct, type, characteristics, position, annotations, children⟩ => do
    if ← f ⟨construct, type, characteristics, position, annotations, children⟩ then
      inspectAll f children
    else return false

def inspectAll (f : Plan → StateM σ Bool) : List Plan → StateM σ Bool
  | [] => return true
  | p :: ps => do
    if ← inspect f p then inspectAll f ps else return false

end

def inChild {α : Type} (parent : Plan) (index : Nat) (action : StateM (Stack × σ) α) :
    StateM (Stack × σ) α := fun (stack, s) =>
  let (guard, entered) := parent.enterChild index stack
  let (result, stack, s) := action (entered, s)
  (result, (stack.release guard).1, s)

mutual

/-- Inspects nodes with the stack that each of them sees. -/
def inspectWithStack (f : Plan → Stack → StateM σ Bool) : Plan → StateM (Stack × σ) Bool
  | ⟨construct, type, characteristics, position, annotations, children⟩ => fun (stack, s) =>
    let p : Plan := ⟨construct, type, characteristics, position, annotations, children⟩
    match f p stack s with
    | (true, s) => inspectChildrenWithStack f p 0 children (stack, s)
    | (false, s) => (false, stack, s)

/-- Inspects the children of a node from an index on. -/
def inspectChildrenWithStack (f : Plan → Stack → StateM σ Bool) (parent : Plan) :
    Nat → List Plan → StateM (Stack × σ) Bool
  | _, [] => return true
  | index, p :: ps => do
    if ← inChild parent index (inspectWithStack f p) then
      inspectChildrenWithStack f parent (index + 1) ps
    else return false

end

mutual

/-- Visits a node and, if told to go on, its children, followed by a visit without a node. -/
def walk (visit : Option Plan → StateM σ Bool) : Plan → StateM σ Unit
  | ⟨construct, type, characteristics, position, annotations, children⟩ => do
    if ← visit (some ⟨construct, type, characteristics, position, annotations, children⟩) then
      walkAll visit children
      let _ ← visit none

def walkAll (visit : Option Plan → StateM σ Bool) : List Plan → StateM σ Unit
  | [] => return ()
  | p :: ps => do
    walk visit p
    walkAll visit ps

end

mutual

def nodes : Plan → List Plan
  | ⟨construct, type, characteristics, position, annotations, children⟩ =>
    ⟨construct, type, characteristics, position, annotations, children⟩ :: nodesAll children

def nodesAll : List Plan → List Plan
  | [] => []
  | p :: ps => p.nodes ++ nodesAll ps

end

def collect (f : Plan → Bool) (p : Plan) : List Plan :=
  p.nodes.filter f

/-- The table variables that a plan reads, in pre-order. -/
def tableVars (p : Plan) : List TableVar :=
  p.nodes.filterMap fun node =>
    match node.construct with
    | .tableVarReference tv => some tv
    | _ => none

end Plan

end Relational
