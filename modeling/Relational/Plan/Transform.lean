import Relational.Failure
import Relational.Plan.Scope

/-!
# Transforming plans

A transformation replaces nodes one by one, from the leaves up or from the root down. Every step says
whether it left its node alone. Nodes none of whose descendants changed are kept as they are, and a step
that says that it changed nothing does not replace a child.
-/

namespace Relational

/-- A computation that may fail and whose state survives a failure. -/
abbrev Visit (σ α : Type) := ExceptT Failure (StateM σ) α

/-- A plan after a transformation, and whether it is the plan there was before. -/
structure Transformed where
  plan : Plan
  isSame : Bool

namespace Transformed

def same (p : Plan) : Transformed := ⟨p, true⟩

def changed (p : Plan) : Transformed := ⟨p, false⟩

/-- What stands in place of a child: the child itself if the step left it alone. -/
def orChild (t : Transformed) (child : Plan) : Plan :=
  if t.isSame then child else t.plan

end Transformed

namespace Plan

variable {σ : Type}

/-- A node over transformed children: the node itself if none of them changed. -/
def rebuild (p : Plan) (children : List Plan) (isSame : Bool) : Visit σ Plan :=
  if isSame then return p
  else match p.withChildren children with
    | .ok p => return p
    | .error cause => throw (.cause cause)

def finish (f : Plan → Visit σ Transformed) (p : Plan) (children : List Plan) (isSame : Bool) :
    Visit σ Transformed := do
  let rebuilt ← p.rebuild children isSame
  let result ← f rebuilt
  return ⟨result.plan, isSame && result.isSame⟩

mutual

def transform (f : Plan → Visit σ Transformed) : Plan → Visit σ Transformed
  | ⟨construct, type, characteristics, position, annotations, children⟩ => do
    let (children', isSame) ← transformAll f children
    finish f ⟨construct, type, characteristics, position, annotations, children⟩ children' isSame

/-- Transforms trees in order; tells whether all of them are the same. -/
def transformAll (f : Plan → Visit σ Transformed) : List Plan → Visit σ (List Plan × Bool)
  | [] => return ([], true)
  | p :: ps => do
    let first ← transform f p
    let (rest, isSame) ← transformAll f ps
    return (first.orChild p :: rest, first.isSame && isSame)

end

mutual

/-- Transforms a tree from the root down, at most `depth` levels of it. -/
def transformDown (f : Plan → Visit σ Transformed) : (depth : Nat) → Plan → Visit σ Transformed
  | 0, p => return .same p
  | depth + 1, p => do
    let result ← f p
    let (children, isSame) ← transformDownAll f depth result.plan.children
    return ⟨← result.plan.rebuild children isSame, result.isSame && isSame⟩
termination_by depth => (depth, 0)

/-- Transforms trees from their roots down, at most `depth` levels of each. -/
def transformDownAll (f : Plan → Visit σ Transformed) (depth : Nat) :
    (plans : List Plan) → Visit σ (List Plan × Bool)
  | [] => return ([], true)
  | p :: ps => do
    let first ← transformDown f depth p
    let (rest, isSame) ← transformDownAll f depth ps
    return (first.orChild p :: rest, first.isSame && isSame)
termination_by plans => (depth, plans.length + 1)

end

/-- Transforms a tree from the root down. The step at a node comes before the steps at the children
of its result. A step must not make its node higher: levels beyond the height of the tree are left
alone. -/
def transformTopDown (f : Plan → Visit σ Transformed) (p : Plan) : Visit σ Transformed :=
  transformDown f p.height p

/-- Runs an action that may fail inside the scope of a child, which is left in either case. -/
def tryInChild {α : Type} (parent : Plan) (index : Nat) (action : Visit (Stack × σ) α) :
    Visit (Stack × σ) α := fun (stack, s) =>
  let (guard, entered) := parent.enterChild index stack
  let (result, stack, s) := action (entered, s)
  (result, (stack.release guard).1, s)

/-- A step that sees the stack as a step on the stack and the other state. -/
def withStack (f : Plan → Stack → Visit σ Transformed) (p : Plan) : Visit (Stack × σ) Transformed :=
  fun (stack, s) =>
    let (result, s) := f p stack s
    (result, stack, s)

mutual

/-- Transforms a tree from the leaves up with the stack that each node sees. -/
def transformWithStack (f : Plan → Stack → Visit σ Transformed) :
    Plan → Visit (Stack × σ) Transformed
  | ⟨construct, type, characteristics, position, annotations, children⟩ => do
    let p : Plan := ⟨construct, type, characteristics, position, annotations, children⟩
    let (children', isSame) ← transformChildrenWithStack f p 0 children
    finish (withStack f) p children' isSame

/-- Transforms the children of a node from an index on. -/
def transformChildrenWithStack (f : Plan → Stack → Visit σ Transformed) (parent : Plan) :
    Nat → List Plan → Visit (Stack × σ) (List Plan × Bool)
  | _, [] => return ([], true)
  | index, p :: ps => do
    let first ← tryInChild parent index (transformWithStack f p)
    let (rest, isSame) ← transformChildrenWithStack f parent (index + 1) ps
    return (first.orChild p :: rest, first.isSame && isSame)

end

end Plan

end Relational
