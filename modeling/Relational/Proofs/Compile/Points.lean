import Mathlib.Logic.Relation
import Relational.Compile.Statement

/-!
# The points of a compilation

While a part of a program is compiled, its own parts are compiled one after the other, each in the state
that the steps before it have left, inside the scope that is opened for it. The rules here say for each
construct which parts it comes to and in which states, whether or not the part as a whole can be compiled:
the steps before a part have to succeed, those after it need not.

The bodies of operators and the definitions of table variables that are compiled again on the way are
programs of their own, with a stack of their own.
-/

namespace Relational

open Compiling

/-- A part of a program. -/
inductive Part where
  | expr (x : Expr)
  | stmt (s : Stmt)

/-- The plan of a part. -/
def Part.compile (e : Environment) : Part → Compiling Plan
  | expr x => compileExpr e x
  | stmt s => compileStmt e s

namespace Builder

/-- The state inside a scope with symbols of its own. -/
def enter (b : Builder) (symbols : List Symbol) : Builder :=
  { b with stack := b.stack.openFrame.pushAll symbols }

/-- The state inside a window that hides all symbols. -/
def hide (b : Builder) : Builder :=
  { b with stack := b.stack.openWindow 0 }

/-- The state within one more loop or handler. -/
def within (b : Builder) (place : Enclosure) : Builder :=
  { b with nesting := b.nesting.enter place }

end Builder

/-- The part of an expression that is compiled before anything else is done. -/
def Expr.first? : Expr → Option Expr
  | .chain _ parts => if endsWithCall parts || startsWithName parts then none else parts.head?
  | .binary _ symbol left _ => (binaryOperator? symbol).map fun _ => left
  | .unary _ symbol operand => (unaryOperator? symbol).map fun _ => operand
  | .conditional _ condition _ _ => some condition
  | .case _ selector _ _ => if selector.isMissing then none else some selector
  | .restrict _ source _ | .project _ source _ | .remove _ source _ | .rename _ source _
  | .extend _ source _ | .join _ _ source _ _ => some source
  | _ => none

/-- The expression of a statement that is compiled before anything else is done. -/
def Stmt.first? : Stmt → Option Expr
  | .conditional _ condition _ _ | .while _ condition _ => some condition
  | .case _ selector _ _ => if selector.isMissing then none else some selector
  | .forEach _ _ source _ => some source
  | .raise _ error => if error.isMissing then none else some error
  | .expression _ value => some value
  | _ => none

/-- The plan of the selector of a case, if there is one. -/
def selectorPlan (e : Environment) (selector : Expr) : Compiling (Option Plan) :=
  if selector.isMissing then pure none else some <$> compileExpr e selector

/-- A truth value, with a warning if it is literal. -/
def testedCondition (e : Environment) (p : Position) (condition : Expr) (hasElse : Bool) :
    Compiling Unit := do
  let q ← asCondition e condition.position? (← compileExpr e condition)
  checkReachable p q hasElse

/-- The heading of the rows of a source. -/
def sourceHeading (e : Environment) (source : Expr) : Compiling Heading := do
  relationHeading source.position? (← compileExpr e source)

/-- The headings of the rows of both sides of a join with a condition. -/
def joinHeadings (e : Environment) (p : Position) (left right : Expr) :
    Compiling (Heading × Heading) := do
  let leftPlan ← compileExpr e left
  let rightPlan ← compileExpr e right
  let leftHeading ← relationHeading left.position? leftPlan
  let rightHeading ← relationHeading right.position? rightPlan
  disjointColumns p leftHeading.columns rightHeading.columns
  return (leftHeading, rightHeading)

/-- The type of the variable of a loop, which must be new. -/
def loopVariable (e : Environment) (p : Position) (name : String) (source : Expr) : Compiling Ty := do
  let type ← elementType source.position? (← compileExpr e source)
  checkLoopVariable p name type
  return type

/-- The type that a declaration specifies, if there is one. -/
def specifiedType (e : Environment) : TypeSpec → Compiling (Option Ty)
  | .missing => pure none
  | spec => some <$> compileType e spec

/-- The type of the error that a handler names, after the body of the statement. -/
def caughtType (e : Environment) (p : Position) (body : Stmt) (name : String) :
    Compiling (Option Ty) := do
  let _ ← inScope [] (compileStmt e body)
  errorType p name

/-- A part that is compiled while another one is, and the states from which they are. -/
inductive Enters (e : Environment) : Part → Builder → Part → Builder → Prop
  | first {b x y} (h : x.first? = some y) : Enters e (.expr x) b (.expr y) b
  /-- An argument of a call, after those before it. -/
  | argument {b b' p name before after x plans} (h : compileArguments e before b = (.ok plans, b')) :
      Enters e (.expr (.call p name (before ++ x :: after))) b (.expr x) b'
  /-- An argument of a call at the end of a chain. -/
  | chainArgument {b b' p q name parts before after x plans}
      (h : (do let _ ← chainNames p parts; compileArguments e before) b = (.ok plans, b')) :
      Enters e (.expr (.chain p (parts ++ [.call q name (before ++ x :: after)]))) b (.expr x) b'
  | rightOperand {b b' p symbol name left right plan} (hname : binaryOperator? symbol = some name)
      (h : (do requireValue left.position? (← compileExpr e left)) b = (.ok plan, b')) :
      Enters e (.expr (.binary p symbol left right)) b (.expr right) b'
  | thenValue {b b' p condition first second} (h : testedCondition e p condition true b = (.ok (), b')) :
      Enters e (.expr (.conditional p condition first second)) b (.expr first) (b'.enter [])
  | elseValue {b b' p condition first second plan} (h : (do
        testedCondition e p condition true
        inScope [] (compileExpr e first)) b = (.ok plan, b')) (hsecond : second.isMissing = false) :
      Enters e (.expr (.conditional p condition first second)) b (.expr second) (b'.enter [])
  /-- The condition of a branch of a case, after the branches before it. -/
  | caseCondition {b b' p selector last before after condition value done}
      (h : (do compileItems e (← selectorPlan e selector) none before) b = (.ok done, b')) :
      Enters e (.expr (.case p selector (before ++ (condition, value) :: after) last)) b
        (.expr condition) b'
  | caseValue {b b' p selector last before after condition value plan} (h : (do
        let s ← selectorPlan e selector
        let _ ← compileItems e s none before
        branchCondition e condition.position? s (← compileExpr e condition)) b = (.ok plan, b')) :
      Enters e (.expr (.case p selector (before ++ (condition, value) :: after) last)) b
        (.expr value) (b'.enter [])
  | caseElse {b b' p selector last items done}
      (h : (do compileItems e (← selectorPlan e selector) none items) b = (.ok done, b'))
      (hlast : last.isMissing = false) :
      Enters e (.expr (.case p selector items last)) b (.expr last) (b'.enter [])
  /-- A column of a row, after those before it. -/
  | column {b b' p spec before after name value values}
      (h : compileColumns e p [] [] before b = (.ok values, b')) (hname : name ∉ values.map Prod.fst) :
      Enters e (.expr (.row p (before ++ (name, value) :: after) spec)) b (.expr value) (b'.enter [])
  /-- A row of a table, after those before it. -/
  | row {b b' p spec before after x done}
      (h : (do compileRows e (← tableColumns? e spec) before) b = (.ok done, b')) :
      Enters e (.expr (.table p (before ++ x :: after) spec)) b (.expr x) b'
  /-- An element of a list, after those before it. -/
  | element {b b' p spec before after x done} (h : (do
        let type ← elementType? e spec
        compileElements e type.isNone type before) b = (.ok done, b')) :
      Enters e (.expr (.list p (before ++ x :: after) spec)) b (.expr x) b'
  /-- The condition of a restriction, which sees a row of the source. -/
  | restriction {b b' p source condition heading} (h : sourceHeading e source b = (.ok heading, b')) :
      Enters e (.expr (.restrict p source condition)) b (.expr condition)
        (b'.enter [Symbol.ofRow heading])
  /-- A computed column, which sees a row of the source. -/
  | computed {b b₁ b' p source value name before after heading values}
      (hheading : sourceHeading e source b = (.ok heading, b₁))
      (h : compileColumns e p [Symbol.ofRow heading] heading.columns before b₁ = (.ok values, b'))
      (hname : name ∉ heading.columns.names ++ values.map Prod.fst) :
      Enters e (.expr (.extend p source (before ++ (name, value) :: after))) b (.expr value)
        (b'.enter [Symbol.ofRow heading])
  | joinRight {b b' p kind left right condition plan} (h : compileExpr e left b = (.ok plan, b')) :
      Enters e (.expr (.join p kind left right condition)) b (.expr right) b'
  /-- The condition of a join, which sees a row of either side. -/
  | joinCondition {b b' p kind left right condition headings}
      (h : joinHeadings e p left right b = (.ok headings, b'))
      (hcondition : condition.isMissing = false) :
      Enters e (.expr (.join p kind left right condition)) b (.expr condition)
        (b'.enter [Symbol.ofRow headings.1, Symbol.ofRow headings.2])
  | firstOf {b s y} (h : s.first? = some y) : Enters e (.stmt s) b (.expr y) b
  /-- A statement of a block, after those before it. -/
  | statement {b b' p before after s plans} (h : compileBlock e before (b.enter []) = (.ok plans, b')) :
      Enters e (.stmt (.block p (before ++ s :: after))) b (.stmt s) b'
  /-- The default value of a variable, which sees nothing around it. -/
  | defaultValue {b b' p name spec default isConstant type} (hnew : b.stack.collisions name = [])
      (h : specifiedType e spec b = (.ok type, b')) (hdefault : default.isMissing = false) :
      Enters e (.stmt (.declaration p name spec default isConstant)) b (.expr default) b'.hide
  | assigned {b b' p name value target} (h : assignmentTarget e p name b = (.ok target, b')) :
      Enters e (.stmt (.assignment p name value)) b (.expr value) b'
  | thenBranch {b b' p condition first second}
      (h : testedCondition e p condition (!second.isMissing) b = (.ok (), b')) :
      Enters e (.stmt (.conditional p condition first second)) b (.stmt first) (b'.enter [])
  | elseBranch {b b' p condition first second plan} (h : (do
        testedCondition e p condition !second.isMissing
        inScope [] (compileStmt e first)) b = (.ok plan, b')) (hsecond : second.isMissing = false) :
      Enters e (.stmt (.conditional p condition first second)) b (.stmt second) (b'.enter [])
  /-- The condition of a branch of a case, after the branches before it. -/
  | branchCondition {b b' p selector condition before after branch last done}
      (h : (do compileBranches e (← selectorPlan e selector) before) b = (.ok done, b')) :
      Enters e (.stmt (.case p selector (before ++ (condition, branch) :: after) last)) b
        (.expr condition) b'
  | branch {b b' p selector condition before after branch last plan} (h : (do
        let s ← selectorPlan e selector
        let _ ← compileBranches e s before
        Relational.branchCondition e condition.position? s (← compileExpr e condition)) b =
          (.ok plan, b')) :
      Enters e (.stmt (.case p selector (before ++ (condition, branch) :: after) last)) b
        (.stmt branch) (b'.enter [])
  | lastBranch {b b' p selector items last done}
      (h : (do compileBranches e (← selectorPlan e selector) items) b = (.ok done, b'))
      (hlast : last.isMissing = false) :
      Enters e (.stmt (.case p selector items last)) b (.stmt last) (b'.enter [])
  | whileBody {b b' p condition body plan}
      (h : (do asCondition e condition.position? (← compileExpr e condition)) b = (.ok plan, b')) :
      Enters e (.stmt (.while p condition body)) b (.stmt body) ((b'.within .loop).enter [])
  /-- The body of a loop, which sees its variable. -/
  | loopBody {b b' p name source body type} (h : loopVariable e p name source b = (.ok type, b')) :
      Enters e (.stmt (.forEach p name source body)) b (.stmt body)
        ((b'.enter [{ name, type := some type }]).within .loop)
  | tryBody {b p name body handler} : Enters e (.stmt (.try p body name handler)) b (.stmt body) (b.enter [])
  /-- A handler, which sees the error if it has a name. -/
  | handler {b b' p name body handler type}
      (h : caughtType e p body name b = (.ok type, b')) (hhandler : handler.isMissing = false) :
      Enters e (.stmt (.try p body name handler)) b (.stmt handler)
        ((b'.enter (if name = "" then [] else [{ name, type }])).within .handler)

/-- The parts that are compiled while another one is, at any depth, that part included. -/
def Reaches (e : Environment) (part : Part) (b : Builder) (part' : Part) (b' : Builder) : Prop :=
  Relation.ReflTransGen (fun x y : Part × Builder => Enters e x.1 x.2 y.1 y.2) (part, b) (part', b')

namespace Reaches

variable {e : Environment} {part part₁ part₂ : Part} {b b₁ b₂ : Builder}

theorem refl : Reaches e part b part b :=
  Relation.ReflTransGen.refl

theorem enter (h : Reaches e part b part₁ b₁) (hstep : Enters e part₁ b₁ part₂ b₂) :
    Reaches e part b part₂ b₂ :=
  Relation.ReflTransGen.tail h hstep

theorem invariant {P : Part → Builder → Prop} (h : Reaches e part b part₁ b₁) (hstart : P part b)
    (hstep : ∀ part₁ b₁ part₂ b₂, Reaches e part b part₁ b₁ → Enters e part₁ b₁ part₂ b₂ →
      P part₁ b₁ → P part₂ b₂) : P part₁ b₁ := by
  have hall : ∀ last, Relation.ReflTransGen (fun x y : Part × Builder => Enters e x.1 x.2 y.1 y.2)
      (part, b) last → P last.1 last.2 := by
    intro last hlast
    induction hlast with
    | refl => exact hstart
    | tail hbefore hlast ih => exact hstep _ _ _ _ hbefore hlast ih
  exact hall (part₁, b₁) h

end Reaches

end Relational
