import Relational.Proofs.Compile.Recompilation

/-!
# Jumps

Leaving a loop, going on with it, and raising the error that is being handled make sense only inside the
body of a loop or inside a handler. The compiler counts the loops and handlers around a statement. The
counts are those of the plan that the statement becomes a part of: bodies that are compiled again start
at zero, and whatever fails leaves the counts as they were.
-/

namespace Relational

variable {Q : Plan → Nat → Prop} {path : List Nat}

namespace Plan

/-- The part of a plan that a path of child indices leads to. -/
def at? : Plan → List Nat → Option Plan
  | p, [] => some p
  | p, index :: path => p.children[index]?.bind fun child => child.at? path

/-- A path goes from some node on it to a certain child of the node. -/
def Passes (Q : Plan → Nat → Prop) (p : Plan) (path : List Nat) : Prop :=
  ∃ before index after node, path = before ++ index :: after ∧ p.at? before = some node ∧ Q node index

/-- Loops are left and continued only in their bodies, and errors are raised again only by handlers. -/
structure JumpsInside (p : Plan) : Prop where
  loops : ∀ path node, p.at? path = some node → node.kind = .breakLoop ∨ node.kind = .continueLoop →
    p.Passes IsLoopBody path
  handlers : ∀ path node, p.at? path = some node → node.kind = .raise → node.children = [] →
    p.Passes IsHandler path

theorem Passes.cons {p child : Plan} {idx : Nat} (hkid : p.children[idx]? = some child)
    (h : child.Passes Q path) : p.Passes Q (idx :: path) := by
  obtain ⟨before, next, after, node, rfl, hnode, hnext⟩ := h
  refine ⟨idx :: before, next, after, node, rfl, ?_, hnext⟩
  rw [at?, hkid]
  exact hnode

end Plan

/-! ### Parts of statements -/

section Parts

variable {opts : CompilerOptions} {Γ : Setting} {p : Plan}

/-- A statement in no loop or handler has jumps only inside of them, given that each jump asks for one and
that children are in no more of them. -/
theorem IsStatement.passes (count : Setting → Nat) (Jumps : Plan → Prop)
    (hjump : ∀ {Γ p}, IsStatement opts Γ p → Jumps p → 0 < count Γ)
    (hinside : ∀ {Γ p idx Γ'}, Γ.Inside p idx Γ' → Q p idx ∨ count Γ' ≤ count Γ)
    (h : IsStatement opts Γ p) (hcount : count Γ = 0) {node : Plan} (hnode : p.at? path = some node)
    (hjumps : Jumps node) : p.Passes Q path := by
  induction path generalizing Γ p with
  | nil =>
    cases hnode
    exact absurd (hjump h hjumps) (by omega)
  | cons idx path ih =>
    obtain ⟨child, hkid, hnode⟩ := Option.bind_eq_some_iff.mp hnode
    obtain ⟨Γ', hkid', hΓ, -⟩ := h.exists_of_getElem? hkid
    obtain hbody | hle := hinside hΓ
    · exact ⟨[], idx, path, p, rfl, rfl, hbody⟩
    · exact .cons hkid (ih hkid' (by omega) hnode)

theorem IsStatement.jumpsInside (h : IsStatement opts Γ p) (hnesting : Γ.nesting = {}) :
    p.JumpsInside where
  loops _ node hnode hjumps := by
    refine h.passes (·.nesting.loops) (fun p => p.kind = .breakLoop ∨ p.kind = .continueLoop) ?_
      Setting.Inside.loops (by rw [hnesting]) hnode hjumps
    intro Γ p h hjumps
    cases h with
    | expression h => exact absurd hjumps (not_or.mpr ⟨h.kind_ne.2.1, h.kind_ne.2.2.1⟩)
    | breakLoop h | continueLoop h => exact h
    | _ => rcases hjumps with hkind | hkind <;> cases hkind
  handlers _ node hnode hkind hkids := by
    refine h.passes (·.nesting.handlers) (fun p => p.kind = .raise ∧ p.children = []) ?_
      Setting.Inside.handlers (by rw [hnesting]) hnode ⟨hkind, hkids⟩
    rintro Γ p h ⟨hkind, hkids⟩
    cases h with
    | expression h => exact absurd hkind h.kind_ne.2.2.2
    | raise hnone => exact hnone (Option.toList_eq_nil_iff.mp hkids)
    | _ => cases hkind

theorem Compiler.IsBody.jumpsInside {c : Compiler} (h : c.IsBody p) : p.JumpsInside := by
  obtain ⟨-, Γ, hnesting, hp⟩ := h
  exact hp.jumpsInside hnesting

end Parts

/-! ### Programs one after another -/

namespace Builder

variable {c : Compiler} {b : Builder}

/-- A builder that has compiled any programs and expressions, whatever became of them, while the workspace
changed in any way in between. -/
inductive HasCompiled (c : Compiler) : Builder → Prop
  | start {w : Workspace} (h : w.catalog.IsKeyed) : HasCompiled c (.start c.options w)
  | program {b : Builder} (h : HasCompiled c b) (statement : Stmt) :
      HasCompiled c (build c statement b).2
  | expression {b : Builder} (h : HasCompiled c b) (expr : Expr) :
      HasCompiled c (buildExpression c expr b).2
  | change {b : Builder} (h : HasCompiled c b) {w : Workspace} (hw : w.catalog.IsKeyed) :
      HasCompiled c { b with workspace := w }

/-- A builder between two programs: it is in no loop and in no handler. -/
structure IsIdle (b : Builder) : Prop where
  keyed : b.workspace.catalog.IsKeyed
  frames : b.stack.frameCount ≤ b.stack.marks.length
  nesting : b.nesting = {}

theorem IsIdle.of_in {b' : Builder} (h : b.IsIdle) (hkeyed : b'.workspace.catalog.IsKeyed)
    (hb' : b'.In b.setting) : b'.IsIdle where
  keyed := hkeyed
  frames := hb'.frames
  nesting := (congrArg Setting.nesting hb'.setting).trans h.nesting

theorem HasCompiled.isIdle (h : HasCompiled c b) : b.IsIdle := by
  induction h with
  | start h => exact ⟨h, Nat.zero_le _, rfl⟩
  | @program b _ stmt ih =>
    refine ih.of_in ((evolves_build stmt ih.keyed).catalog.keyed ih.keyed) ?_
    have hends := ends_build c stmt ih.frames
    rcases hout : build c stmt b with ⟨_ | p, b'⟩
    all_goals rw [hout] at hends
    · obtain ⟨_, hb', rfl⟩ := hends
      exact hb'
    · obtain ⟨_, hb', rfl, -⟩ := hends
      exact hb'
  | @expression b _ expr ih =>
    refine ih.of_in ((evolves_buildExpression expr ih.keyed).catalog.keyed ih.keyed) ?_
    have hends := keeps_compileAlone (c.sound_environment (Compiler.nestingBound b)) expr b
      ⟨rfl, ih.frames⟩
    rcases hout : buildExpression c expr b with ⟨_ | p, b'⟩
    all_goals
      rw [buildExpression] at hout
      rw [hout] at hends
    · obtain ⟨_, hb', rfl⟩ := hends
      exact hb'
    · obtain ⟨_, hb', rfl, -⟩ := hends
      exact hb'
  | change _ hw ih => exact ⟨hw, ih.frames, ih.nesting⟩

/-- All jumps are inside of what they leave: in the plans of all programs that a builder compiles one after
another, and in the bodies of the operators that it compiles again on the way. -/
theorem HasCompiled.jumps_inside (h : HasCompiled c b) :
    (∀ statement p b', build c statement b = (.ok p, b') → p.JumpsInside) ∧
    ∀ w', (∃ statement, w' = (build c statement b).2.workspace) ∨
        (∃ expr, w' = (buildExpression c expr b).2.workspace) →
      ∀ op, w'.operatorState op = b.workspace.operatorState op ∨
        ∃ p, p.JumpsInside ∧ w'.operatorState op = { isDeferred := false, body := some (.plan p) } := by
  have hidle := h.isIdle
  refine ⟨fun statement p b' hbuild => ?_, fun w' hw' op => ?_⟩
  · have hends := ends_build c statement hidle.frames
    rw [hbuild] at hends
    obtain ⟨_, -, -, hp⟩ := hends
    exact hp.jumpsInside hidle.nesting
  · have hevolves : b.workspace.Evolves (c.notes b.workspace) w' := by
      obtain ⟨statement, rfl⟩ | ⟨expr, rfl⟩ := hw'
      · exact evolves_build statement hidle.keyed
      · exact evolves_buildExpression expr hidle.keyed
    refine (hevolves.states op).imp_right fun ⟨_, p, hp, hstate⟩ => ⟨p, ?_, hstate⟩
    exact Compiler.IsBody.jumpsInside hp

/-- A loop that is left at once, and a jump that is not inside of a loop. -/
def jumpingProgram (condition : Expr) : Stmt :=
  .block .none
    [.while .none condition
      (.block .none
        [.expression .none (.call .none "f" []), .try .none (.break .none) "" (.raise .none .missing)]),
      .break .none]

/-- The compiler of operators whose body is a loop that is left at once. -/
def loopCompiler : Compiler where
  store := some (.memory { entries := [("f", "f", [])] })
  parse := some fun name => .ok
    { position := .none, name, parameters := [], returnType := .missing,
      body := .while .none (.literal .none (.boolean true) "") (.break .none) }

/-- A workspace with truth values and an operator `f` that has not been compiled. -/
def loopWorkspace : Workspace where
  catalog :=
    { objects :=
        [("System.Boolean", .scalarType { serial := 1, name := "System.Boolean", native := .boolean })]
      operators := [("f", { name := "f", operators := [Compiler.idleOperator] })] }
  session := some {}
  operatorStates := [(1, { isDeferred := true })]

/-- The kinds of the nodes of the body that an operator has been compiled to. -/
def bodyKinds (state : OperatorState) : List PlanKind :=
  match state.body with
  | some (.plan p) => p.nodes.map (·.kind)
  | _ => []

/-- After a loop that cannot be compiled, a jump outside of loops is refused like any other. Inside of a
loop it is compiled, and so is the operator that is called there. -/
theorem HasCompiled.jumps_inside_loop :
    let b := (build loopCompiler (jumpingProgram (.identifier .none "X")) (.start {} loopWorkspace)).2
    let run := build loopCompiler (jumpingProgram (.literal .none (.boolean true) "")) b
    HasCompiled loopCompiler b ∧ b.messages.length = 2 ∧
    (∃ p, run.1 = .ok p ∧ p.JumpsInside ∧ p.nodes.map (·.kind) =
      [.block, .whileLoop, .literal, .block, .call, .tryHandler, .breakLoop, .raise, .noOp]) ∧
    ∃ p, p.JumpsInside ∧ p.nodes.map (·.kind) = [.whileLoop, .literal, .breakLoop] ∧
      run.2.workspace.operatorState Compiler.idleOperator =
        { isDeferred := false, body := some (.plan p) } := by
  intro b run
  have hcompiled : HasCompiled loopCompiler b :=
    .program (.start (by simp [Catalog.IsKeyed, loopWorkspace, CatalogObject.name])) _
  have hkinds : (run.1.toOption.map fun p => p.nodes.map (·.kind)) =
      some [.block, .whileLoop, .literal, .block, .call, .tryHandler, .breakLoop, .raise, .noOp] := by
    decide +kernel
  have hbody : bodyKinds (b.workspace.operatorState Compiler.idleOperator) = [] ∧
      bodyKinds (run.2.workspace.operatorState Compiler.idleOperator) =
        [.whileLoop, .literal, .breakLoop] := by
    decide +kernel
  obtain ⟨hplan, hoperators⟩ := HasCompiled.jumps_inside hcompiled
  refine ⟨hcompiled, by decide +kernel, ?_, ?_⟩
  · rcases hrun : run with ⟨_ | p, b'⟩ <;> rw [hrun] at hkinds
    · cases hkinds
    · exact ⟨p, rfl, hplan _ p b' hrun, Option.some.inj hkinds⟩
  · obtain hsame | ⟨p, hp, hstate⟩ := hoperators run.2.workspace (.inl ⟨_, rfl⟩) Compiler.idleOperator
    · rw [hsame, hbody.1] at hbody
      cases hbody.2
    · rw [hstate] at hbody
      exact ⟨p, hp, hbody.2, hstate⟩

end Builder

end Relational
