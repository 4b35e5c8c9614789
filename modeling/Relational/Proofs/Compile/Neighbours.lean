import Relational.Proofs.Compile.Course

/-!
# Neighbours of a failed statement

A statement of a block that fails is recorded, and nothing is evaluated in its place. The other statements
are compiled as if it were not there: to the same plans and with the same messages, whatever scopes the
failed statement opened and whatever it declared, marked or recorded.

This is so in a quiet workspace and without a default device, where no statement changes what later ones
are resolved against.
-/

namespace Relational

open Compiling List

/-- The outcome of a block of some statements, and the outcome without the one at an index, which fails
at a position and adds messages of its own after the first ones. The other plans and messages are the
same, and nothing is evaluated in place of the statement. If the block is given up, it is given up in the
same way without the statement. -/
structure Undisturbed (p : Position) (count i : Nat) (position : Position) (first own : Messages)
    (outcome without : Except Abort Plan × Builder) : Prop where
  messages : ∃ later, outcome.2.messages = first ++ own ++ later ∧
    without.2.messages = first ++ later
  result : (∃ plans, plans.length = count ∧ plans[i]? = some (.noOp position) ∧
      outcome.1 = .ok (.make .block none p plans) ∧
        without.1 = .ok (.make .block none p (plans.eraseIdx i))) ∨
    ∃ abort, outcome.1 = .error abort ∧ without.1 = .error abort

section Blocks

variable {e : Environment} {first ps : List Plan} {abort : Abort}
  {before stmts after ss : List Stmt} {pos : Position} (p : Position)

variable {b b₁ b' b₂ : Builder}

theorem compileBlock_append (before after : List Stmt) : compileBlock e (before ++ after) = do
      let first ← compileBlock e before
      return first ++ (← compileBlock e after) := by
  induction before with
  | nil => simp [compileBlock]
  | cons s before ih => simp [compileBlock, ih]

theorem compileBlock_append_apply {res : Except Abort (List Plan)}
    (h : compileBlock e before b = (.ok first, b₁)) (hafter : compileBlock e after b₁ = (res, b₂)) :
    compileBlock e (before ++ after) b = (res.map (first ++ ·), b₂) := by
  rw [compileBlock_append, bind_apply, h]
  dsimp only
  rw [bind_apply, hafter]
  cases res <;> rfl

theorem compileBlock_append_of_error (h : compileBlock e before b = (.error abort, b'))
    (after : List Stmt) : compileBlock e (before ++ after) b = (.error abort, b') := by
  rw [compileBlock_append, bind_apply, h]

theorem compileBlock_concat_apply {s : Stmt} {res : Except Abort Plan}
    (h : compileBlock e before b = (.ok first, b₁))
    (hs : safely s.position? (compileStmt e s) b₁ = (res, b₂)) :
    compileBlock e (before ++ [s]) b = (res.map fun q => first ++ [q], b₂) := by
  have hlast : compileBlock e [s] b₁ = (res.map fun q => [q], b₂) := by
    rw [compileBlock, bind_apply, hs]
    cases res <;> rfl
  rw [compileBlock_append_apply h hlast]
  cases res <;> rfl

theorem safely_of_error {action : Compiling Plan} (h : action b = (.error abort, b'))
    (hfatal : (abort.toFailure pos).isFatal = false) (hdepth : b'.stack.depth = b.stack.depth) :
    safely (some pos) action b = (if b'.workspace.session.isSome then .ok (.noOp pos) else .error .absent,
        { b' with messages := b'.messages ++ .ofRecord (abort.toFailure pos) pos }) := by
  unfold safely
  simp only [h, hfatal, hdepth, Bool.false_eq_true, if_false, ne_eq, not_true]
  exact record_bind_apply pos _ _ b'

theorem length_of_compileBlock (h : compileBlock e ss b = (.ok ps, b')) : ps.length = ss.length := by
  induction ss generalizing ps b with
  | nil =>
    cases h
    rfl
  | cons s ss ih =>
    obtain ⟨p, b₁, -, hnext⟩ := exists_of_bind_ok h
    obtain ⟨rest, b₂, hrest, hps⟩ := exists_of_bind_ok hnext
    cases hps
    rw [length_cons, length_cons, ih hrest]

section States

variable {w : Workspace} {policy : CollisionPolicy} {Γ : Setting}

/-- A block ends with the plans of its statements, in the state in which it started but for messages. -/
theorem compileStmt_block_apply {res : Except Abort (List Plan)} {more : List Symbol}
    (h : b.At w policy Γ) (hrun : compileBlock e stmts { b with stack := b.stack.openFrame } = (res, b'))
    (h' : b'.At w policy ((Γ.enter []).push more)) :
    ∃ b'', compileStmt e (.block p stmts) b = (res.map (Plan.make .block none p), b'') ∧
      b''.messages = b'.messages := by
  have hplan : (do return .make .block none p (← compileBlock e stmts) : Compiling Plan)
      { b with stack := b.stack.openFrame } = (res.map (.make .block none p), b') := by
    rw [bind_apply, hrun]
    cases res <;> rfl
  refine ⟨{ b' with stack := (b'.stack.release (b.stack.guard false)).1 }, ?_, rfl⟩
  refine (congrArg (leaveScope (b.stack.guard false)) hplan).trans ?_
  rw [leaveScope_eq, (h.leaveFrame h').1]
  rfl

theorem Builder.At.of_failure {s : Stmt} (h : b.At w policy Γ) (hs : e.Sound)
    (hsteady : Steady w policy (compileStmt e s)) (hfail : compileStmt e s b = (.error abort, b')) :
    b'.At w policy Γ ∧ ∃ new, b'.messages = b.messages ++ new := by
  obtain ⟨-, ⟨syms, new, ⟨hat, hnew⟩, -⟩, -⟩ := hsteady _ _ _ _ _ (.refl h h)
  have hends := declares_compileStmt hs Γ s b h.toIn
  rw [hfail] at hat hnew hends
  obtain ⟨Γ', hin, rfl⟩ := hends
  exact ⟨⟨hin, hat.workspace_eq, hat.policy_eq⟩, new, hnew⟩

theorem undisturbed_of_steady {i : Nat} {syms : List Symbol} {own : Messages} {b₃ : Builder}
    (hb : b.At w policy Γ) (hi : i < stmts.length)
    (hbefore : compileBlock e (stmts.take i) { b with stack := b.stack.openFrame } = (.ok first, b₁))
    (hb₁ : b₁.At w policy ((Γ.enter []).push syms))
    (hreached : compileBlock e (stmts.take (i + 1)) { b with stack := b.stack.openFrame } =
      (.ok (first ++ [.noOp pos]), b₃))
    (hb₃ : b₃.At w policy ((Γ.enter []).push syms)) (hown : b₃.messages = b₁.messages ++ own)
    (hsteady : Steady w policy (compileBlock e (stmts.drop (i + 1)))) :
    Undisturbed p stmts.length i pos b₁.messages own (compileStmt e (.block p stmts) b)
      (compileStmt e (.block p (stmts.eraseIdx i)) b) := by
  have hstep := hsteady _ _ _ _ _ (.refl hb₃ hb₁)
  rcases hrest : compileBlock e (stmts.drop (i + 1)) b₃ with ⟨res, b₄⟩
  rcases hrest' : compileBlock e (stmts.drop (i + 1)) b₁ with ⟨res', b₄'⟩
  rw [hrest, hrest'] at hstep
  obtain ⟨hres, ⟨more, later, ⟨hb₄, hmsgs⟩, hb₄', hmsgs'⟩, -⟩ := hstep
  obtain rfl : res' = res := hres
  have hrun := compileBlock_append_apply hreached hrest
  have hrun' := compileBlock_append_apply hbefore hrest'
  rw [take_append_drop] at hrun
  rw [← eraseIdx_eq_take_drop_succ] at hrun'
  rw [Setting.push_push] at hb₄ hb₄'
  obtain ⟨b₅, hblock, hkept⟩ := compileStmt_block_apply p hb hrun hb₄
  obtain ⟨b₅', hblock', hkept'⟩ := compileStmt_block_apply p hb hrun' hb₄'
  rw [hblock, hblock']
  refine ⟨⟨later, ?_, hkept'.trans hmsgs'⟩, ?_⟩
  · rw [← hown]
    exact hkept.trans hmsgs
  · cases res' with
    | error abort => exact .inr ⟨abort, rfl, rfl⟩
    | ok rest =>
      have hlen : first.length = i := by
        rw [length_of_compileBlock hbefore, length_take, Nat.min_eq_left (Nat.le_of_lt hi)]
      refine .inl ⟨first ++ [.noOp pos] ++ rest, length_of_compileBlock hrun, ?_, rfl, ?_⟩
      · rw [← hlen]
        simp
      · have herase : (first ++ [Plan.noOp pos] ++ rest).eraseIdx i = first ++ rest := by
          rw [← hlen, append_assoc, eraseIdx_append_of_length_le (Nat.le_refl _)]
          simp
        rw [herase]
        rfl

end States

end Blocks

/-- A statement of a block that fails, and does not end the compilation, does not disturb its neighbours:
in a quiet workspace and without a default device, the block is compiled as without the statement, but
for a placeholder at its index and for the messages recorded while it was compiled. Without a session
nothing can be recorded, and the block is given up. -/
theorem undisturbed_of_failure (c : Compiler) (depth : Nat) (p : Position) {statements : List Stmt}
    {i : Nat} {s : Stmt} {position : Position} {plans : List Plan} {abort : Abort} {b b₁ b₂ : Builder}
    (hframes : b.stack.frameCount ≤ b.stack.marks.length) (hquiet : b.workspace.IsQuiet)
    (hdevice : c.options.resolution.device = "") (hs : statements[i]? = some s)
    (hposition : s.position? = some position)
    (hbefore : compileBlock (c.environment depth) (statements.take i)
      { b with stack := b.stack.openFrame } = (.ok plans, b₁))
    (hfail : compileStmt (c.environment depth) s b₁ = (.error abort, b₂))
    (hmild : (abort.toFailure position).isFatal = false) :
    ∃ own, b₂.messages ++ .ofRecord (abort.toFailure position) position = b₁.messages ++ own ∧
      if b.workspace.session.isSome then
        Undisturbed p statements.length i position b₁.messages own
          (compileStmt (c.environment depth) (.block p statements) b)
          (compileStmt (c.environment depth) (.block p (statements.eraseIdx i)) b)
      else (compileStmt (c.environment depth) (.block p statements) b).1 = .error .absent := by
  have hb : b.At b.workspace b.stack.policy b.setting := ⟨⟨rfl, hframes⟩, rfl, rfl⟩
  have hsteady : StmtCompositional (c.environment depth) fun _ => Steady b.workspace b.stack.policy :=
    Steady.stmtCompositional hquiet (by rw [c.options_environment]; exact hdevice)
  have h := hsteady.isStmtStepwise
  have hopen : Builder.At b.workspace b.stack.policy (b.setting.enter [])
      { b with stack := b.stack.openFrame } := hb.openFrame []
  obtain ⟨-, ⟨symbols, -, ⟨hb₁, -⟩, -⟩, -⟩ :=
    h.compileBlock (statements.take i) _ _ _ _ _ (.refl hopen hopen)
  dsimp only at hb₁
  rw [hbefore] at hb₁
  obtain ⟨hb₂, new, hnew⟩ := hb₁.of_failure (c.sound_environment depth) (h.compileStmt s) hfail
  refine ⟨new ++ .ofRecord (abort.toFailure position) position, by rw [hnew, List.append_assoc], ?_⟩
  have hsafely := safely_of_error hfail hmild (hb₂.toIn.depth_eq.trans hb₁.toIn.depth_eq.symm)
  rw [← hposition] at hsafely
  have hreached := compileBlock_concat_apply hbefore hsafely
  have htake : statements.take i ++ [s] = statements.take (i + 1) := by
    rw [List.take_add_one, hs, Option.toList_some]
  rw [htake] at hreached
  have hb₃ : Builder.At b.workspace b.stack.policy ((b.setting.enter []).push symbols)
      { b₂ with messages := b₂.messages ++ .ofRecord (abort.toFailure position) position } :=
    ⟨⟨hb₂.setting, hb₂.frames⟩, hb₂.workspace_eq, hb₂.policy_eq⟩
  rw [← hb₂.workspace_eq]
  split
  · rename_i hsession
    rw [if_pos hsession] at hreached
    -- The course of the statements after the failed one is the same with it and without it.
    refine undisturbed_of_steady p hb (List.getElem?_eq_some_iff.mp hs).1 hbefore hb₁ hreached hb₃ ?_
      (h.compileBlock _)
    rw [hnew, List.append_assoc]
  · rename_i hsession
    rw [if_neg hsession] at hreached
    have hblock := compileBlock_append_of_error hreached (statements.drop (i + 1))
    rw [List.take_append_drop] at hblock
    obtain ⟨b₄, hgiven, -⟩ := compileStmt_block_apply p hb hblock hb₃
    rw [hgiven]
    rfl

/-! ### A block that recovers -/

section Recovery

/-- The second statement opens scopes, declares a variable and records an error, and it fails inside a
handler. The others declare that variable again, and fail outside of a handler. -/
def recoveringBlock : List Stmt :=
  [.declaration .none "x" (.rows .row .none []) .missing false,
    .try .none (.block .none [.declaration .none "y" (.rows .row .none []) .missing false,
      .break .none]) "" (.continue .none),
    .expression .none (.identifier .none "x"),
    .declaration .none "y" (.rows .row .none []) .missing false,
    .raise .none .missing]

/-- The state in which the statements of the block are compiled. -/
def recoveringState : Builder :=
  { Builder.start {} { session := some {} } with stack := Stack.openFrame {} }

theorem isQuiet_empty : Workspace.IsQuiet { session := some {} } where
  conversionCache := rfl
  operatorCache := rfl
  inactive := rfl
  compiled _ := rfl
  inferred _ _ h := nomatch h

theorem recoveringBlock_fails : ∃ plans b₁ abort b₂,
    compileBlock (Compiler.environment {} 0) (recoveringBlock.take 1) recoveringState = (.ok plans, b₁) ∧
    compileStmt (Compiler.environment {} 0) (recoveringBlock.getD 1 .missing) b₁ =
      (.error abort, b₂) ∧ b₁.messages = [] ∧ (abort.toFailure .none).isFatal = false := by
  have hreached : (compileBlock (Compiler.environment {} 0) (recoveringBlock.take 1)
      recoveringState).1.toBool = true := by
    decide +kernel
  have hmsgs : (compileBlock (Compiler.environment {} 0) (recoveringBlock.take 1)
      recoveringState).2.messages.isEmpty = true := by
    decide +kernel
  have hfails : ((compileStmt (Compiler.environment {} 0) (recoveringBlock.getD 1 .missing)
      (compileBlock (Compiler.environment {} 0) (recoveringBlock.take 1)
        recoveringState).2).1.tryCatch fun abort =>
          bif (abort.toFailure .none).isFatal then .ok (.noOp .none) else .error abort).toBool =
            false := by
    decide +kernel
  generalize compileBlock (Compiler.environment {} 0) (recoveringBlock.take 1) recoveringState =
    reached at hreached hmsgs hfails ⊢
  obtain ⟨_ | plans, b₁⟩ := reached
  · cases hreached
  generalize hrun : compileStmt (Compiler.environment {} 0) (recoveringBlock.getD 1 .missing) b₁ =
    failed at hfails
  obtain ⟨abort | _, b₂⟩ := failed
  · refine ⟨plans, b₁, abort, b₂, rfl, hrun, isEmpty_iff.mp hmsgs, ?_⟩
    cases hfatal : (abort.toFailure .none).isFatal with
    | false => rfl
    | true =>
      simp only [Except.tryCatch, hfatal, cond_true] at hfails
      cases hfails
  · cases hfails

/-- Two of three messages are recorded while the second statement is compiled. -/
theorem undisturbed_of_failure_recovering : ∃ own : Messages, own.length = 2 ∧
    Undisturbed .none 5 1 .none [] own
      (compileStmt (Compiler.environment {} 0) (.block .none recoveringBlock)
        (.start {} { session := some {} }))
      (compileStmt (Compiler.environment {} 0) (.block .none (recoveringBlock.eraseIdx 1))
        (.start {} { session := some {} })) := by
  obtain ⟨plans, b₁, abort, b₂, hbefore, hfail, hmessages, hmild⟩ := recoveringBlock_fails
  obtain ⟨own, -, hundisturbed⟩ := undisturbed_of_failure {} 0 .none
    (b := .start {} { session := some {} }) (Nat.le_refl _) isQuiet_empty rfl
    (rfl : recoveringBlock[1]? = some _) rfl hbefore hfail hmild
  rw [hmessages] at hundisturbed
  have hcounts : (compileStmt (Compiler.environment {} 0) (.block .none recoveringBlock)
      (.start {} { session := some {} })).2.messages.length = 3 ∧
      (compileStmt (Compiler.environment {} 0) (.block .none (recoveringBlock.eraseIdx 1))
        (.start {} { session := some {} })).2.messages.length = 1 := by
    decide +kernel
  obtain ⟨later, houtcome, hwithout⟩ := hundisturbed.messages
  refine ⟨own, ?_, hundisturbed⟩
  have hlengths := congrArg List.length houtcome
  have hlater := congrArg List.length hwithout
  simp only [List.length_append, List.length_nil] at hlengths hlater
  omega

end Recovery

end Relational
