import Relational.Proofs.Compile.Reports

/-!
# Builders after a compilation

Whatever becomes of a statement or an expression, the builder is left as it was found: the symbols,
frames and windows of its stack, the numbers of loops and handlers around, the objects that are being
compiled again, the scope, and whether a device is being asked for a name. Only marks of modified symbols
may have been set, messages been added and the workspace been changed otherwise.

A statement that fails is checked for the symbols that it leaves on the stack. The check never fails, so
no message says that the stack is unbalanced, unless the parser of declarations does.
-/

namespace Relational

open Compiling

namespace Builder

variable {b b' : Builder}

/-- A builder that is left as another was found, but for messages, the rest of the workspace and marks of
modified symbols. There is still a mark for each of its open frames. -/
structure IsRestored (b b' : Builder) : Prop where
  symbols : b'.stack.symbols.map Symbol.unmodified = b.stack.symbols.map Symbol.unmodified
  frames : b'.stack.frames = b.stack.frames
  windows : b'.stack.windows = b.stack.windows
  frameCount_le : b'.stack.frameCount ≤ b'.stack.marks.length
  nesting : b'.nesting = b.nesting
  recompiling : b'.recompiling = b.recompiling
  scope : b'.scope = b.scope
  isReconciling : b'.workspace.isReconciling = b.workspace.isReconciling

theorem In.isRestored (h : b'.In b.setting) : b.IsRestored b' where
  symbols := congrArg Setting.symbols h.setting
  frames := congrArg Setting.frames h.setting
  windows := congrArg Setting.windows h.setting
  frameCount_le := h.frames
  nesting := congrArg Setting.nesting h.setting
  recompiling := congrArg Setting.recompiling h.setting
  scope := congrArg Setting.scope h.setting
  isReconciling := congrArg Setting.isReconciling h.setting

end Builder

/-! ### Messages -/

/-- Messages to which others were added, none of which says that the symbol stack is unbalanced, unless
the parser of declarations does. -/
def Messages.GrowFairly (c : Compiler) (before after : Messages) : Prop :=
  ∃ new : Messages, after = before ++ new ∧
    (c.HasFairParser → ∀ m ∈ new, m.failure.blamesStack = false)

namespace Messages

variable {c : Compiler} {before after : Messages}

theorem Grow.growFairly {hasErrors : Bool} (h : before.Grow c after hasErrors) :
    before.GrowFairly c after := by
  obtain ⟨new, hnew, -, -, hstack⟩ := h
  exact ⟨new, hnew, hstack⟩

theorem GrowFairly.record {fail : Failure} (h : before.GrowFairly c after)
    (horderly : (Abort.raised fail).IsOrderly c) (pos : Position) :
    before.GrowFairly c (after ++ ofRecord fail pos) := by
  obtain ⟨new, rfl, hstack⟩ := h
  refine ⟨new ++ ofRecord fail pos, List.append_assoc _ _ _, fun hfair m hm => ?_⟩
  rcases List.mem_append.mp hm with hm | hm
  · exact hstack hfair m hm
  · exact blamesStack_of_mem_ofRecord hm (horderly.blamesStack hfair)

end Messages

namespace Builder

variable {c : Compiler} {b : Builder}

theorem growFairly_build (c : Compiler) (stmt : Stmt) (hframes : b.stack.frameCount ≤ b.stack.marks.length) :
    b.messages.GrowFairly c (build c stmt b).2.messages := by
  have htold := told_outcome c stmt hframes
  rcases h : outcome c stmt b with ⟨(fail | text) | p, b'⟩
  · rw [h] at htold
    obtain ⟨⟨_, hgrow⟩, horderly⟩ := htold
    cases hpos : stmt.position? with
    | none =>
      rw [build_of_raised_missing hpos h]
      exact hgrow.growFairly
    | some pos =>
      rw [build_of_raised hpos h]
      exact hgrow.growFairly.record horderly pos
  · rw [h] at htold
    obtain ⟨⟨_, hgrow⟩, -⟩ := htold
    rw [build_of_fault h]
    exact hgrow.growFairly
  · rw [h] at htold
    rw [build_of_ok h]
    exact Messages.Grow.growFairly htold

theorem growFairly_buildExpression (c : Compiler) (expr : Expr) (b : Builder) :
    b.messages.GrowFairly c (buildExpression c expr b).2.messages := by
  have hwarned := warns_compileExpr (c.warns_environment (Compiler.nestingBound b)) expr b
  rw [buildExpression, compileAlone]
  generalize compileExpr _ expr b = run at hwarned ⊢
  rcases run with ⟨abort | _, b'⟩
  · obtain ⟨hgrow, habort⟩ := hwarned
    dsimp only
    split
    · exact hgrow.growFairly
    · rename_i pos _
      rw [record_bind_apply]
      exact hgrow.growFairly.record (habort.toFailure pos) pos
  · exact Messages.Grow.growFairly hwarned

/-! ### Restoration -/

/-- A builder with a mark for each open frame is restored by every program and by every expression that
is compiled with it, also when that fails; no message says that its stack is unbalanced. -/
theorem isRestored_build (c : Compiler) (b : Builder)
    (hframes : b.stack.frameCount ≤ b.stack.marks.length) :
    (∀ statement, b.IsRestored (build c statement b).2 ∧
      b.messages.GrowFairly c (build c statement b).2.messages) ∧
    ∀ expr, b.IsRestored (buildExpression c expr b).2 ∧
      b.messages.GrowFairly c (buildExpression c expr b).2.messages := by
  refine ⟨fun statement => ⟨?_, growFairly_build c statement hframes⟩,
    fun expr => ⟨?_, growFairly_buildExpression c expr b⟩⟩
  · exact (in_of_ends (ends_build c statement hframes) (fun _ _ h => h.1) fun _ h => h).isRestored
  · have hends := keeps_compileAlone (c.sound_environment (Compiler.nestingBound b)) expr b
      ⟨rfl, hframes⟩
    exact (in_of_ends hends (fun _ _ h => h.1) fun _ h => h).isRestored

/-- A builder in the middle of its work, inside a window that hides a symbol. -/
def busyBuilder : Builder where
  workspace := { session := some {}, isReconciling := true }
  stack := (Stack.push {} { name := "x", type := some .any }).openWindow 0
  nesting := { handlers := 1 }
  recompiling := ["operator f"]

/-- It is restored also when the compilation is ended. -/
theorem isRestored_build_busyBuilder :
    (build {} abandonedProgram busyBuilder).2.messages.map Message.severity = [.error, .fatal] ∧
      busyBuilder.IsRestored (build {} abandonedProgram busyBuilder).2 ∧
      busyBuilder.IsRestored
        (buildExpression {} (.literal .none (.boolean true) "") busyBuilder).2 := by
  have hrestored := isRestored_build {} busyBuilder (by decide)
  exact ⟨by decide +kernel, (hrestored.1 _).1, (hrestored.2 _).1⟩

end Builder

end Relational
