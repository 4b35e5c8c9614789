import Relational.Compile.Recompile
import Relational.Proofs.Compile.Compositional

/-!
# What expressions report

While an expression is compiled only warnings are recorded: what is wrong with it is raised, and the
statement around it records that. A failure ends the whole compilation only if a type is missing that
nothing can be compiled without, or if the parser of declarations says so.
-/

namespace Relational

open Compiling

/-- No failure of the parser of declarations ends a compilation. -/
def Compiler.HasMildParser (c : Compiler) : Prop :=
  ∀ parse, c.parse = some parse → ∀ text failure, parse text = .error (.raised failure) →
    failure.isFatal = false

/-- The parser of declarations does not say that the symbol stack is unbalanced. -/
def Compiler.HasFairParser (c : Compiler) : Prop :=
  ∀ parse, c.parse = some parse → ∀ text abort, parse text = .error abort →
    abort.blamesStack = false

/-- What ends an action ends the compilation for want of a type only, and does not say that the symbol
stack is unbalanced, as far as the parser of declarations is not to blame. -/
structure Abort.IsOrderly (c : Compiler) (abort : Abort) : Prop where
  missingType : c.HasMildParser → ∀ failure, abort = .raised failure → failure.isFatal →
    ∃ name position, failure = .located (.cause (.missingType name)) position true
  blamesStack : c.HasFairParser → abort.blamesStack = false

namespace Abort

variable {c : Compiler} {abort : Abort}

theorem IsMild.isOrderly (h : abort.IsMild) : abort.IsOrderly c :=
  ⟨fun _ fail heq hfatal => absurd hfatal (by simp [h.isFatal fail heq]), fun _ => h.blamesStack⟩

theorem isMild_ofCause {cause : Cause} (h : cause.blamesStack = false) : (ofCause cause).IsMild :=
  ⟨fun _ heq => by cases heq; rfl, h⟩

theorem isOrderly_fault {text : String} (h : (Cause.internal text).blamesStack = false) :
    (fault text).IsOrderly c :=
  ⟨fun _ _ heq => (nomatch heq), fun _ => h⟩

theorem isOrderly_missingType (name : String) (pos : Position) :
    (raised (Failure.fatal (.cause (.missingType name)) pos)).IsOrderly c :=
  ⟨fun _ _ heq _ => ⟨name, pos, (raised.inj heq).symm⟩, fun _ => rfl⟩

theorem IsOrderly.at_ (h : abort.IsOrderly c) (pos : Position) : (abort.at_ pos).IsOrderly c := by
  cases abort with
  | fault => exact h
  | raised fail =>
    cases fail with
    | located => exact h
    | plain | cause | several =>
      exact ⟨fun _ _ heq hfatal => (by cases heq; cases hfatal), h.blamesStack⟩

theorem IsOrderly.toFailure (h : abort.IsOrderly c) (pos : Position) :
    (raised (abort.toFailure pos)).IsOrderly c := by
  cases abort with
  | raised fail => exact h
  | fault text => exact ⟨fun _ _ heq hfatal => (by cases heq; cases hfatal), h.blamesStack⟩

end Abort

/-! ### Actions of a compilation -/

theorem blamesStack_of_release {s stack : Stack} {guard released : Guard} {cause : Cause}
    (h : s.release guard = (stack, released, some cause)) :
    (Cause.internal cause.message).blamesStack = false := by
  have hinternal : ∃ reason, cause = .internal reason := by
    have hclose : ∀ s : Stack, (if s.depth < guard.depth then
        (s, { guard with isReleased := true }, some (Cause.internal ("symbol stack depth " ++
          toString s.depth ++ " below frame depth " ++ toString guard.depth)))
      else (s.truncate guard.depth guard.frames, { guard with isReleased := true }, none)) =
        (stack, released, some cause) → ∃ reason, cause = .internal reason := by
      intro s h
      split at h
      · exact ⟨_, by cases h; rfl⟩
      · cases h
    unfold Stack.release at h
    split at h
    · cases h
    · split at h
      all_goals
        split at h
        · exact ⟨_, by cases h; rfl⟩
        · exact hclose _ h
  obtain ⟨reason, rfl⟩ := hinternal
  rfl

theorem leaveScope_cases {α : Type} (guard : Guard) (out : Except Abort α × Builder) :
    ∃ stack, leaveScope guard out = (out.1, { out.2 with stack }) ∨
      ∃ text, (Cause.internal text).blamesStack = false ∧
        leaveScope guard out = (.error (.fault text), { out.2 with stack }) := by
  obtain ⟨res, b⟩ := out
  rcases h : b.stack.release guard with ⟨stack, released, _ | cause⟩
  · exact ⟨stack, Or.inl (by simp only [leaveScope, h])⟩
  · exact ⟨stack, Or.inr ⟨cause.message, blamesStack_of_release h, by simp only [leaveScope, h]⟩⟩

/-- Messages to which others were added, with errors or without, none of them fatal, and none that says
that the symbol stack is unbalanced. -/
def Messages.Grow (c : Compiler) (before after : Messages) (hasErrors : Bool) : Prop :=
  ∃ new : Messages, after = before ++ new ∧ new.hasErrors = hasErrors ∧ new.hasFatal = false ∧
    (c.HasFairParser → ∀ m ∈ new, m.failure.blamesStack = false)

theorem Messages.Grow.refl {c : Compiler} (ms : Messages) : ms.Grow c ms false :=
  ⟨[], (List.append_nil ms).symm, rfl, rfl, by simp⟩

theorem Messages.Grow.trans {c : Compiler} {first second third : Messages}
    {hasErrors hasErrors' : Bool} (h : Grow c first second hasErrors)
    (h' : Grow c second third hasErrors') : Grow c first third (hasErrors || hasErrors') := by
  obtain ⟨new, rfl, rfl, hfatal, hstack⟩ := h
  obtain ⟨new', rfl, rfl, hfatal', hstack'⟩ := h'
  refine ⟨new ++ new', List.append_assoc _ _ _, List.any_append, ?_, fun hfair m hm => ?_⟩
  · have happend : (new ++ new').hasFatal = (new.hasFatal || new'.hasFatal) := List.any_append
    rw [happend, hfatal, hfatal']
    rfl
  · rcases List.mem_append.mp hm with hm | hm
    · exact hstack hfair m hm
    · exact hstack' hfair m hm

/-- The outcome of an action that adds no error to messages, and that is ended by faults and orderly
failures only. -/
def Warned {α : Type} (c : Compiler) (before : Messages) : Except Abort α × Builder → Prop
  | (.ok _, b) => before.Grow c b.messages false
  | (.error abort, b) => before.Grow c b.messages false ∧ abort.IsOrderly c

namespace Warned

variable {α : Type} {c : Compiler} {before middle : Messages} {out : Except Abort α × Builder}

theorem after (h : Warned c middle out) (hmiddle : before.Grow c middle false) : Warned c before out := by
  match out, h with
  | (.ok _, _), h => exact hmiddle.trans h
  | (.error _, _), ⟨h, habort⟩ => exact ⟨hmiddle.trans h, habort⟩

theorem with_builder {b : Builder} (h : Warned c before out)
    (hmsgs : b.messages = out.2.messages) : Warned c before (out.1, b) := by
  match out, h with
  | (.ok _, _), h => exact (congrArg (before.Grow c · false) hmsgs).mpr h
  | (.error _, _), ⟨h, habort⟩ =>
    exact ⟨(congrArg (before.Grow c · false) hmsgs).mpr h, habort⟩

theorem leaveScope (h : Warned c before out) (guard : Guard) : Warned c before (leaveScope guard out) := by
  obtain ⟨stack, hleave | ⟨text, htext, hleave⟩⟩ := leaveScope_cases guard out
  · rw [hleave]
    exact h.with_builder rfl
  · rw [hleave]
    match out, h with
    | (.ok _, _), h => exact ⟨h, Abort.isOrderly_fault htext⟩
    | (.error _, _), ⟨h, _⟩ => exact ⟨h, Abort.isOrderly_fault htext⟩

end Warned

/-- An action that records no error, and that is ended by faults and orderly failures only. -/
def Warns {α : Type} (c : Compiler) (action : Compiling α) : Prop :=
  ∀ b : Builder, Warned c b.messages (action b)

namespace Warns

variable {α β : Type} {c : Compiler} {act : Compiling α} {pos : Position}

theorem pure (val : α) : Warns c (Pure.pure val : Compiling α) :=
  fun _ => .refl _

theorem throw {abort : Abort} (h : abort.IsOrderly c) : Warns c (throw abort : Compiling α) :=
  fun _ => ⟨.refl _, h⟩

theorem bind {next : α → Compiling β} (h : Warns c act)
    (hnext : ∀ val, Warns c (next val)) : Warns c (act >>= next) := by
  intro b
  have hfirst := h b
  rw [bind_apply]
  match act b, hfirst with
  | (.ok val, b'), hfirst => exact (hnext val b').after hfirst
  | (.error abort, b'), hfirst => exact hfirst

theorem get : Warns c (MonadState.get : Compiling Builder) :=
  fun _ => .refl _

theorem modify {change : Builder → Builder} (h : ∀ b : Builder, b.messages.Grow c (change b).messages false) :
    Warns c (modify change : Compiling Unit) :=
  h

theorem at_ (h : Warns c act) (pos : Position) : Warns c (Compiling.at_ pos act) := by
  intro b
  have hact := h b
  rw [Compiling.at_]
  match act b, hact with
  | (.ok _, _), h => exact h
  | (.error _, _), ⟨h, habort⟩ => exact ⟨h, habort.at_ pos⟩

theorem recover {handler : Abort → Compiling α} (h : Warns c act)
    (hhandler : ∀ abort, Warns c (MonadExcept.throw abort : Compiling α) → Warns c (handler abort)) :
    Warns c (tryCatch act handler) := by
  intro b
  have hact := h b
  rcases hout : act b with ⟨abort | value, b'⟩
  · rw [hout] at hact
    rw [tryCatch_of_error hout]
    exact (hhandler abort (throw hact.2) b').after hact.1
  · rw [hout] at hact
    rw [tryCatch_of_ok hout]
    exact hact

theorem absent : Warns c (MonadExcept.throw Abort.absent : Compiling α) :=
  throw (Abort.isOrderly_fault rfl)

theorem raise {cause : Cause} (h : cause.blamesStack = false) :
    Warns c (Compiling.raise pos cause : Compiling α) :=
  throw ((Abort.isMild_ofCause h).isOrderly.at_ pos)

theorem fatal {name : String} : Warns c (Compiling.fatal pos (.missingType name) : Compiling α) :=
  throw (Abort.isOrderly_missingType name pos)

theorem warn (pos : Position) {cause : Cause} (h : cause.blamesStack = false) :
    Warns c (Compiling.warn pos cause) :=
  modify fun _ => ⟨.ofFailure .warning (.cause cause) pos, rfl, rfl, rfl, fun _ _ hm => by cases hm with
      | head => exact h
      | tail _ hm => cases hm⟩

theorem note : Warns c Compiling.note := by
  refine get.bind fun b => ?_
  split
  · exact absent
  · exact pure _

theorem inScope (syms : List Symbol) (h : Warns c act) : Warns c (Compiling.inScope syms act) :=
  fun b => (h { b with stack := b.stack.openFrame.pushAll syms }).leaveScope (b.stack.guard false)

theorem inWindow (h : Warns c act) : Warns c (Compiling.inWindow act) :=
  fun b => (h { b with stack := b.stack.openWindow 0 }).leaveScope (b.stack.guard true)

theorem between {enter leave : Builder → Builder} (h : Warns c act)
    (henter : ∀ b, (enter b).messages = b.messages) (hleave : ∀ b, (leave b).messages = b.messages) :
    Warns c (Compiling.between enter leave act) := by
  intro b
  have hact := h (enter b)
  rw [henter] at hact
  exact hact.with_builder (hleave _)

theorem markModified (idx : Nat) : Warns c (Compiling.markModified idx) :=
  modify fun _ => .refl _

theorem resolve {act : Resolving α} (h : Mild act) : Warns c (MonadResolving.resolve act : Compiling α) := by
  intro b
  have hact := h b.workspace
  change Warned c b.messages ((act b.workspace).1, _)
  match (act b.workspace).1, hact with
  | .ok _, _ => exact .refl _
  | .error abort, h => exact ⟨.refl _, (h abort rfl).isOrderly⟩

theorem step_if {q : Prop} [Decidable q] {step : Compiling PUnit} {rest : PUnit → Compiling α}
    (hstep : Warns c step) (hrest : Warns c (rest ⟨⟩)) : Warns c (if q then step >>= rest else rest ⟨⟩) := by
  split
  · exact hstep.bind fun _ => hrest
  · exact hrest

theorem map (h : Warns c act) (f : α → β) : Warns c (f <$> act) := by
  exact h.bind fun _ => pure _

end Warns

/-! ### Environments -/

/-- An environment in which compiling again records no error. -/
structure Environment.Warns (c : Compiler) (e : Environment) : Prop where
  recompile : ∀ op, Relational.Warns c (e.recompile op)
  infer : ∀ tv, Relational.Warns c (e.infer tv)

variable {c : Compiler} {e : Environment}

section Environments

variable (he : e.Warns c)

include he

theorem warns_bindObject (obj : CatalogObject) : Warns c (bindObject e.infer obj) := by
  rw [bindObject]
  split
  · refine (he.infer _).bind fun _ => (Warns.resolve ?_).bind fun _ => ?_
    · exact (Contract.refreshed (Q := fun _ _ => True) fun _ => trivial).mild
    · exact .resolve (mild_copyObject _)
  · exact .resolve (mild_copyObject obj)

theorem warns_lookUp (binding : Binding) (pos : Position) (name : String) :
    Warns c (lookUp e binding pos name) := by
  refine Warns.get.bind fun b => Warns.at_ ?_ pos
  refine (Warns.resolve (Contract.Met.mild (Contract.findSymbol _ binding name))).bind fun res => ?_
  split
  · exact Warns.pure _
  · exact Warns.pure _
  · refine (Warns.resolve (mild_findObject _ _ name)).bind fun obj => ?_
    cases obj with
    | none => exact Warns.pure _
    | some obj => exact (warns_bindObject he obj).bind fun _ => Warns.pure _

theorem warns_overloadFor (name : String) (args : List Plan) : Warns c (overloadFor e name args) := by
  refine Warns.get.bind fun b => ?_
  refine (Warns.resolve (mild_selectOperator _ _ name _ false)).bind fun found => ?_
  refine (Warns.resolve (Contract.isDeferred _).mild).bind fun deferred => ?_
  exact Warns.step_if (he.recompile found.operator) (Warns.pure found)

theorem Environment.Warns.compositional : Compositional e fun _ => Relational.Warns c where
  pure := .pure
  bind := .bind
  fault htext := Warns.throw (Abort.isOrderly_fault htext)
  raise := .raise
  fatal := .fatal
  warn := .warn
  at_ := .at_
  recover := .recover
  inScope := .inScope
  get_bind hnext _ := Warns.get.bind hnext
  markModified := .markModified
  lookUp_bind binding pos name hnext _ := (warns_lookUp he binding pos name).bind hnext
  conversionBetween _ _ := fun _ => .refl _
  overloadFor := warns_overloadFor he

theorem Environment.Warns.steps : IsStepwise .all e e fun _ _ act _ => Relational.Warns c act :=
  he.compositional.isStepwise

/-- Expressions record no errors, and fail in an orderly way. -/
theorem warns_compileExpr (x : Expr) : Warns c (compileExpr e x) :=
  he.steps.compileExpr x

end Environments

end Relational
