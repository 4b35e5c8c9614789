import Relational.Proofs.Compile.Program

/-!
# What programs report

The messages of an object that is compiled again stay apart from those of the compilation that asked for
it: its warnings are added, and its errors are raised as one failure. Hence compiling again records no
errors either, at any depth of nesting, and the errors that a program records are those of its own
statements.

A failure that ends a compilation crosses all statements. It is recorded last, and a single placeholder
is all that is left of the program.
-/

namespace Relational

open Compiling List

variable {c : Compiler} {e : Environment} {Γ : Setting} {failure : Failure} {ms : Messages} {b : Builder}
  {α : Type}

variable {act : Compiling α}

/-! ### Errors as failures -/

namespace Messages

theorem mem_errors_of_failure? (h : ms.failure? = some failure) : (∃ m ∈ ms, failure = m.toFailure) ∨
      ∃ parts, failure = .several parts ∧ ∀ part ∈ parts, ∃ m ∈ ms, part = m.toFailure := by
  have hparts : ∀ part ∈ ms.errors.map Message.toFailure, ∃ m ∈ ms, part = m.toFailure := by
    intro part hpart
    obtain ⟨m, hm, rfl⟩ := mem_map.mp hpart
    exact ⟨m, mem_of_mem_filter hm, rfl⟩
  unfold failure? at h
  match ms.errors.map Message.toFailure, hparts, h with
  | [part], hparts, h =>
    obtain rfl := Option.some.inj h
    exact Or.inl (hparts part (mem_singleton_self part))
  | first :: second :: rest, hparts, h =>
    cases h
    exact Or.inr ⟨_, rfl, hparts⟩

theorem isFatal_of_failure? (h : ms.hasFatal = false) (hfail : ms.failure? = some failure) :
    failure.isFatal = false := by
  obtain ⟨m, hm, rfl⟩ | ⟨parts, rfl, -⟩ := mem_errors_of_failure? hfail
  · have hlevel : ¬ Severity.fatal.level ≤ m.severity.level := by
      simpa [Message.isFatal] using any_eq_false.mp h m hm
    have hseverity : m.severity ≠ .fatal := fun heq => hlevel (heq ▸ Nat.le_refl _)
    simpa [Message.toFailure, Failure.isFatal] using hseverity
  · rfl

theorem blamesStack_of_failure? (h : ∀ m ∈ ms, m.failure.blamesStack = false)
    (hfail : ms.failure? = some failure) : failure.blamesStack = false := by
  have hmsg : ∀ m ∈ ms, m.toFailure.blamesStack = false := by
    intro m hm
    rw [Message.toFailure, Failure.blamesStack, h m hm]
  obtain ⟨m, hm, rfl⟩ | ⟨parts, rfl, hparts⟩ := mem_errors_of_failure? hfail
  · exact hmsg m hm
  · rw [Failure.blamesStack, Failure.anyBlamesStack_eq_any]
    refine any_eq_false.mpr fun part hpart => ?_
    obtain ⟨m, hm, rfl⟩ := hparts part hpart
    simp [hmsg m hm]

theorem Grow.isOrderly_of_failure? {hasErrors : Bool} (h : Grow c [] ms hasErrors)
    (hfail : ms.failure? = some failure) : (Abort.raised failure).IsOrderly c := by
  obtain ⟨_, rfl, -, hfatal, hstack⟩ := h
  refine ⟨fun _ _ heq hisFatal => ?_, fun hfair => blamesStack_of_failure? (hstack hfair) hfail⟩
  cases heq
  rw [isFatal_of_failure? hfatal hfail] at hisFatal
  cases hisFatal

theorem isOrderly_of_failure?_record {before : Messages} {failure' : Failure} {pos : Position}
    (hbefore : Grow c [] before false) (h : (Abort.raised failure).IsOrderly c)
    (hfail : failure? (before ++ ofRecord failure pos) = some failure') :
    (Abort.raised failure').IsOrderly c := by
  cases hfatal : failure.isFatal with
  | false => exact (hbefore.trans (grow_record before hfatal h pos)).isOrderly_of_failure? hfail
  | true =>
    obtain ⟨_, rfl, herrors, -, hstack⟩ := hbefore
    refine ⟨fun hmild _ heq _ => ?_, fun hfair => blamesStack_of_failure? (fun m hm => ?_) hfail⟩
    · cases heq
      obtain ⟨name, place, rfl⟩ := h.missingType hmild failure rfl hfatal
      have hnone : before.filter Message.isError = [] :=
        filter_eq_nil_iff.mpr fun m hm => by simpa using any_eq_false.mp herrors m hm
      rw [failure?, errors, filter_append, hnone] at hfail
      cases hfail
      exact ⟨name, _, rfl⟩
    · rcases mem_append.mp hm with hm | hm
      · exact hstack hfair m hm
      · exact blamesStack_of_mem_ofRecord hm (h.blamesStack hfair)

theorem grow_warnings (before : Messages) (h : c.HasFairParser → ∀ m ∈ ms, m.failure.blamesStack = false) :
    before.Grow c (before ++ ms.warnings) false := by
  have hseverity : ∀ m ∈ ms.warnings, m.severity = .warning := by
    intro m hm
    simpa [Message.isWarning] using (mem_filter.mp hm).2
  refine ⟨ms.warnings, rfl, any_eq_false.mpr fun m hm => ?_,
    any_eq_false.mpr fun m hm => ?_, fun hfair m hm => h hfair m (mem_of_mem_filter hm)⟩
  · rw [Message.isError, hseverity m hm]
    decide
  · rw [Message.isFatal, hseverity m hm]
    decide

end Messages

/-! ### Compiling again -/

theorem DeclarationStore.isMild_of_get {store : DeclarationStore} {name : String}
    (h : store.get name = .error failure) : (Abort.raised failure).IsMild := by
  have hcause : ∀ cause : Cause, cause.blamesStack = false →
      (Abort.raised (.cause cause)).IsMild := fun _ => Abort.isMild_ofCause
  cases store with
  | memory s =>
    simp only [get, MemoryStore.get] at h
    split at h
    · cases h
    · cases h
      exact hcause _ rfl
  | file s =>
    simp only [get, FileStore.get, FileStore.whenOpen] at h
    split at h
    · split at h
      · cases h
      · cases h
        exact hcause _ rfl
    · cases h
      exact ⟨fun _ heq => by cases heq; rfl, rfl⟩

/-- The outcome of an action that leaves messages with a property, or is ended by a fault or an orderly
failure. -/
def Leaves {α : Type} (c : Compiler) (R : Messages → Prop) : Except Abort α × Builder → Prop
  | (.ok _, b) => R b.messages
  | (.error abort, _) => abort.IsOrderly c

theorem warns_guardRecompile (key name : String) (h : Warns c act) :
    Warns c (guardRecompile key name act) := by
  refine Warns.get.bind fun b => Warns.step_if (Warns.throw (Abort.isMild_ofCause rfl).isOrderly) ?_
  exact h.between (fun _ => rfl) fun _ => rfl

theorem Warns.isolate_bind {β : Type} {R : Messages → Prop} {next : α × Messages → Compiling β}
    (opts : CompilerOptions) (syms : List Symbol)
    (h : ∀ b : Builder, b.In b.setting → b.messages = [] → Leaves c R (act b))
    (hnext : ∀ val msgs, R msgs → Warns c (next (val, msgs))) : Warns c (isolate opts syms act >>= next) := by
  intro b
  have hstart : Builder.In (b.isolated opts).setting (b.isolated opts) :=
    ⟨rfl, Nat.le_refl _⟩
  have hleaves := h { b.isolated opts with stack := (b.isolated opts).stack.pushAll syms }
    ⟨rfl, (hstart.pushAll syms).frames⟩ rfl
  rw [bind_apply]
  unfold isolate
  dsimp only
  match act _, hleaves with
  | (.ok val, b'), hleaves =>
    exact hnext val b'.messages hleaves _
  | (.error _, _), hleaves => exact ⟨.refl _, hleaves⟩

theorem warns_raiseErrors {msgs : Messages}
    (h : ∀ failure, msgs.failure? = some failure → (Abort.raised failure).IsOrderly c) :
    Warns c (raiseErrors msgs) := by
  rw [raiseErrors]
  split
  · exact .throw (h _ ‹_›)
  · exact .pure _

theorem warns_readDeclaration (store : DeclarationStore)
    {parse : String → Except Abort OperatorDeclaration} (hparse : c.parse = some parse)
    (op : Operator) : Warns c (readDeclaration store parse op) := by
  rw [readDeclaration]
  split
  · exact Warns.throw (DeclarationStore.isMild_of_get ‹_›).isOrderly
  · split
    · rename_i text _ _ abort habort
      refine .throw ⟨fun hmild failure heq hfatal => ?_,
        fun hfair => hfair parse hparse text abort habort⟩
      rw [hmild parse hparse text failure (heq ▸ habort)] at hfatal
      cases hfatal
    · exact Warns.step_if (Warns.throw (Abort.isMild_ofCause rfl).isOrderly) (Warns.pure _)

theorem warns_recompileOperator (hs : e.Sound) (he : e.Warns c) (op : Operator) :
    Warns c (recompileOperator c e op) := by
  rw [recompileOperator]
  split
  · rename_i store parse _ hparse
    refine warns_guardRecompile _ op.name ?_
    refine (warns_readDeclaration store hparse op).bind fun decl => ?_
    have hbody : ∀ b : Builder, b.In b.setting → b.messages = [] →
        Leaves c (fun msgs => ∃ errors, Messages.Grow c [] msgs errors)
          (safely decl.body.position? (compileStmt e decl.body) b) := by
      intro b hb hmsgs
      have htold := (tells_compileStmt hs he b.setting decl.body).safely
        (declares_compileStmt hs b.setting decl.body) decl.body.position? [] b hb (hmsgs ▸ .refl _)
      match safely _ _ b, htold with
      | (.ok _, _), htold => exact ⟨_, htold⟩
      | (.error _, _), ⟨_, habort⟩ => exact habort
    refine Warns.isolate_bind c.options _ hbody fun body msgs hmsgs => ?_
    obtain ⟨errors, hgrow⟩ := hmsgs
    refine Warns.bind (Warns.modify fun b => Messages.grow_warnings b.messages ?_) fun _ => ?_
    · obtain ⟨_, rfl, -, -, hstack⟩ := hgrow
      exact hstack
    · refine (warns_raiseErrors fun _ hfail => hgrow.isOrderly_of_failure? hfail).bind fun _ => ?_
      exact Warns.note.bind fun _ => Warns.modify fun _ => .refl _
  · exact Warns.throw (Abort.isMild_ofCause rfl).isOrderly

/-- Recording a failure adds its messages in any case; without a session nothing can be noted then. -/
theorem record_bind_apply (pos : Position) (failure : Failure) (value : α) (b : Builder) :
    (do record pos failure; return value : Compiling α) b =
      (if b.workspace.session.isSome then .ok value else .error .absent,
        { b with messages := b.messages ++ .ofRecord failure pos }) := by
  obtain ⟨⟨catalog, states, _ | session, conversions, operators⟩, stack, messages, _⟩ := b
  · rfl
  · rfl

theorem leaves_compileAlone (he : e.Warns c) (expr : Expr) (hmsgs : b.messages = []) :
    Leaves c (fun messages => ∀ failure, messages.failure? = some failure →
      (Abort.raised failure).IsOrderly c) (compileAlone e expr b) := by
  have hwarned := warns_compileExpr he expr b
  rw [hmsgs] at hwarned
  rw [compileAlone]
  match compileExpr e expr b, hwarned with
  | (.ok _, b'), hgrow => exact fun failure hfail => hgrow.isOrderly_of_failure? hfail
  | (.error abort, b'), ⟨hgrow, habort⟩ =>
    dsimp only
    split
    · exact Abort.isOrderly_fault rfl
    · rename_i pos _
      rw [record_bind_apply]
      split
      · exact fun failure hfail =>
          Messages.isOrderly_of_failure?_record hgrow (habort.toFailure pos) hfail
      · exact Abort.isOrderly_fault rfl

theorem warns_inferReferences (he : e.Warns c) (tv : TableVar) : Warns c (inferReferences c e tv) := by
  have hset : ∀ refs : List String, Warns c (modify fun b =>
      { b with workspace := { b.workspace with
          catalog := b.workspace.catalog.updateTableVar tv.name (·.setReferences refs) } } :
      Compiling Unit) := fun _ => .modify fun _ => .refl _
  rw [inferReferences]
  split
  · exact hset []
  · refine warns_guardRecompile _ tv.name ?_
    refine .isolate_bind c.options [] (fun b _ hb => leaves_compileAlone he tv.definition hb)
      fun plan msgs hmsgs => ?_
    refine (warns_raiseErrors hmsgs).bind fun _ => ?_
    cases plan with
    | some plan => exact hset _
    | none => exact .absent

/-- Compiling again records no errors, at any depth of nesting. -/
theorem Compiler.warns_environment (c : Compiler) (depth : Nat) : (c.environment depth).Warns c := by
  have hrefuse : ∀ name, Warns c (throw (.ofCause (.circularRecompile name)) : Compiling Unit) :=
    fun _ => Warns.throw (Abort.isMild_ofCause rfl).isOrderly
  induction depth with
  | zero => exact ⟨fun op => hrefuse op.name, fun tv => hrefuse tv.name⟩
  | succ depth ih =>
    exact ⟨fun op => warns_recompileOperator (c.sound_environment depth) ih op,
      fun tv => warns_inferReferences ih tv⟩

/-! ### Programs -/

theorem Stmt.exists_position {stmt : Stmt} (h : stmt ≠ .missing) : ∃ pos, stmt.position? = some pos := by
  cases stmt with
  | missing => exact absurd rfl h
  | _ => exact ⟨_, rfl⟩

theorem inScope_fst {syms : List Symbol} {Q : α → Prop} (h : Runs (Γ.enter syms) act
      (fun val Γ' => Γ'.Extends (Γ.enter syms) ∧ Q val) (·.Extends (Γ.enter syms))) (hb : b.In Γ) :
    (inScope syms act b).1 = (act { b with stack := b.stack.openFrame.pushAll syms }).1 := by
  have hends := h _ (hb.openFrame.pushAll syms)
  have hleave : ∀ (b' : Builder) (res : Except Abort α) Γ', b'.In Γ' → Γ'.Extends (Γ.enter syms) →
        (leaveScope (b.stack.guard false) (res, b')).1 = res := by
    rintro b' res _ hb' ⟨more, rfl⟩
    rw [Setting.enter, Setting.push_push] at hb'
    obtain ⟨b'', heq, -⟩ := hb.leaveFrame hb' res
    rw [heq]
  change (leaveScope (b.stack.guard false) (act _)).1 = (act _).1
  generalize act _ = run at hends ⊢
  rcases run with ⟨abort | value, b'⟩
  · obtain ⟨Γ', hb', hextends⟩ := hends
    exact hleave b' (.error abort) Γ' hb' hextends
  · obtain ⟨Γ', hb', hextends, -⟩ := hends
    exact hleave b' (.ok value) Γ' hb' hextends

theorem Builder.In.session_eq (h : b.In Γ) : b.workspace.session.isSome = Γ.operators.session.isSome := by
  rw [← h.setting]
  exact Option.isSome_map.symm

theorem safely_ne_fault {act : Compiling Plan} {Q : Plan → Prop} (h : Declares Γ act Q)
    (hb : b.In Γ) (hsess : Γ.operators.session.isSome) (pos : Position) (text : String) :
    (safely (some pos) act b).1 ≠ .error (.fault text) := by
  have hends := h b hb
  rw [safely]
  generalize act b = run at hends ⊢
  rcases run with ⟨abort | _, b'⟩
  · obtain ⟨Γ', hb', hΓ⟩ := hends
    have hsess' : b'.workspace.session.isSome := by
      rw [hb'.session_eq, hΓ, hsess]
    dsimp only
    split
    · simp
    split
    · simp
    · rw [record_bind_apply, if_pos hsess']
      simp
  · simp

namespace Builder

variable {stmt : Stmt} {pos : Position} {b' : Builder}

/-- The outcome of the statement of a program, before a failure that ends the compilation is
recorded. -/
def outcome (c : Compiler) (statement : Stmt) : Compiling Plan := fun b =>
  inScope [] (safely statement.position?
    (compileStmt (c.environment (Compiler.nestingBound b)) statement)) b

theorem build_of_ok {p : Plan} (h : outcome c stmt b = (.ok p, b')) : build c stmt b = (.ok p, b') := by
  unfold outcome at h
  simp only [build, buildIn, h]

theorem build_of_fault {text : String} (h : outcome c stmt b = (.error (.fault text), b')) :
    build c stmt b = (.error (.fault text), b') := by
  unfold outcome at h
  simp only [build, buildIn, h]

theorem build_of_raised (hpos : stmt.position? = some pos)
    (h : outcome c stmt b = (.error (.raised failure), b')) : build c stmt b =
      (if b'.workspace.session.isSome then .ok (.noOp pos) else .error .absent,
        { b' with messages := b'.messages ++ .ofRecord failure pos }) := by
  rw [← record_bind_apply]
  unfold outcome at h
  simp only [build, buildIn, h]
  rw [hpos]
  rfl

theorem build_of_raised_missing (hpos : stmt.position? = none)
    (h : outcome c stmt b = (.error (.raised failure), b')) : build c stmt b = (.error .absent, b') := by
  unfold outcome at h
  simp only [build, buildIn, h]
  rw [hpos]
  rfl

theorem told_outcome (c : Compiler) (stmt : Stmt) (hframes : b.stack.frameCount ≤ b.stack.marks.length) :
    Told c b.messages Plan.hasNoOp (outcome c stmt b) := by
  have hs := c.sound_environment (Compiler.nestingBound b)
  have he := c.warns_environment (Compiler.nestingBound b)
  exact ((tells_compileStmt hs he (b.setting.enter []) stmt).safely
    (declares_compileStmt hs _ stmt) stmt.position?).inScope b.messages b ⟨rfl, hframes⟩ (.refl _)

/-- With a session, the statement of a program ends with a plan or with a failure, in the setting of the
program. -/
theorem outcome_cases (hframes : b.stack.frameCount ≤ b.stack.marks.length)
    (hpos : stmt.position? = some pos) (hsess : b.workspace.session.isSome) :
    (∃ p b', outcome c stmt b = (.ok p, b')) ∨
      ∃ failure b', outcome c stmt b = (.error (.raised failure), b') ∧ b'.In b.setting := by
  have hs := c.sound_environment (Compiler.nestingBound b)
  have hb : b.In b.setting := ⟨rfl, hframes⟩
  have hstmt := declares_compileStmt hs (b.setting.enter []) stmt
  have hdeclares := hstmt.safely (.noOp ·) stmt.position?
  have hfault : ∀ text, (outcome c stmt b).1 ≠ .error (.fault text) := by
    intro text
    rw [outcome]
    rw [inScope_fst hdeclares.extending hb, hpos]
    exact safely_ne_fault hstmt (hb.openFrame.pushAll []) (hb.session_eq ▸ hsess) pos text
  have hends : Ends _ _ (outcome c stmt b) := hdeclares.inScope b hb
  match outcome c stmt b, hends, hfault with
  | (.ok p, b'), _, _ => exact Or.inl ⟨p, b', rfl⟩
  | (.error (.fault text), _), _, hfault => exact absurd rfl (hfault text)
  | (.error (.raised failure), b'), ⟨_, hb', hΓ⟩, _ => exact Or.inr ⟨failure, b', rfl, hΓ ▸ hb'⟩

/-- With a session, a program at a position is compiled. -/
theorem exists_build_eq_ok (hframes : b.stack.frameCount ≤ b.stack.marks.length)
    (hpos : stmt.position? = some pos) (hsess : b.workspace.session.isSome) :
    ∃ p, (build c stmt b).1 = .ok p := by
  obtain ⟨p, b', h⟩ | ⟨failure, b', h, hb'⟩ := outcome_cases hframes hpos hsess
  · exact ⟨p, by rw [build_of_ok h]⟩
  · have hsess' : b'.workspace.session.isSome := by
      rw [hb'.session_eq]
      exact Option.isSome_map.trans hsess
    exact ⟨.noOp pos, by rw [build_of_raised hpos h, if_pos hsess']⟩

/-- A program that is compiled ends with the plan of its statement, or with a placeholder in place of a
statement that ends the compilation. -/
theorem build_cases {p : Plan} (hpos : stmt.position? = some pos) (h : build c stmt b = (.ok p, b')) :
    outcome c stmt b = (.ok p, b') ∨ p = .noOp pos ∧ ∃ failure b'',
      outcome c stmt b = (.error (.raised failure), b'') ∧
        b'.messages = b''.messages ++ .ofRecord failure pos := by
  rcases hout : outcome c stmt b with ⟨(failure | text) | p', b''⟩
  · rw [build_of_raised hpos hout] at h
    obtain ⟨hp, rfl⟩ := Prod.mk.inj h
    refine Or.inr ⟨?_, failure, b'', rfl, rfl⟩
    split at hp
    · exact (Except.ok.inj hp).symm
    · cases hp
  · rw [build_of_fault hout] at h
    cases h
  · rw [build_of_ok hout] at h
    exact Or.inl h

/-- A program that is not missing is compiled if there is a session. The messages it records contain an
error if and only if there is a placeholder in its plan. If there is a fatal one, a placeholder is the
whole plan, and the fatal messages are the last ones, of one failure; it is a single one where the parser
of declarations is mild. -/
theorem hasErrors_iff_noOp_of_build (c : Compiler) (statement : Stmt) (b : Builder)
    (hframes : b.stack.frameCount ≤ b.stack.marks.length) (hstatement : statement ≠ .missing) :
    (b.workspace.session.isSome → ∃ p, (build c statement b).1 = .ok p) ∧
      ∀ p b', build c statement b = (.ok p, b') →
        ∃ new : Messages, b'.messages = b.messages ++ new ∧
          (new.hasErrors ↔ ∃ node ∈ p.nodes, node.kind = .noOp) ∧
            (new.hasFatal → (∃ position, p = .noOp position) ∧
              ∃ earlier last : Messages, new = earlier ++ last ∧ earlier.hasFatal = false ∧
                last ≠ [] ∧ (∀ m ∈ last, m.isFatal) ∧ (c.HasMildParser → last.length = 1)) := by
  obtain ⟨position, hposition⟩ := Stmt.exists_position hstatement
  refine ⟨exists_build_eq_ok hframes hposition, fun p b' hbuild => ?_⟩
  have htold := told_outcome c statement hframes
  obtain h | ⟨rfl, failure, b'', h, hrecord⟩ := build_cases hposition hbuild
  · rw [h] at htold
    obtain ⟨new, hnew, herrors, hnone, -⟩ := htold
    exact ⟨new, hnew, by rw [herrors, Plan.hasNoOp_iff], by simp [hnone]⟩
  · rw [h] at htold
    obtain ⟨⟨errors, earlier, hearlier, -, hnone, -⟩, horderly⟩ := htold
    refine ⟨earlier ++ .ofRecord failure position, ?_, ?_, fun hfatal => ⟨⟨position, rfl⟩, ?_⟩⟩
    · rw [hrecord, hearlier, List.append_assoc]
    · rw [← Plan.hasNoOp_iff, Plan.hasNoOp_noOp, Messages.hasErrors_append_ofRecord]
    · obtain ⟨m, hm, hmfatal⟩ := List.any_eq_true.mp hfatal
      have hfailure := (Messages.isFatal_of_append_ofRecord hnone hm hmfatal).1
      refine ⟨earlier, .ofRecord failure position, rfl, hnone,
        Messages.ofRecord_ne_nil failure position, fun m hm => ?_, fun hmild => ?_⟩
      · rw [Messages.isFatal_of_mem_ofRecord hm, hfailure]
      · obtain ⟨name, place, rfl⟩ := horderly.missingType hmild failure rfl hfailure
        rfl

/-- A block whose first statement fails, and whose second one needs a type. -/
def abandonedProgram : Stmt :=
  .block .none [.break .none, .expression .none (.literal .none (.boolean true) "")]

/-- Without the type of truth values the compilation is ended after an error. -/
theorem hasErrors_iff_noOp_of_build_abandoned :
    ∃ p b', build {} abandonedProgram (.start {} { session := some {} }) = (.ok p, b') ∧
      b'.messages.map Message.severity = [.error, .fatal] ∧
        (∃ node ∈ p.nodes, node.kind = .noOp) ∧ ∃ position, p = .noOp position := by
  obtain ⟨hcompiled, hreports⟩ := hasErrors_iff_noOp_of_build {} abandonedProgram
    (.start {} { session := some {} }) (Nat.le_refl _) nofun
  have hmessages : (build {} abandonedProgram (.start {} { session := some {} })).2.messages.map
      Message.severity = [.error, .fatal] := by decide +kernel
  have hfatals : (build {} abandonedProgram (.start {} { session := some {} })).2.messages.hasFatal ∧
      (build {} abandonedProgram (.start {} { session := some {} })).2.messages.hasErrors := by
    decide +kernel
  obtain ⟨p, hp⟩ := hcompiled rfl
  obtain ⟨_, rfl, herrors, hfatal⟩ := hreports p _ (Prod.ext hp rfl)
  exact ⟨p, _, Prod.ext hp rfl, hmessages, herrors.mp hfatals.2, (hfatal hfatals.1).1⟩

end Builder

end Relational
