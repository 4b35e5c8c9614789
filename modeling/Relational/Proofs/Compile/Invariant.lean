import Relational.Proofs.Compile.Warnings

/-!
# Compilations in step

Two compilations are in step if they come from states of a relation to the same result, and to states of
the relation. What the states have to do with each other may change inside a scope and in what is compiled
on its own. All this is proved along the steps of the compilations, and so is a property of the result.

A property of the state that one compilation keeps is a relation of the state to itself.
-/

namespace Relational

open Compiling

/-- Two outcomes with the same result, which has a property, and with states of a relation. -/
structure InStep {α : Type} (R : Builder → Builder → Prop) (Q : α → Prop)
    (out out' : Except Abort α × Builder) : Prop where
  result : out'.1 = out.1
  related : R out.2 out'.2
  value : ∀ value, out.1 = .ok value → Q value

/-- Two actions that are in step from any states of a relation on. -/
def Parallel {α : Type} (R : Builder → Builder → Prop) (action action' : Compiling α) (Q : α → Prop) :
    Prop :=
  ∀ b b' : Builder, R b b' → InStep R Q (action b) (action' b')

/-- Both states have a session or neither has, and a message is recorded in both. -/
structure IsRecording (R : Builder → Builder → Prop) : Prop where
  session : ∀ {b b'}, R b b' → b'.workspace.session.isNone = b.workspace.session.isNone
  report : ∀ {b b'} (added : Messages), R b b' →
    R { b with messages := b.messages ++ added } { b' with messages := b'.messages ++ added }

/-! ### Scopes -/

variable {α : Type} {I : Builder → Prop} {cause : Cause} {out : Except Abort α × Builder} {Q : α → Prop}

theorem leaveScope_eq (guard : Guard) (res : Except Abort α) (b : Builder) :
    leaveScope guard (res, b) = ((b.stack.release guard).2.2.elim res
      fun cause => .error (.fault cause.message), { b with stack := (b.stack.release guard).1 }) := by
  rw [leaveScope]
  rcases b.stack.release guard with ⟨_, _, _ | _⟩ <;> rfl

theorem ok_of_leaveScope {guard : Guard} {res : Except Abort α} {b : Builder} {val : α}
    (h : (leaveScope guard (res, b)).1 = .ok val) : res = .ok val := by
  rw [leaveScope_eq] at h
  cases hcause : (b.stack.release guard).2.2 with
  | none => simpa [hcause] using h
  | some cause => simp [hcause] at h

/-! ### Actions in step -/

section Logic

variable {β : Type} {R R' : Builder → Builder → Prop} {act act' : Compiling α} {P : α → Prop}
  {b b' : Builder}

@[elab_as_elim]
theorem InStep.elim {motive : Except Abort α × Builder → Except Abort α × Builder → Prop}
    {out out' : Except Abort α × Builder} (h : InStep R Q out out')
    (step : ∀ res b b', R b b' → (∀ val, res = .ok val → Q val) →
      motive (res, b) (res, b')) : motive out out' := by
  obtain ⟨res, b⟩ := out
  obtain ⟨res', b'⟩ := out'
  obtain ⟨hres, hrelated, hval⟩ := h
  obtain rfl : res' = res := hres
  exact step res' b b' hrelated hval

theorem InStep.of_error {abort : Abort} (h : R b b') : InStep R Q (.error abort, b) (.error abort, b') :=
  ⟨rfl, h, fun _ hok => by cases hok⟩

theorem InStep.bind {next next' : α → Compiling β} {P : β → Prop} (h : InStep R Q (act b) (act' b'))
    (hnext : ∀ val, Q val → Parallel R (next val) (next' val) P) :
    InStep R P ((act >>= next) b) ((act' >>= next') b') := by
  rw [bind_apply, bind_apply]
  refine h.elim fun res b₁ b₁' hb₁ hval => ?_
  cases res with
  | error abort => exact .of_error hb₁
  | ok val => exact hnext val (hval val rfl) b₁ b₁' hb₁

theorem InStep.leaveScope {out out' : Except Abort α × Builder} {guard guard' : Guard}
    (h : InStep R' Q out out')
    (hleave : ∀ b b', R' b b' → (b'.stack.release guard').2.2 = (b.stack.release guard).2.2 ∧
      R { b with stack := (b.stack.release guard).1 } { b' with stack := (b'.stack.release guard').1 }) :
    InStep R Q (leaveScope guard out) (leaveScope guard' out') := by
  refine h.elim fun res b b' hb hval => ?_
  obtain ⟨hcause, hstack⟩ := hleave b b' hb
  refine ⟨?_, ?_, fun val hok => hval val (ok_of_leaveScope hok)⟩
  · rw [leaveScope_eq, leaveScope_eq, hcause]
  · rw [leaveScope_eq, leaveScope_eq]
    exact hstack

namespace Parallel

theorem imp (h : Parallel R act act' Q) (hQ : ∀ val, Q val → P val) : Parallel R act act' P :=
  fun b b' hb => ⟨(h b b' hb).result, (h b b' hb).related,
    fun val hok => hQ val ((h b b' hb).value val hok)⟩

theorem pure {val : α} (h : Q val) : Parallel R (Pure.pure val) (Pure.pure val) Q :=
  fun _ _ hb => ⟨rfl, hb, fun _ hok => Except.ok.inj hok ▸ h⟩

theorem throw {abort : Abort} : Parallel R (throw abort : Compiling α) (throw abort) Q :=
  fun _ _ hb => .of_error hb

theorem raise {pos : Position} :
    Parallel R (Compiling.raise pos cause : Compiling α) (Compiling.raise pos cause) Q :=
  throw

theorem fatal {pos : Position} :
    Parallel R (Compiling.fatal pos cause : Compiling α) (Compiling.fatal pos cause) Q :=
  throw

theorem locate (pos : Option Position) :
    Parallel R (Compiling.locate pos) (Compiling.locate pos) fun _ => True := by
  cases pos with
  | none => exact throw
  | some pos => exact pure trivial

theorem bind {next next' : α → Compiling β} {P : β → Prop} (h : Parallel R act act' Q)
    (hnext : ∀ val, Q val → Parallel R (next val) (next' val) P) :
    Parallel R (act >>= next) (act' >>= next') P :=
  fun b b' hb => (h b b' hb).bind hnext

theorem map {P : β → Prop} (h : Parallel R act act' Q) {f : α → β}
    (hf : ∀ val, Q val → P (f val)) : Parallel R (f <$> act) (f <$> act') P := by
  exact h.bind fun val hval => pure (hf val hval)

theorem get_bind {next next' : Builder → Compiling α}
    (h : ∀ b b', R b b' → InStep R Q (next b b) (next' b' b')) :
    Parallel R (get >>= next) (get >>= next') Q :=
  h

theorem modify {change change' : Builder → Builder} (h : ∀ b b', R b b' → R (change b) (change' b')) :
    Parallel R (modify change : Compiling Unit) (modify change') fun _ => True :=
  fun b b' hb => ⟨rfl, h b b' hb, fun _ _ => trivial⟩

theorem at_ (h : Parallel R act act' Q) (pos : Position) :
    Parallel R (Compiling.at_ pos act) (Compiling.at_ pos act') Q := by
  intro b b' hb
  unfold Compiling.at_
  refine (h b b' hb).elim fun res b₁ b₁' hb₁ hval => ?_
  cases res with
  | error abort => exact .of_error hb₁
  | ok val => exact ⟨rfl, hb₁, hval⟩

theorem recover {handler handler' : Abort → Compiling α} (h : Parallel R act act' Q)
    (hhandler : ∀ abort, Parallel R (handler abort) (handler' abort) Q) :
    Parallel R (tryCatch act handler) (tryCatch act' handler') Q := by
  intro b b' hb
  have hstep := h b b' hb
  rcases hrun : act b with ⟨abort | value, b₁⟩ <;> rcases hrun' : act' b' with ⟨res, b₁'⟩
  all_goals
    rw [hrun, hrun'] at hstep
    obtain ⟨hres, hb₁, hval⟩ := hstep
    subst hres
  · rw [tryCatch_of_error hrun, tryCatch_of_error hrun']
    exact hhandler abort b₁ b₁' hb₁
  · rw [tryCatch_of_ok hrun, tryCatch_of_ok hrun']
    exact ⟨rfl, hb₁, hval⟩

theorem step_if {q : Prop} [Decidable q] {step step' : Compiling PUnit}
    {rest rest' : PUnit → Compiling α} {P : PUnit → Prop} (hstep : Parallel R step step' P)
    (hrest : Parallel R (rest ⟨⟩) (rest' ⟨⟩) Q) :
    Parallel R (if q then step >>= rest else rest ⟨⟩) (if q then step' >>= rest' else rest' ⟨⟩) Q := by
  split
  · exact hstep.bind fun _ _ => hrest
  · exact hrest

theorem between {enter leave : Builder → Builder} (h : Parallel R' act act' Q)
    (henter : ∀ b b', R b b' → R' (enter b) (enter b')) (hleave : ∀ b b', R' b b' → R (leave b) (leave b')) :
    Parallel R (Compiling.between enter leave act) (Compiling.between enter leave act') Q := by
  intro b b' hb
  obtain ⟨hres, hrelated, hval⟩ := h _ _ (henter b b' hb)
  exact ⟨hres, hleave _ _ hrelated, hval⟩

section Recording

variable (hR : IsRecording R)

include hR

theorem warn (pos : Position) (cause : Cause) :
    Parallel R (Compiling.warn pos cause) (Compiling.warn pos cause) fun _ => True :=
  modify fun _ _ hb => hR.report _ hb

theorem note : Parallel R Compiling.note Compiling.note fun _ => True := by
  refine get_bind fun b b' hb => ?_
  rw [hR.session hb]
  split
  · exact throw b b' hb
  · exact pure trivial b b' hb

theorem record (pos : Position) (fail : Failure) :
    Parallel R (Compiling.record pos fail) (Compiling.record pos fail) fun _ => True :=
  (modify fun _ _ hb => hR.report _ hb).bind fun _ _ => note hR

theorem safely {act act' : Compiling Plan} {Q : Plan → Prop} (h : Parallel R act act' Q)
    (hdepth : ∀ b b', R b b' → b'.stack.depth = b.stack.depth) (pos : Option Position)
    (hnoOp : ∀ pos, Q (Plan.noOp pos)) :
    Parallel R (Compiling.safely pos act) (Compiling.safely pos act') Q := by
  intro b b' hb
  unfold Compiling.safely
  rw [hdepth b b' hb]
  refine (h b b' hb).elim fun res b₁ b₁' hb₁ hval => ?_
  cases res with
  | ok plan => exact ⟨rfl, hb₁, hval⟩
  | error abort =>
    cases pos with
    | none => exact .of_error hb₁
    | some pos =>
      dsimp only
      rw [hdepth b₁ b₁' hb₁]
      split
      · exact .of_error hb₁
      · split
        · exact .of_error hb₁
        · exact ((record hR _ _).bind fun _ _ => pure (hnoOp _)) b₁ b₁' hb₁

protected theorem compileAlone {e e' : Environment} {expr : Expr} {Q : Plan → Prop}
    (h : Parallel R (compileExpr e expr) (compileExpr e' expr) Q) :
    Parallel R (compileAlone e expr) (compileAlone e' expr) fun res => ∀ p ∈ res, Q p := by
  intro b b' hb
  unfold compileAlone
  refine (h b b' hb).elim fun res b₁ b₁' hb₁ hval => ?_
  cases res with
  | ok plan => exact ⟨rfl, hb₁, fun _ hok => Except.ok.inj hok ▸ by simpa using hval plan rfl⟩
  | error abort =>
    cases expr.position? with
    | none => exact .of_error hb₁
    | some pos => exact ((record hR _ _).bind fun _ _ => pure (by simp)) b₁ b₁' hb₁

end Recording

/-! ### Compiling again -/

protected theorem guardRecompile (R' : Builder → Builder → Prop) {key : String} (name : String)
    (hbusy : ∀ b b', R b b' → b'.recompiling = b.recompiling) (h : ∀ b b', R b b' → key ∉ b.recompiling →
      InStep R' Q (act { b with recompiling := key :: b.recompiling })
        (act' { b' with recompiling := key :: b'.recompiling }))
    (hleave : ∀ b b', R' b b' → R { b with recompiling := b.recompiling.erase key }
      { b' with recompiling := b'.recompiling.erase key }) :
    Parallel R (guardRecompile key name act) (guardRecompile key name act')
      Q := by
  refine get_bind fun b b' hb => ?_
  rw [hbusy b b' hb]
  split
  · exact .of_error hb
  · rename_i hfree
    obtain ⟨hres, hrelated, hval⟩ := h b b' hb (by simpa using hfree)
    exact ⟨hres, hleave _ _ hrelated, hval⟩

protected theorem readDeclaration (store : DeclarationStore)
    (parse : String → Except Abort OperatorDeclaration)
    (op : Operator) : Parallel R (readDeclaration store parse op)
      (readDeclaration store parse op) fun _ => True := by
  unfold readDeclaration
  split
  · exact throw
  · split
    · exact throw
    · exact step_if (throw (Q := fun _ => True)) (pure trivial)

protected theorem raiseErrors (msgs : Messages) :
    Parallel R (raiseErrors msgs) (raiseErrors msgs) fun _ => True := by
  unfold raiseErrors
  split
  · exact throw
  · exact pure trivial

protected theorem isolate (opts : CompilerOptions) (syms : List Symbol) (h : Parallel R' act act' Q)
    (henter : ∀ b b', R b b' →
      R' { b.isolated opts with stack := (b.isolated opts).stack.pushAll syms }
        { b'.isolated opts with stack := (b'.isolated opts).stack.pushAll syms })
    (hleave : ∀ b b' b₁ b₁', R b b' → R' b₁ b₁' → b₁'.messages = b₁.messages ∧
      R { b with workspace := b₁.workspace, recompiling := b₁.recompiling }
        { b' with workspace := b₁'.workspace, recompiling := b₁'.recompiling }) :
    Parallel R (isolate opts syms act) (isolate opts syms act') fun res => Q res.1 := by
  intro b b' hb
  unfold isolate
  dsimp only
  refine (h _ _ (henter b b' hb)).elim fun res b₁ b₁' hb₁ hval => ?_
  obtain ⟨hmsgs, hws⟩ := hleave b b' b₁ b₁' hb hb₁
  cases res with
  | error abort => exact .of_error hws
  | ok val =>
    dsimp only
    rw [hmsgs]
    exact ⟨rfl, hws, fun _ hok => Except.ok.inj hok ▸ hval val rfl⟩

variable {free : Prop} {c : Compiler} {e e' : Environment}

protected theorem recompileOperator {op : Operator} (hR' : IsRecording R')
    (hguard : ∀ act act' : Compiling Unit, (free → Parallel R' act act' fun _ => True) →
      Parallel R (guardRecompile ("operator " ++ op.name) op.name act)
        (guardRecompile ("operator " ++ op.name) op.name act') fun _ => True)
    (hbody : free → ∀ decl : OperatorDeclaration,
      Parallel R' (isolate c.options (parameterSymbols decl op)
          (Compiling.safely decl.body.position? (compileStmt e decl.body)))
        (isolate c.options (parameterSymbols decl op)
          (Compiling.safely decl.body.position? (compileStmt e' decl.body))) fun _ => True)
    (hbind : ∀ b b' body, R' b b' → R' { b with workspace := b.workspace.bind op (.plan body) }
      { b' with workspace := b'.workspace.bind op (.plan body) }) :
    Parallel R (recompileOperator c e op) (recompileOperator c e' op) fun _ => True := by
  unfold recompileOperator
  split
  · refine hguard _ _ fun hfree => ?_
    refine (Parallel.readDeclaration _ _ op).bind fun decl _ => ?_
    refine (hbody hfree decl).bind ?_
    rintro ⟨body, msgs⟩ -
    refine (modify fun _ _ hb => hR'.report _ hb).bind fun _ _ => ?_
    refine (Parallel.raiseErrors msgs).bind fun _ _ => (note hR').bind fun _ _ => ?_
    exact modify fun b b' hb => hbind b b' body hb
  · exact throw

/-- The definition of a table variable is compiled again with a key of its own, which has to be free. -/
protected theorem inferReferences {tv : TableVar}
    (hguard : ∀ act act' : Compiling Unit, (free → Parallel R' act act' fun _ => True) →
      Parallel R (guardRecompile ("table " ++ tv.name) tv.name act)
        (guardRecompile ("table " ++ tv.name) tv.name act') fun _ => True) (hdef : free →
      Parallel R' (isolate c.options [] (compileAlone e tv.definition))
        (isolate c.options [] (compileAlone e' tv.definition)) fun _ => True)
    (hset : ∀ R₁, R₁ = R ∨ R₁ = R' → ∀ b b' refs, R₁ b b' → R₁ { b with workspace := { b.workspace with
          catalog := b.workspace.catalog.updateTableVar tv.name (·.setReferences refs) } }
        { b' with workspace := { b'.workspace with
          catalog := b'.workspace.catalog.updateTableVar tv.name (·.setReferences refs) } }) :
    Parallel R (inferReferences c e tv) (inferReferences c e' tv) fun _ => True := by
  unfold inferReferences
  split
  · exact modify fun b b' hb => hset R (.inl rfl) b b' [] hb
  · refine hguard _ _ fun hfree => (hdef hfree).bind ?_
    rintro ⟨plan, msgs⟩ -
    refine (Parallel.raiseErrors msgs).bind fun _ _ => ?_
    cases plan with
    | none => exact throw
    | some plan => exact modify fun b b' hb => hset R' (.inr rfl) b b' (referencedNames plan) hb

end Parallel

end Logic

/-! ### Properties that are kept -/

/-- A state with a property, and itself. -/
structure Same (I : Builder → Prop) (b b' : Builder) : Prop where
  eq : b' = b
  holds : I b

/-- Two actions that do the same wherever a property of the state holds, that keep it, and whose result has
a property. -/
abbrev Agree {α : Type} (I : Builder → Prop) (action action' : Compiling α) (Q : α → Prop) : Prop :=
  Parallel (Same I) action action' Q

/-- An action that keeps a property of the state, with a result of a property. -/
abbrev Upholds {α : Type} (I : Builder → Prop) (action : Compiling α) (Q : α → Prop) : Prop :=
  Agree I action action Q

theorem InStep.of_same (h : I out.2) (hval : ∀ val, out.1 = .ok val → Q val) : InStep (Same I) Q out out :=
  ⟨rfl, ⟨rfl, h⟩, hval⟩

theorem InStep.eq {out' : Except Abort α × Builder} (h : InStep (Same I) Q out out') : out' = out :=
  Prod.ext h.result h.related.eq

namespace Same

variable {I' : Builder → Prop} {act act' : Compiling α} {b b' : Builder}

theorem depth_eq (h : Same I b b') : b'.stack.depth = b.stack.depth := by
  rw [h.eq]

theorem isRecording (h : ∀ b messages, I b → I { b with messages }) : IsRecording (Same I) where
  session hb := by rw [hb.eq]
  report added hb := ⟨by rw [hb.eq], h _ _ hb.holds⟩

theorem ends {val : α} (heq : act b = (.ok val, b')) (hb : I b) (h : Upholds I act Q) : I b' ∧ Q val := by
  obtain ⟨-, hkeeps, hval⟩ := h b b ⟨rfl, hb⟩
  rw [heq] at hkeeps hval
  exact ⟨hkeeps.holds, hval val rfl⟩

theorem modify {change : Builder → Builder} (h : ∀ b, I b → I (change b)) :
    Upholds I (modify change : Compiling Unit) fun _ => True :=
  Parallel.modify fun _ _ hb => ⟨congrArg change hb.eq, h _ hb.holds⟩

theorem get_bind {next next' : Builder → Compiling α}
    (h : ∀ b, I b → InStep (Same I) Q (next b b) (next' b b)) : Agree I (get >>= next) (get >>= next') Q := by
  rintro _ b ⟨rfl, hb⟩
  exact h b hb

theorem inspect {next next' : Builder → Compiling α} (h : ∀ b, I b → Agree I (next b) (next' b) Q) :
    Agree I (get >>= next) (get >>= next') Q :=
  get_bind fun b hb => h b hb b b ⟨rfl, hb⟩

theorem between {enter leave : Builder → Builder} (h : Agree I' act act' Q) (henter : ∀ b, I b → I' (enter b))
    (hleave : ∀ b, I' b → I (leave b)) :
    Agree I (Compiling.between enter leave act) (Compiling.between enter leave act') Q := by
  refine h.between ?_ ?_
  · rintro _ b ⟨rfl, hb⟩
    exact ⟨rfl, henter b hb⟩
  · rintro _ b ⟨rfl, hb⟩
    exact ⟨rfl, hleave b hb⟩

theorem leaveScope {out out' : Except Abort α × Builder} (h : InStep (Same I') Q out out') (guard : Guard)
    (hleave : ∀ (b : Builder) (stack : Stack), I' b → stack.symbols ⊆ b.stack.symbols →
      I { b with stack }) :
    InStep (Same I) Q (Compiling.leaveScope guard out) (Compiling.leaveScope guard out') := by
  refine h.leaveScope ?_
  rintro _ b ⟨rfl, hb⟩
  exact ⟨rfl, rfl, hleave b _ hb (b.stack.symbols_release_subset guard)⟩

theorem inScope {syms : List Symbol} (h : Agree I' act act' Q)
    (henter : ∀ b, I b → I' { b with stack := b.stack.openFrame.pushAll syms })
    (hleave : ∀ (b : Builder) (stack : Stack), I' b → stack.symbols ⊆ b.stack.symbols →
      I { b with stack }) : Agree I (Compiling.inScope syms act) (Compiling.inScope syms act') Q := by
  rintro _ b ⟨rfl, hb⟩
  exact leaveScope (h _ _ ⟨rfl, henter b hb⟩) (b.stack.guard false) hleave

theorem inWindow (h : Agree I' act act' Q) (henter : ∀ b, I b → I' { b with stack := b.stack.openWindow 0 })
    (hleave : ∀ (b : Builder) (stack : Stack), I' b → stack.symbols ⊆ b.stack.symbols →
      I { b with stack }) : Agree I (Compiling.inWindow act) (Compiling.inWindow act') Q := by
  rintro _ b ⟨rfl, hb⟩
  exact leaveScope (h _ _ ⟨rfl, henter b hb⟩) (b.stack.guard true) hleave

protected theorem guardRecompile {key : String} (name : String)
    (h : ∀ b : Builder, I b → key ∉ b.recompiling →
      InStep (Same I') Q (act { b with recompiling := key :: b.recompiling })
        (act' { b with recompiling := key :: b.recompiling }))
    (hleave : ∀ b, I' b → I { b with recompiling := b.recompiling.erase key }) :
    Agree I (guardRecompile key name act) (guardRecompile key name act')
      Q := by
  refine .guardRecompile (Same I') name (fun b b' hb => by rw [hb.eq]) ?_ ?_
  · rintro _ b ⟨rfl, hb⟩
    exact h b hb
  · rintro _ b ⟨rfl, hb⟩
    exact ⟨rfl, hleave b hb⟩

protected theorem isolate (opts : CompilerOptions) (syms : List Symbol) (h : Agree I' act act' Q)
    (henter : ∀ b, I b → I' { b.isolated opts with stack := (b.isolated opts).stack.pushAll syms })
    (hleave : ∀ b b', I b → I' b' →
      I { b with workspace := b'.workspace, recompiling := b'.recompiling }) :
    Agree I (isolate opts syms act) (isolate opts syms act') fun res => Q res.1 := by
  refine h.isolate opts syms ?_ ?_
  · rintro _ b ⟨rfl, hb⟩
    exact ⟨rfl, henter b hb⟩
  · rintro _ b _ b₁ ⟨rfl, hb⟩ ⟨rfl, hb₁⟩
    exact ⟨rfl, rfl, hleave b b₁ hb hb₁⟩

end Same

end Relational
