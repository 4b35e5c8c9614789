import Relational.Proofs.Compile.Invariant
import Relational.Proofs.Compile.Marks
import Relational.Proofs.Compile.Reports

/-!
# The course of a compilation

In a quiet workspace, the setting in which an action of a compilation starts determines what the action
does: its result, the symbols that it leaves on the stack, and the messages that it adds. What was
recorded before makes no difference, and neither do marks of modified symbols.
-/

namespace Relational

open Compiling List

/-- A compilation in a setting, on a workspace and with a policy. -/
structure Builder.At (w : Workspace) (policy : CollisionPolicy) (Γ : Setting) (b : Builder) : Prop
    extends Builder.In Γ b where
  workspace_eq : b.workspace = w
  policy_eq : b.stack.policy = policy

/-- Two compilations that have pushed the same symbols and added the same messages since they were in a
setting, with messages of their own. -/
def Builder.Abreast (w : Workspace) (policy : CollisionPolicy) (Γ : Setting) (m m' : Messages)
    (b b' : Builder) : Prop :=
  ∃ symbols added, (b.At w policy (Γ.push symbols) ∧ b.messages = m ++ added) ∧
    b'.At w policy (Γ.push symbols) ∧ b'.messages = m' ++ added

/-- An action whose course is determined by the setting it starts in. -/
def Steady {α : Type} (w : Workspace) (policy : CollisionPolicy) (action : Compiling α) : Prop :=
  ∀ Γ m m', Parallel (Builder.Abreast w policy Γ m m') action action fun _ => True

/-! ### Scopes -/

theorem Stack.policy_pushAll (s : Stack) (syms : List Symbol) : (s.pushAll syms).policy = s.policy := by
  induction syms generalizing s with
  | nil => rfl
  | cons sym syms ih => exact ih _

theorem Stack.policy_release (s : Stack) (guard : Guard) : (s.release guard).1.policy = s.policy := by
  unfold release
  dsimp only
  repeat' split
  all_goals rfl

namespace Builder

variable {w : Workspace} {policy : CollisionPolicy} {Γ Γ' : Setting} {m m' : Messages} {b b' : Builder}
  {more : List Symbol}

theorem At.like (h : b.At w policy Γ) (h' : b'.At w policy Γ) : b.Like b' :=
  ⟨h'.setting.trans h.setting.symm, h'.workspace_eq.trans h.workspace_eq.symm,
    h'.policy_eq.trans h.policy_eq.symm⟩

theorem At.openFrame (h : b.At w policy Γ) (syms : List Symbol) :
    At w policy (Γ.enter syms) { b with stack := b.stack.openFrame.pushAll syms } :=
  ⟨h.toIn.openFrame.pushAll syms, h.workspace_eq, (Stack.policy_pushAll _ _).trans h.policy_eq⟩

theorem At.openWindow (h : b.At w policy Γ) : At w policy Γ.hide { b with stack := b.stack.openWindow 0 } :=
  ⟨h.toIn.openWindow, h.workspace_eq, h.policy_eq⟩

theorem At.of_leaveScope {guard : Guard} (h' : b'.At w policy Γ')
    (h : ∃ b'', leaveScope guard ((.ok () : Except Abort Unit), b') = (.ok (), b'') ∧ b''.In Γ) :
    (b'.stack.release guard).2.2 = none ∧
      At w policy Γ { b' with stack := (b'.stack.release guard).1 } := by
  obtain ⟨b'', hleave, hb''⟩ := h
  rw [leaveScope_eq] at hleave
  obtain ⟨hres, rfl⟩ := Prod.mk.inj hleave
  refine ⟨?_, hb'', h'.workspace_eq, (Stack.policy_release _ _).trans h'.policy_eq⟩
  cases hcause : (b'.stack.release guard).2.2 with
  | none => rfl
  | some cause =>
    rw [hcause] at hres
    cases hres

theorem At.leaveFrame {syms : List Symbol} (h : b.At w policy Γ)
    (h' : b'.At w policy ((Γ.enter syms).push more)) :
    (b'.stack.release (b.stack.guard false)).2.2 = none ∧
      At w policy Γ { b' with stack := (b'.stack.release (b.stack.guard false)).1 } := by
  have hin := h'.toIn
  rw [Setting.enter, Setting.push_push] at hin
  exact h'.of_leaveScope (h.toIn.leaveFrame hin _)

theorem At.leaveWindow (h : b.At w policy Γ) (h' : b'.At w policy (Γ.hide.push more)) :
    (b'.stack.release (b.stack.guard true)).2.2 = none ∧
      At w policy Γ { b' with stack := (b'.stack.release (b.stack.guard true)).1 } :=
  h'.of_leaveScope (h.toIn.leaveWindow more h'.toIn _)

theorem Abreast.refl (h : b.At w policy Γ) (h' : b'.At w policy Γ) :
    b.Abreast w policy Γ b.messages b'.messages b' :=
  ⟨[], [], ⟨h, (append_nil _).symm⟩, h', (append_nil _).symm⟩

section

variable (h : b.Abreast w policy Γ m m' b')

include h

theorem Abreast.like : b.Like b' := by
  obtain ⟨syms, added, ⟨hb, -⟩, hb', -⟩ := h
  exact hb.like hb'

theorem Abreast.workspace_eq : b.workspace = w := by
  obtain ⟨syms, added, ⟨hb, -⟩, -⟩ := h
  exact hb.workspace_eq

theorem Abreast.depth_eq : b'.stack.depth = b.stack.depth := by
  obtain ⟨syms, added, ⟨hb, -⟩, hb', -⟩ := h
  rw [hb.toIn.depth_eq, hb'.toIn.depth_eq]

end

theorem isRecording_abreast : IsRecording (Abreast w policy Γ m m') where
  session h := by rw [h.like.workspace]
  report := by
    rintro b b' more ⟨syms, added, ⟨hb, hmsgs⟩, hb', hmsgs'⟩
    refine ⟨syms, added ++ more, ⟨⟨⟨hb.setting, hb.frames⟩, hb.workspace_eq, hb.policy_eq⟩, ?_⟩,
      ⟨⟨hb'.setting, hb'.frames⟩, hb'.workspace_eq, hb'.policy_eq⟩, ?_⟩
    · rw [← append_assoc, ← hmsgs]
    · rw [← append_assoc, ← hmsgs']

end Builder

namespace Steady

variable {α β : Type} {w : Workspace} {policy : CollisionPolicy} {act : Compiling α}

theorem leaveScope (isWindow : Bool) (inner : Setting → Setting) (enter : Stack → Stack)
    (h : Steady w policy act) (henter : ∀ Γ (b : Builder), b.At w policy Γ →
      Builder.At w policy (inner Γ) { b with stack := enter b.stack })
    (hleave : ∀ Γ (b b' : Builder) more, b.At w policy Γ → b'.At w policy ((inner Γ).push more) →
      (b'.stack.release (b.stack.guard isWindow)).2.2 = none ∧
        Builder.At w policy Γ { b' with stack := (b'.stack.release (b.stack.guard isWindow)).1 }) :
    Steady w policy fun b =>
      Compiling.leaveScope (b.stack.guard isWindow) (act { b with stack := enter b.stack }) := by
  rintro Γ _ _ b b' ⟨syms, added, ⟨hb, hmsgs⟩, hb', hmsgs'⟩
  refine (h _ _ _ _ _ (.refl (henter _ b hb) (henter _ b' hb'))).leaveScope ?_
  rintro b₁ b₁' ⟨more, new, ⟨hb₁, hnew⟩, hb₁', hnew'⟩
  obtain ⟨hcause, hat⟩ := hleave _ b b₁ more hb hb₁
  obtain ⟨hcause', hat'⟩ := hleave _ b' b₁' more hb' hb₁'
  refine ⟨hcause'.trans hcause.symm, syms, added ++ new, ⟨hat, ?_⟩, hat', ?_⟩
  · rw [← append_assoc, ← hmsgs]
    exact hnew
  · rw [← append_assoc, ← hmsgs']
    exact hnew'

theorem inScope (syms : List Symbol) (h : Steady w policy act) :
    Steady w policy (Compiling.inScope syms act) :=
  leaveScope false (·.enter syms) (·.openFrame.pushAll syms) h (fun _ _ hb => hb.openFrame syms)
    fun _ _ _ _ hb hb' => hb.leaveFrame hb'

theorem inWindow (h : Steady w policy act) : Steady w policy (Compiling.inWindow act) :=
  leaveScope true .hide (·.openWindow 0) h (fun _ _ hb => hb.openWindow)
    fun _ _ _ _ hb hb' => hb.leaveWindow hb'

theorem between {enter leave : Builder → Builder} (inner : Setting → Setting) (h : Steady w policy act)
    (henter : ∀ Γ (b : Builder), b.At w policy Γ →
      (enter b).At w policy (inner Γ) ∧ (enter b).messages = b.messages)
    (hleave : ∀ Γ (b : Builder) more, b.At w policy ((inner Γ).push more) →
      (leave b).At w policy (Γ.push more) ∧ (leave b).messages = b.messages) :
    Steady w policy (Compiling.between enter leave act) := by
  rintro Γ _ _ b b' ⟨syms, added, ⟨hb, hmsgs⟩, hb', hmsgs'⟩
  obtain ⟨henter₁, hsame⟩ := henter _ b hb
  obtain ⟨henter₁', hsame'⟩ := henter _ b' hb'
  obtain ⟨hres, ⟨more, new, ⟨hb₁, hnew⟩, hb₁', hnew'⟩, hval⟩ :=
    h _ _ _ _ _ (.refl henter₁ henter₁')
  obtain ⟨hat, hkept⟩ := hleave _ _ more hb₁
  obtain ⟨hat', hkept'⟩ := hleave _ _ more hb₁'
  rw [Setting.push_push] at hat hat'
  refine ⟨hres, ⟨syms ++ more, added ++ new, ⟨hat, ?_⟩, hat', ?_⟩, hval⟩
  · rw [← append_assoc, ← hmsgs, ← hsame, ← hnew, ← hkept]
    rfl
  · rw [← append_assoc, ← hmsgs', ← hsame', ← hnew', ← hkept']
    rfl

theorem within {place : Enclosure} (h : Steady w policy act) :
    Steady w policy (Compiling.within place act) := by
  refine between (·.within place) h (fun Γ b hb => ⟨⟨⟨?_, hb.frames⟩, hb.workspace_eq, hb.policy_eq⟩, rfl⟩)
    fun Γ b more hb => ⟨⟨⟨?_, hb.frames⟩, hb.workspace_eq, hb.policy_eq⟩, rfl⟩
  · rw [← hb.setting]
    rfl
  · change b.setting.without place = _
    rw [hb.setting]
    exact (Γ.push more).without_within place

theorem modify {change : Builder → Builder} (more : List Symbol)
    (h : ∀ Γ (b : Builder), b.At w policy Γ → (change b).At w policy (Γ.push more) ∧
      (change b).messages = b.messages) : Steady w policy (modify change : Compiling Unit) := by
  refine fun Γ _ _ => .modify ?_
  rintro b b' ⟨syms, added, ⟨hb, hmsgs⟩, hb', hmsgs'⟩
  obtain ⟨hat, hkept⟩ := h _ b hb
  obtain ⟨hat', hkept'⟩ := h _ b' hb'
  rw [Setting.push_push] at hat hat'
  exact ⟨syms ++ more, added, ⟨hat, hkept.trans hmsgs⟩, hat', hkept'.trans hmsgs'⟩

theorem push (sym : Symbol) : Steady w policy (Compiling.push sym) :=
  modify [sym] fun _ _ hb => ⟨⟨hb.toIn.push sym, hb.workspace_eq, hb.policy_eq⟩, rfl⟩

theorem markModified (idx : Nat) : Steady w policy (Compiling.markModified idx) := by
  refine modify [] fun Γ b hb => ⟨⟨?_, hb.workspace_eq, hb.policy_eq⟩, rfl⟩
  obtain ⟨Γ', hin, hΓ, -⟩ := Keeps.markModified idx b hb.toIn
  exact hΓ ▸ hin

/-- An action that leaves the state as it is, with a result that messages and marks do not matter for. -/
theorem of_like (h : ∀ b b' : Builder, b.Like b' → b.workspace = w →
    ∃ res, act b = (res, b) ∧ act b' = (res, b')) : Steady w policy act := by
  intro Γ m m' b b' hb
  obtain ⟨res, hrun, hrun'⟩ := h b b' hb.like hb.workspace_eq
  rw [hrun, hrun']
  exact ⟨rfl, hb, fun _ _ => trivial⟩

end Steady

/-! ### Names, conversions and calls -/

namespace Steady

variable {α : Type} {e : Environment} {w : Workspace} {policy : CollisionPolicy}

section Quiet

variable (hquiet : w.IsQuiet)

include hquiet

theorem lookUp_bind {next : Option ResolvedName → Compiling α}
    (hdev : e.options.resolution.device = "") (binding : Binding) (pos : Position)
    (name : String) (hnext : ∀ found, Steady w policy (next found))
    (hmark : ∀ found, next (found.map ResolvedName.unmodified) = next found) :
    Steady w policy (lookUp e binding pos name >>= next) := by
  intro Γ m m' b b' hb
  rw [bind_apply, bind_apply]
  obtain ⟨abort, hrun, hrun'⟩ | ⟨found, other, hrun, hrun', hunmodified⟩ :=
    lookUp_like hb.like (hb.workspace_eq ▸ hquiet) hdev binding pos name
  · rw [hrun, hrun']
    exact .of_error hb
  · have hnexts : next other = next found := by rw [← hmark other, hunmodified, hmark]
    rw [hrun, hrun']
    dsimp only
    rw [hnexts]
    exact hnext found Γ m m' b b' hb

theorem conversionBetween (src tgt : Ty) : Steady w policy (Compiling.conversionBetween e src tgt) := by
  refine of_like fun b b' hlike hw => ⟨.ok (w.findConversion e.options.widen src tgt).1, ?_⟩
  have hsame := hquiet.findConversion_snd e.options.widen src tgt
  have hrun : ∀ b : Builder, b.workspace = w → Compiling.conversionBetween e src tgt b =
      (.ok (w.findConversion e.options.widen src tgt).1, b) := by
    intro b hw
    unfold Compiling.conversionBetween
    dsimp only
    rw [hw, hsame, ← hw]
  exact ⟨hrun b hw, hrun b' (hlike.workspace.trans hw)⟩

theorem overloadFor (name : String) (args : List Plan) :
    Steady w policy (Compiling.overloadFor e name args) := by
  refine of_like fun b₁ b₁' hlike hw => ?_
  have hrun : ∀ b : Builder, b.workspace = w → b.scope = b₁.scope →
      Compiling.overloadFor e name args b = ((selectOperator e.options.resolution b₁.scope name
        (args.map fun p => { type := p.type }) false w).1, b) := by
    rintro b rfl hscope
    refine overloadFor_apply ?_ fun found _ => hquiet.compiled found.operator
    rw [hscope]
    exact hquiet.selectOperator_apply
  exact ⟨_, hrun b₁ hw rfl, hrun b₁' (hlike.workspace.trans hw) (congrArg Setting.scope hlike.setting)⟩

/-- All steps of compiling a statement are steady. -/
theorem stmtCompositional (hdev : e.options.resolution.device = "") :
    StmtCompositional e fun _ => Steady w policy where
  pure _ _ _ _ := .pure trivial
  bind h hnext Γ m m' := (h Γ m m').bind fun val _ => hnext val Γ m m'
  fault _ _ _ _ := .throw
  raise _ _ _ _ := .raise
  fatal _ _ _ := .fatal
  warn pos _ _ _ _ _ := Parallel.warn Builder.isRecording_abreast pos _
  at_ h pos Γ m m' := (h Γ m m').at_ pos
  recover h hhandler Γ m m' := (h Γ m m').recover fun abort =>
    hhandler abort (fun _ _ _ => .throw) Γ m m'
  inScope := inScope
  get_bind h hlike Γ m m' := .get_bind fun b b' hb => by
    rw [hlike b b' hb.like]
    exact h b Γ m m' b b' hb
  markModified := markModified
  lookUp_bind := lookUp_bind hquiet hdev
  conversionBetween := conversionBetween hquiet
  overloadFor := overloadFor hquiet
  inWindow := inWindow
  within := within
  push := push
  safely h pos Γ m m' := (h Γ m m').safely Builder.isRecording_abreast
    (fun _ _ => Builder.Abreast.depth_eq) pos fun _ => trivial

end Quiet

end Steady

end Relational
