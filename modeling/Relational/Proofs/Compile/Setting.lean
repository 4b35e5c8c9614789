import Relational.Compile.Basic
import Relational.Proofs.Plan.Scope
import Relational.Proofs.Resolution.Effects

/-!
# What compilations keep

The setting of a compilation is what its constructs depend on and must leave as they found it: the
symbols, frames and windows of the stack, the numbers of loops and handlers around, the objects being
compiled again, the scope, and the operators that calls are resolved with. Messages, marks of modified
symbols and the rest of the workspace may change.

Actions are specified by what they do to a setting, whether they succeed or fail; there is one rule for
each combinator.
-/

namespace Relational

open List

/-- A symbol without its mark. -/
def Symbol.unmodified (s : Symbol) : Symbol :=
  { s with isModified := false }

/-- What the constructs of a compilation depend on and leave as they found it. -/
structure Setting where
  symbols : List Symbol
  frames : List Nat
  windows : List Nat
  nesting : Nesting
  recompiling : List String
  scope : PlanScope
  isReconciling : Bool
  operators : OperatorView

namespace Setting

/-- The visible symbols, innermost first. -/
def visible (Γ : Setting) : List Symbol :=
  Γ.symbols.take (Γ.symbols.length - Γ.windows.headD 0)

/-- The setting with more symbols, the last one innermost. -/
def push (Γ : Setting) (symbols : List Symbol) : Setting :=
  { Γ with symbols := (symbols.map Symbol.unmodified).reverse ++ Γ.symbols }

/-- The setting inside one more frame. -/
def inFrame (Γ : Setting) : Setting :=
  { Γ with frames := Γ.frames ++ [Γ.symbols.length] }

/-- The setting inside a frame with symbols of its own. -/
def enter (Γ : Setting) (symbols : List Symbol) : Setting :=
  Γ.inFrame.push symbols

/-- The setting inside a window that hides all symbols. -/
def hide (Γ : Setting) : Setting :=
  { Γ.inFrame with windows := Γ.symbols.length :: Γ.windows }

/-- The setting within one more loop or handler. -/
def within (Γ : Setting) (place : Enclosure) : Setting :=
  { Γ with nesting := Γ.nesting.enter place }

/-- The setting outside of a loop or handler. -/
def without (Γ : Setting) (place : Enclosure) : Setting :=
  { Γ with nesting := Γ.nesting.leave place }

theorem without_within (Γ : Setting) (place : Enclosure) : (Γ.within place).without place = Γ := by
  cases place <;> rfl

/-- The setting after a statement, with the symbol that it declares. -/
def declare (Γ : Setting) (p : Plan) : Setting :=
  Γ.push p.declaredSymbol?.toList

/-- The setting after statements, with the symbols that they declare. -/
def declareAll (Γ : Setting) (ps : List Plan) : Setting :=
  Γ.push (ps.filterMap Plan.declaredSymbol?)

/-- A setting with more symbols than another. -/
def Extends (Γ' Γ : Setting) : Prop :=
  ∃ more, Γ' = Γ.push more

variable (Γ : Setting)

theorem push_push (syms more : List Symbol) : (Γ.push syms).push more = Γ.push (syms ++ more) := by
  simp [push]

theorem Extends.refl : Γ.Extends Γ :=
  ⟨[], rfl⟩

theorem declareAll_cons (p : Plan) (ps : List Plan) :
    Γ.declareAll (p :: ps) = (Γ.declare p).declareAll ps := by
  rw [declareAll, declareAll, declare, push_push]
  cases h : p.declaredSymbol? <;> simp [h]

theorem declare_of_none {Γ : Setting} {p : Plan} (h : p.declaredSymbol? = none) : Γ.declare p = Γ := by
  rw [declare, h]
  rfl

end Setting

/-- The setting of a compilation. -/
def Builder.setting (b : Builder) : Setting where
  symbols := b.stack.symbols.map Symbol.unmodified
  frames := b.stack.frames
  windows := b.stack.windows
  nesting := b.nesting
  recompiling := b.recompiling
  scope := b.scope
  isReconciling := b.workspace.isReconciling
  operators := b.workspace.operatorView

/-- A compilation in a setting, with a mark for each of its open frames. -/
structure Builder.In (Γ : Setting) (b : Builder) : Prop where
  setting : b.setting = Γ
  frames : b.stack.frameCount ≤ b.stack.marks.length

/-- The outcome of an action that ends in a setting with a property. -/
def Ends {α : Type} (ok : α → Setting → Prop) (err : Setting → Prop) :
    Except Abort α × Builder → Prop
  | (.ok value, b) => ∃ Γ, b.In Γ ∧ ok value Γ
  | (.error _, b) => ∃ Γ, b.In Γ ∧ err Γ

theorem Builder.in_of_ends {α : Type} {Γ : Setting} {ok : α → Setting → Prop} {err : Setting → Prop}
    {out : Except Abort α × Builder} (h : Ends ok err out)
    (hok : ∀ val Γ', ok val Γ' → Γ' = Γ) (herr : ∀ Γ', err Γ' → Γ' = Γ) : out.2.In Γ := by
  match out, h with
  | (.ok val, _), ⟨Γ', hb', hval⟩ => exact hok val Γ' hval ▸ hb'
  | (.error _, _), ⟨Γ', hb', hend⟩ => exact herr Γ' hend ▸ hb'

/-- From a setting, an action ends in a setting with a property. -/
def Runs {α : Type} (Γ : Setting) (action : Compiling α) (ok : α → Setting → Prop)
    (err : Setting → Prop) : Prop :=
  ∀ b : Builder, b.In Γ → Ends ok err (action b)

namespace Runs

variable {α β : Type} {Γ Γ' : Setting} {act : Compiling α} {ok ok' inner : α → Setting → Prop}
  {err err' innerErr : Setting → Prop}

theorem imp (h : Runs Γ act ok err) (hok : ∀ val Γ', ok val Γ' → ok' val Γ')
    (herr : ∀ Γ', err Γ' → err' Γ') : Runs Γ act ok' err' := by
  intro b hb
  have hends := h b hb
  match act b, hends with
  | (.ok val, b'), ⟨Γ', hb', hval⟩ => exact ⟨Γ', hb', hok val Γ' hval⟩
  | (.error _, b'), ⟨Γ', hb', hend⟩ => exact ⟨Γ', hb', herr Γ' hend⟩

theorem ends {val : α} {b b' : Builder} (heq : act b = (.ok val, b')) (hb : b.In Γ)
    (h : Runs Γ act ok err) : ∃ Γ', b'.In Γ' ∧ ok val Γ' := by
  have hends := h b hb
  rwa [heq] at hends

theorem pure {val : α} (h : ok val Γ) : Runs Γ (Pure.pure val) ok err :=
  fun _ hb => ⟨Γ, hb, h⟩

theorem throw {abort : Abort} (h : err Γ) : Runs Γ (throw abort : Compiling α) ok err :=
  fun _ hb => ⟨Γ, hb, h⟩

theorem bind {next : α → Compiling β} {ok' : β → Setting → Prop} (h : Runs Γ act ok err)
    (hnext : ∀ val Γ', ok val Γ' → Runs Γ' (next val) ok' err) : Runs Γ (act >>= next) ok' err := by
  intro b hb
  have hends := h b hb
  rw [bind_apply]
  match act b, hends with
  | (.ok val, b'), ⟨Γ', hb', hval⟩ => exact hnext val Γ' hval b' hb'
  | (.error _, b'), ⟨Γ', hb', hend⟩ => exact ⟨Γ', hb', hend⟩

theorem get : Runs Γ (MonadState.get : Compiling Builder) (fun b Γ' => Γ' = Γ ∧ b.In Γ) err :=
  fun _ hb => ⟨Γ, hb, rfl, hb⟩

theorem modify {change : Builder → Builder} (h : ∀ b : Builder, b.In Γ → (change b).In Γ') :
    Runs Γ (modify change : Compiling Unit) (fun _ Γ'' => Γ'' = Γ') err :=
  fun b hb => ⟨Γ', h b hb, rfl⟩

theorem at_ (h : Runs Γ act ok err) (pos : Position) : Runs Γ (Compiling.at_ pos act) ok err := by
  intro b hb
  have hends := h b hb
  unfold Compiling.at_
  match act b, hends with
  | (.ok _, _), hend => exact hend
  | (.error _, _), hend => exact hend

theorem between {enter leave : Builder → Builder} {f : Setting → Setting}
    (h : Runs Γ' act (fun val Γ'' => ok val (f Γ'')) fun Γ'' => err (f Γ''))
    (henter : ∀ b : Builder, b.In Γ → (enter b).In Γ')
    (hleave : ∀ (b : Builder) Γ'', b.In Γ'' → (leave b).In (f Γ'')) :
    Runs Γ (Compiling.between enter leave act) ok err := by
  intro b hb
  have hends := h (enter b) (henter b hb)
  change Ends ok err ((act (enter b)).1, leave (act (enter b)).2)
  match act (enter b), hends with
  | (.ok val, b'), ⟨Γ'', hb', hval⟩ => exact ⟨_, hleave b' Γ'' hb', hval⟩
  | (.error _, b'), ⟨Γ'', hb', hend⟩ => exact ⟨_, hleave b' Γ'' hb', hend⟩

end Runs

namespace Builder

variable {Γ Γ' : Setting} {b b' : Builder}

section

variable (h : b.In Γ)

include h

theorem In.frameCount_eq : b.stack.frameCount = Γ.frames.length := by
  rw [← h.setting]
  change _ = (b.stack.marks.take b.stack.frameCount).length
  rw [length_take]
  exact (Nat.min_eq_left h.frames).symm

theorem In.depth_eq : b.stack.depth = Γ.symbols.length := by
  rw [← h.setting]
  exact (length_map _).symm

theorem In.windows_eq : b.stack.windows = Γ.windows := by
  rw [← h.setting]
  rfl

theorem In.pushAll (syms : List Symbol) : In (Γ.push syms) { b with stack := b.stack.pushAll syms } := by
  obtain ⟨hsyms, hwins, hframes, hmarks⟩ := b.stack.pushAll_eq syms
  refine ⟨?_, by simpa only [hframes, hmarks] using h.frames⟩
  rw [← h.setting]
  unfold Builder.setting Setting.push Stack.frames
  simp only [hsyms, hwins, hframes, hmarks, map_append, map_reverse]

theorem In.openFrame : In Γ.inFrame { b with stack := b.stack.openFrame } := by
  obtain ⟨hframes, hsound⟩ := Stack.frames_openFrame h.frames
  refine ⟨?_, hsound⟩
  rw [← h.setting]
  unfold Builder.setting Setting.inFrame
  simp only [hframes, length_map]
  rfl

theorem In.openWindow : In Γ.hide { b with stack := b.stack.openWindow 0 } := by
  obtain ⟨hsetting, hsound⟩ := h.openFrame
  refine ⟨?_, hsound⟩
  rw [Setting.hide, ← hsetting, ← h.depth_eq, ← h.windows_eq]
  rfl

theorem In.guard_eq (isWindow : Bool) : b.stack.guard isWindow =
    { depth := Γ.symbols.length, frames := Γ.frames.length, windows := Γ.windows.length, isWindow } := by
  rw [Stack.guard, h.depth_eq, h.frameCount_eq, h.windows_eq]

end

theorem In.truncate {mark : Nat} (h : b.In Γ') (more : List Symbol)
    (hsyms : Γ'.symbols = more ++ Γ.symbols) (hframes : Γ'.frames = Γ.frames ++ [mark]) :
    In { Γ' with symbols := Γ.symbols, frames := Γ.frames }
      { b with stack := b.stack.truncate Γ.symbols.length Γ.frames.length } := by
  have hcount : b.stack.frameCount = Γ.frames.length + 1 := by
    rw [h.frameCount_eq, hframes, length_append, length_singleton]
  have hmarks := h.frames
  refine ⟨?_, ?_⟩
  · have hdepth : b.stack.depth - Γ.symbols.length = more.length := by
      rw [h.depth_eq, hsyms, length_append, Nat.add_sub_cancel]
    have hkept : (b.stack.symbols.drop more.length).map Symbol.unmodified = Γ.symbols := by
      have heq : b.stack.symbols.map Symbol.unmodified = more ++ Γ.symbols := by
        rw [← hsyms, ← h.setting]
        rfl
      rw [map_drop, heq, drop_left]
    have hopen : b.stack.marks.take Γ.frames.length = Γ.frames := by
      have heq : b.stack.marks.take b.stack.frameCount = Γ.frames ++ [mark] := by
        rw [← hframes, ← h.setting]
        rfl
      rw [hcount] at heq
      calc b.stack.marks.take Γ.frames.length
          = (b.stack.marks.take (Γ.frames.length + 1)).take Γ.frames.length := by
            rw [take_take, Nat.min_eq_left (Nat.le_succ _)]
        _ = Γ.frames := by rw [heq, take_left]
    rw [← h.setting]
    unfold Builder.setting Stack.truncate Stack.frames
    simp only [hdepth, hkept, hopen]
  · change Γ.frames.length ≤ b.stack.marks.length
    omega

theorem In.leaveFrame {α : Type} {more : List Symbol} (h : b.In Γ) (h' : b'.In (Γ.inFrame.push more))
    (res : Except Abort α) :
    ∃ b'', Compiling.leaveScope (b.stack.guard false) (res, b') = (res, b'') ∧ b''.In Γ := by
  have hcount : b'.stack.frameCount = Γ.frames.length + 1 := by
    rw [h'.frameCount_eq]
    simp [Setting.push, Setting.inFrame]
  have hdepth : ¬ b'.stack.depth < Γ.symbols.length := by
    rw [h'.depth_eq]
    simp [Setting.push, Setting.inFrame]
  have hcut := h'.truncate (Γ := Γ) _ rfl rfl
  unfold Compiling.leaveScope Stack.release
  rw [h.guard_eq]
  simp only [Bool.false_eq_true, if_false, hcount, ne_eq, not_true, hdepth]
  exact ⟨_, rfl, hcut⟩

theorem In.leaveWindow {α : Type} (h : b.In Γ) (more : List Symbol) (h' : b'.In (Γ.hide.push more))
    (res : Except Abort α) :
    ∃ b'', Compiling.leaveScope (b.stack.guard true) (res, b') = (res, b'') ∧ b''.In Γ := by
  have hwins : b'.stack.windows = Γ.symbols.length :: Γ.windows := h'.windows_eq
  have hopen : In { Γ.hide.push more with windows := Γ.windows }
      { b' with stack := { b'.stack with windows := b'.stack.windows.tail } } := by
    refine ⟨?_, h'.frames⟩
    rw [← h'.setting, hwins]
    rfl
  have hdepth : ¬ Stack.depth { b'.stack with windows := b'.stack.windows.tail } <
      Γ.symbols.length := by
    rw [hopen.depth_eq]
    simp [Setting.push, Setting.hide, Setting.inFrame]
  have hcut := hopen.truncate (Γ := Γ) _ rfl rfl
  unfold Compiling.leaveScope Stack.release
  rw [h.guard_eq]
  rw [hwins] at hdepth hcut
  simp only [Bool.false_eq_true, if_false, if_true, hwins, length_cons, ne_eq, not_true, hdepth]
  exact ⟨_, rfl, hcut⟩

end Builder

variable {syms : List Symbol} {cause : Cause}

section Keeps

variable {α β : Type} {Γ : Setting} {act : Compiling α} {Q R : α → Prop}

/-- An action that ends in the setting it started in, with a value of a property if it succeeds. -/
def Keeps (Γ : Setting) (action : Compiling α) (Q : α → Prop) : Prop :=
  Runs Γ action (fun value Γ' => Γ' = Γ ∧ Q value) (· = Γ)

namespace Keeps

theorem ends {val : α} {b b' : Builder} (heq : act b = (.ok val, b')) (hb : b.In Γ)
    (h : Keeps Γ act Q) : b'.In Γ ∧ Q val := by
  obtain ⟨_, hb', rfl, hval⟩ := Runs.ends heq hb h
  exact ⟨hb', hval⟩

theorem imp (h : Keeps Γ act Q) (hQ : ∀ val, Q val → R val) : Keeps Γ act R :=
  Runs.imp h (fun _ _ ⟨hΓ, hval⟩ => ⟨hΓ, hQ _ hval⟩) fun _ => id

theorem pure {val : α} (h : Q val) : Keeps Γ (Pure.pure val) Q :=
  Runs.pure ⟨rfl, h⟩

theorem throw {abort : Abort} : Keeps Γ (throw abort : Compiling α) Q :=
  Runs.throw rfl

variable {next : α → Compiling β} {pos : Position}

theorem bind {R : β → Prop} (h : Keeps Γ act Q) (hnext : ∀ val, Q val → Keeps Γ (next val) R) :
    Keeps Γ (act >>= next) R := by
  refine Runs.bind h ?_
  rintro val _ ⟨rfl, hval⟩
  exact hnext val hval

theorem map {f : α → β} {R : β → Prop} (h : Keeps Γ act fun val => R (f val)) : Keeps Γ (f <$> act) R := by
  exact h.bind fun val hval => pure hval

theorem bind_runs {ok : β → Setting → Prop} (h : Keeps Γ act Q)
    (hnext : ∀ val, Q val → Runs Γ (next val) ok (· = Γ)) : Runs Γ (act >>= next) ok (· = Γ) := by
  refine .bind h ?_
  rintro val _ ⟨rfl, hval⟩
  exact hnext val hval

theorem step_if {c : Prop} [Decidable c] {step : Compiling PUnit} {rest : PUnit → Compiling α}
    (hstep : Keeps Γ step fun _ => True) (hrest : Keeps Γ (rest ⟨⟩) Q) :
    Keeps Γ (if c then step >>= rest else rest ⟨⟩) Q := by
  split
  · exact hstep.bind fun _ _ => hrest
  · exact hrest

theorem get : Keeps Γ (MonadState.get : Compiling Builder) (·.In Γ) :=
  Runs.get

theorem modify {change : Builder → Builder} (h : ∀ b : Builder, b.In Γ → (change b).In Γ) :
    Keeps Γ (modify change : Compiling Unit) fun _ => True :=
  Runs.imp (.modify h) (fun _ _ hΓ => ⟨hΓ, trivial⟩) fun _ => id

theorem at_ (h : Keeps Γ act Q) (pos : Position) : Keeps Γ (Compiling.at_ pos act) Q :=
  Runs.at_ h pos

theorem raise : Keeps Γ (Compiling.raise pos cause : Compiling α) Q :=
  throw

theorem fatal : Keeps Γ (Compiling.fatal pos cause : Compiling α) Q :=
  throw

theorem locate (pos : Option Position) : Keeps Γ (Compiling.locate pos) fun _ => True := by
  cases pos with
  | none => exact throw
  | some _ => exact pure trivial

theorem warn (pos : Position) (cause : Cause) : Keeps Γ (Compiling.warn pos cause) fun _ => True :=
  modify fun _ hb => ⟨hb.setting, hb.frames⟩

theorem note : Keeps Γ Compiling.note fun _ => True := by
  refine get.bind fun b _ => ?_
  split
  · exact throw
  · exact pure trivial

theorem record (pos : Position) (fail : Failure) : Keeps Γ (Compiling.record pos fail) fun _ => True := by
  exact bind (modify fun _ hb => ⟨hb.setting, hb.frames⟩) fun _ _ => note

theorem leaveScope {P : Setting → Prop} {out : Except Abort α × Builder} {guard : Guard}
    (h : Ends (fun val Γ' => P Γ' ∧ Q val) P out)
    (hleave : ∀ b' Γ' (res : Except Abort α), Builder.In Γ' b' → P Γ' →
      ∃ b'', Compiling.leaveScope guard (res, b') = (res, b'') ∧ b''.In Γ) :
    Ends (fun val Γ' => Γ' = Γ ∧ Q val) (· = Γ) (Compiling.leaveScope guard out) := by
  match out, h with
  | (.ok val, b'), ⟨Γ', hb', hΓ', hval⟩ =>
    obtain ⟨b'', heq, hb''⟩ := hleave b' Γ' (.ok val) hb' hΓ'
    rw [heq]
    exact ⟨Γ, hb'', rfl, hval⟩
  | (.error abort, b'), ⟨Γ', hb', hΓ'⟩ =>
    obtain ⟨b'', heq, hb''⟩ := hleave b' Γ' (.error abort) hb' hΓ'
    rw [heq]
    exact ⟨Γ, hb'', rfl⟩

theorem inScope (h : Runs (Γ.enter syms) act (fun val Γ' => Γ'.Extends (Γ.enter syms) ∧ Q val)
      (·.Extends (Γ.enter syms))) : Keeps Γ (Compiling.inScope syms act) Q := by
  intro b hb
  refine leaveScope (h _ (hb.openFrame.pushAll syms)) ?_
  rintro b' _ res hb' ⟨more, rfl⟩
  rw [Setting.enter, Setting.push_push] at hb'
  exact hb.leaveFrame hb' res

theorem extending (h : Keeps Γ act Q) : Runs Γ act (fun val Γ' => Γ'.Extends Γ ∧ Q val) (·.Extends Γ) := by
  refine .imp h ?_ ?_
  · rintro val _ ⟨rfl, hval⟩
    exact ⟨.refl _, hval⟩
  · rintro _ rfl
    exact .refl _

theorem inWindow (h : Keeps Γ.hide act Q) : Keeps Γ (Compiling.inWindow act) Q := by
  intro b hb
  refine leaveScope (h _ hb.openWindow) ?_
  rintro b' _ res hb' rfl
  exact hb.leaveWindow [] hb' res

end Keeps

theorem Keeps.markModified (idx : Nat) : Keeps Γ (Compiling.markModified idx) fun _ => True := by
  refine Keeps.modify fun b hb => ⟨?_, hb.frames⟩
  have hsyms : (b.stack.symbols.modify idx fun symbol =>
      { symbol with isModified := true }).map Symbol.unmodified =
        b.stack.symbols.map Symbol.unmodified := by
    refine ext_getElem? fun i => ?_
    rw [getElem?_map, getElem?_modify, getElem?_map]
    cases b.stack.symbols[i]? with
    | none => rfl
    | some symbol =>
      split <;> rfl
  rw [← hb.setting]
  unfold Builder.setting Stack.modify
  rw [hsyms]
  rfl

namespace Runs

variable {ok : α → Setting → Prop} {err : Setting → Prop}

theorem within {place : Enclosure} (h : Runs (Γ.within place) act (fun val Γ' => ok val (Γ'.without place))
      fun Γ' => err (Γ'.without place)) : Runs Γ (Compiling.within place act) ok err := by
  refine .between h (fun b hb => ⟨?_, hb.frames⟩) fun b _ hb => ⟨?_, hb.frames⟩
  all_goals
    rw [← hb.setting]
    rfl

end Runs

theorem Keeps.within {place : Enclosure} (h : Keeps (Γ.within place) act Q) :
    Keeps Γ (Compiling.within place act) Q := by
  refine Runs.within (Runs.imp h ?_ ?_)
  · rintro val _ ⟨rfl, hval⟩
    exact ⟨Γ.without_within place, hval⟩
  · rintro _ rfl
    exact Γ.without_within place

end Keeps

section Declares

variable {Γ : Setting} {act : Compiling Plan} {Q : Plan → Prop}

/-- An action that leaves the symbol that its plan declares, if it succeeds, and nothing if it fails. -/
def Declares (Γ : Setting) (action : Compiling Plan) (Q : Plan → Prop) : Prop :=
  Runs Γ action (fun p Γ' => Γ' = Γ.declare p ∧ Q p) (· = Γ)

namespace Declares

theorem of_keeps (h : Keeps Γ act fun p => p.declaredSymbol? = none ∧ Q p) : Declares Γ act Q := by
  refine .imp h ?_ fun _ => id
  rintro p _ ⟨rfl, hnone, hp⟩
  exact ⟨(Setting.declare_of_none hnone).symm, hp⟩

theorem extending (h : Declares Γ act Q) : Runs Γ act (fun p Γ' => Γ'.Extends Γ ∧ Q p) (·.Extends Γ) := by
  refine .imp h ?_ ?_
  · rintro p _ ⟨rfl, hp⟩
    exact ⟨⟨_, rfl⟩, hp⟩
  · rintro _ rfl
    exact .refl _

theorem inScope (h : Declares (Γ.enter syms) act Q) : Keeps Γ (Compiling.inScope syms act) Q :=
  .inScope h.extending

theorem within {place : Enclosure} (h : Declares (Γ.within place) act Q) :
    Declares Γ (Compiling.within place act) Q := by
  refine Runs.within (Runs.imp h ?_ ?_)
  · rintro p _ ⟨rfl, hp⟩
    exact ⟨(Γ.declare p).without_within place, hp⟩
  · rintro _ rfl
    exact Γ.without_within place

theorem safely (h : Declares Γ act Q) (hnoOp : ∀ pos, Q (Plan.noOp pos))
    (pos : Option Position) : Declares Γ (Compiling.safely pos act) Q := by
  have hrecord : ∀ pos fail, Declares Γ (do
      Compiling.record pos fail
      return .noOp pos) Q := fun pos fail =>
    of_keeps ((Keeps.record pos fail).bind fun _ _ => .pure ⟨rfl, hnoOp pos⟩)
  intro b hb
  have hends := h b hb
  unfold Compiling.safely
  match act b, hends with
  | (.ok p, b'), hend => exact hend
  | (.error abort, b'), ⟨Γ', hb', hΓ⟩ =>
    cases pos with
    | none => exact ⟨Γ', hb', hΓ⟩
    | some pos =>
      dsimp only
      split
      · exact ⟨Γ', hb', hΓ⟩
      split
      · exact ⟨Γ', hb', hΓ⟩
      · obtain rfl := hΓ
        exact hrecord pos _ b' hb'

end Declares

end Declares

end Relational
