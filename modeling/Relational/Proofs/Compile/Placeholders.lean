import Relational.Proofs.Compile.Judgement
import Relational.Proofs.Compile.Warnings

/-!
# Errors and placeholders

A statement that fails is recorded as an error, and a placeholder that evaluates nothing stands in its
place. So a statement that is compiled records errors if and only if there are placeholders in its plan:
an error that is raised leaves no plan behind, and where a construct around it fails as well, its own
placeholder takes the place of the whole construct.
-/

namespace Relational

open Compiling Vocabulary List

/-! ### Placeholders -/

namespace Plan

/-- Whether nothing is evaluated somewhere in a plan. -/
def hasNoOp (p : Plan) : Bool :=
  p.nodes.any fun node => node.kind = .noOp

theorem hasNoOp_iff {p : Plan} : p.hasNoOp = true ↔ ∃ node ∈ p.nodes, node.kind = .noOp := by
  simp [hasNoOp]

theorem hasNoOp_make (con : Construct) (type : Option Ty) (pos : Position)
    (children : List Plan) : (make con type pos children).hasNoOp =
      (decide (con.kind = .noOp) || children.any hasNoOp) := by
  rw [hasNoOp, make, nodes_eq, any_cons, any_flatMap]
  rfl

theorem hasNoOp_noOp (pos : Position) : (noOp pos).hasNoOp = true := by
  rfl

theorem any_caseChildren (branches : List (Plan × Plan)) (last : Option Plan) :
    (caseChildren branches last).any hasNoOp =
      (branches.any (fun branch => branch.1.hasNoOp || branch.2.hasNoOp) || last.toList.any hasNoOp) := by
  simp [caseChildren, any_flatMap, any_append]

end Plan

theorem IsExpression.hasNoOp_eq {opts : CompilerOptions} {Γ : Setting} {p : Plan}
    (h : IsExpression opts Γ p) : p.hasNoOp = false := by
  refine any_eq_false.mpr fun node hnode => ?_
  obtain ⟨_, h⟩ := h.exists_of_mem_nodes hnode
  simpa using h.kind_ne.1

/-! ### Outcomes and actions -/

/-- The outcome of an action that adds errors to messages if its value says so, but no fatal ones, and
that is ended by faults and orderly failures only. -/
def Told {α : Type} (c : Compiler) (before : Messages) (hasErrors : α → Bool) :
    Except Abort α × Builder → Prop
  | (.ok value, b) => before.Grow c b.messages (hasErrors value)
  | (.error abort, b) => (∃ errors, before.Grow c b.messages errors) ∧ abort.IsOrderly c

/-- From a setting, and after messages with errors or not, an action tells by its value whether there are
errors then. -/
def Tells {α : Type} (c : Compiler) (Γ : Setting) (told : Bool) (action : Compiling α)
    (hasErrors : α → Bool) : Prop :=
  ∀ (before : Messages) (b : Builder), b.In Γ → before.Grow c b.messages told →
    Told c before hasErrors (action b)

namespace Told

variable {α : Type} {c : Compiler} {before middle : Messages} {hasErrors : α → Bool}
  {out : Except Abort α × Builder}

theorem after {told : Bool} (h : Told c middle hasErrors out) (hmiddle : before.Grow c middle told) :
    Told c before (fun val => told || hasErrors val) out := by
  match out, h with
  | (.ok _, _), h => exact hmiddle.trans h
  | (.error _, _), ⟨⟨_, h⟩, habort⟩ => exact ⟨⟨_, hmiddle.trans h⟩, habort⟩

theorem with_builder {b : Builder} (h : Told c before hasErrors out)
    (hmsgs : b.messages = out.2.messages) : Told c before hasErrors (out.1, b) := by
  match out, h with
  | (.ok _, _), h => exact (congrArg (before.Grow c · _) hmsgs).mpr h
  | (.error _, _), ⟨⟨errors, h⟩, habort⟩ =>
    exact ⟨⟨errors, (congrArg (before.Grow c · errors) hmsgs).mpr h⟩, habort⟩

theorem leaveScope (h : Told c before hasErrors out) (guard : Guard) :
    Told c before hasErrors (leaveScope guard out) := by
  obtain ⟨stack, hleave | ⟨text, htext, hleave⟩⟩ := leaveScope_cases guard out
  · rw [hleave]
    exact h.with_builder rfl
  · rw [hleave]
    match out, h with
    | (.ok _, _), h => exact ⟨⟨_, h⟩, Abort.isOrderly_fault htext⟩
    | (.error _, _), ⟨h, _⟩ => exact ⟨h, Abort.isOrderly_fault htext⟩

end Told

namespace Messages

variable {fail : Failure} {pos : Position} {m : Message} (before : Messages)

/-- The messages of a failure that is recorded. -/
def ofRecord (failure : Failure) (position : Position) : Messages :=
  ofFailure (if failure.isFatal then .fatal else .error) failure position

theorem ofRecord_ne_nil (fail : Failure) (pos : Position) : ofRecord fail pos ≠ [] := by
  have hparts : fail.unlocated.flatten ≠ [] := by
    unfold Failure.flatten
    split <;> simp
  simpa [ofRecord, ofFailure] using hparts

theorem severity_of_mem_ofRecord (h : m ∈ ofRecord fail pos) :
    m.severity = if fail.isFatal then .fatal else .error := by
  obtain ⟨part, -, rfl⟩ := mem_map.mp h
  cases hfatal : fail.isFatal <;> simp

theorem hasErrors_ofRecord (fail : Failure) (pos : Position) : (ofRecord fail pos).hasErrors = true := by
  obtain ⟨m, hm⟩ := exists_mem_of_ne_nil _ (ofRecord_ne_nil fail pos)
  refine any_eq_true.mpr ⟨m, hm, ?_⟩
  rw [Message.isError, severity_of_mem_ofRecord hm]
  cases fail.isFatal <;> rfl

theorem isFatal_of_mem_ofRecord (h : m ∈ ofRecord fail pos) : m.isFatal = fail.isFatal := by
  rw [Message.isFatal, severity_of_mem_ofRecord h]
  cases fail.isFatal <;> rfl

theorem hasErrors_append_ofRecord (fail : Failure) (pos : Position) :
    Messages.hasErrors (before ++ ofRecord fail pos) = true := by
  have happend : hasErrors (before ++ ofRecord fail pos) =
      (before.hasErrors || (ofRecord fail pos).hasErrors) := any_append
  rw [happend, hasErrors_ofRecord, Bool.or_true]

/-- A fatal message after messages that are not fatal is that of a failure that ends the
compilation. -/
theorem isFatal_of_append_ofRecord {before : Messages} (hbefore : before.hasFatal = false)
    (hm : m ∈ before ++ ofRecord fail pos) (h : m.isFatal) : fail.isFatal ∧ m ∈ ofRecord fail pos := by
  rcases mem_append.mp hm with hm | hm
  · exact absurd h (any_eq_false.mp hbefore m hm)
  · exact ⟨isFatal_of_mem_ofRecord hm ▸ h, hm⟩

theorem blamesStack_of_mem_ofRecord (h : m ∈ ofRecord fail pos)
    (hfail : fail.blamesStack = false) : m.failure.blamesStack = false := by
  obtain ⟨part, hpart, rfl⟩ := mem_map.mp h
  exact Failure.blamesStack_of_mem_flatten hfail hpart

theorem grow_record {c : Compiler} (h : fail.isFatal = false)
    (horderly : (Abort.raised fail).IsOrderly c) (pos : Position) :
    before.Grow c (before ++ ofRecord fail pos) true := by
  refine ⟨ofRecord fail pos, rfl, hasErrors_ofRecord fail pos,
    any_eq_false.mpr fun m hm => ?_, fun hfair m hm => ?_⟩
  · rw [isFatal_of_mem_ofRecord hm, h]
    decide
  · exact blamesStack_of_mem_ofRecord hm (horderly.blamesStack hfair)

end Messages

namespace Tells

variable {α β : Type} {c : Compiler} {Γ : Setting} {told : Bool} {act : Compiling α}
  {hasErrors : α → Bool} {next : α → Compiling β} {hasErrors' : β → Bool}

theorem pure {val : α} (h : hasErrors val = told) : Tells c Γ told (Pure.pure val) hasErrors :=
  fun before b _ hbefore => (congrArg (before.Grow c b.messages) h).mpr hbefore

theorem throw {abort : Abort} (h : abort.IsOrderly c) :
    Tells c Γ told (throw abort : Compiling α) hasErrors :=
  fun _ _ _ hb => ⟨⟨told, hb⟩, h⟩

theorem after (h : Tells c Γ false act hasErrors) : Tells c Γ told act fun val => told || hasErrors val :=
  fun _ b hb hbefore => (h b.messages b hb (.refl _)).after hbefore

theorem bind {ok : α → Setting → Prop} {err : Setting → Prop} (h : Tells c Γ told act hasErrors)
    (hruns : Runs Γ act ok err)
    (hnext : ∀ val Γ', ok val Γ' → Tells c Γ' (hasErrors val) (next val) hasErrors') :
    Tells c Γ told (act >>= next) hasErrors' := by
  intro before b hb hbefore
  have hfirst := h before b hb hbefore
  have hends := hruns b hb
  rw [bind_apply]
  match act b, hfirst, hends with
  | (.ok val, b'), hfirst, ⟨Γ', hb', hval⟩ => exact hnext val Γ' hval before b' hb' hfirst
  | (.error _, _), hfirst, _ => exact hfirst

theorem bind_keeps {Q : α → Prop} (h : Tells c Γ told act hasErrors) (hkeeps : Keeps Γ act Q)
    (hnext : ∀ val, Q val → Tells c Γ (hasErrors val) (next val) hasErrors') :
    Tells c Γ told (act >>= next) hasErrors' := by
  refine h.bind hkeeps ?_
  rintro val _ ⟨rfl, hval⟩
  exact hnext val hval

theorem of_warns (h : Warns c act) : Tells c Γ told act fun _ => told := by
  intro before b _ hbefore
  have hact := h b
  match act b, hact with
  | (.ok _, _), hact => exact Bool.or_false told ▸ hbefore.trans hact
  | (.error _, _), ⟨hact, habort⟩ => exact ⟨⟨_, hbefore.trans hact⟩, habort⟩

theorem inScope {syms : List Symbol} (h : Tells c (Γ.enter syms) told act hasErrors) :
    Tells c Γ told (Compiling.inScope syms act) hasErrors :=
  fun before b hb hbefore =>
    (h before _ (hb.openFrame.pushAll syms) hbefore).leaveScope (b.stack.guard false)

theorem within {place : Enclosure} (h : Tells c (Γ.within place) told act hasErrors) :
    Tells c Γ told (Compiling.within place act) hasErrors := by
  intro before b hb hbefore
  have hwithin : Builder.In (Γ.within place) { b with nesting := b.nesting.enter place } :=
    ⟨congrArg (·.within place) hb.setting, hb.frames⟩
  exact (h before _ hwithin hbefore).with_builder rfl

theorem record {fail : Failure} (h : fail.isFatal = false)
    (horderly : (Abort.raised fail).IsOrderly c) (pos : Position) :
    Tells c Γ told (Compiling.record pos fail) fun _ => true := by
  intro before b hb hbefore
  have hgrow : before.Grow c (b.messages ++ Messages.ofRecord fail pos) true :=
    Bool.or_true told ▸ hbefore.trans (Messages.grow_record b.messages h horderly pos)
  have hnote : Tells c Γ true note fun _ => true := of_warns .note
  exact hnote before (b.addMessage _ fail pos) ⟨hb.setting, hb.frames⟩ hgrow

/-- A statement that fails is recorded as an error and leaves a placeholder. The stack is never found
unbalanced, since the statement declares nothing then. -/
theorem safely {act : Compiling Plan} {Q : Plan → Prop}
    (h : Tells c Γ false act Plan.hasNoOp) (hdeclares : Declares Γ act Q)
    (pos : Option Position) : Tells c Γ false (Compiling.safely pos act) Plan.hasNoOp := by
  intro before b hb hbefore
  have hact := h before b hb hbefore
  have hends := hdeclares b hb
  rw [Compiling.safely]
  match act b, hact, hends with
  | (.ok p, _), hact, _ => exact hact
  | (.error abort, b'), ⟨⟨errors, hgrow⟩, habort⟩, ⟨_, hb', hΓ⟩ =>
    cases pos with
    | none => exact ⟨⟨errors, hgrow⟩, Abort.isOrderly_fault rfl⟩
    | some pos =>
      have hdepth : b'.stack.depth = b.stack.depth := by
        rw [hb'.depth_eq, hb.depth_eq, hΓ]
      dsimp only
      split
      · exact ⟨⟨errors, hgrow⟩, habort.toFailure pos⟩
      · rename_i hfatal
        have hfatal' : (abort.toFailure pos).isFatal = false := by simpa using hfatal
        rw [if_neg (not_not.mpr hdepth)]
        have hplace : Tells c Γ errors (do
            Compiling.record pos (abort.toFailure pos)
            return .noOp pos) Plan.hasNoOp :=
          (record hfatal' (habort.toFailure pos) pos).bind_keeps
            (Keeps.record pos _) fun _ _ => pure (Plan.hasNoOp_noOp pos)
        exact hplace before b' (hΓ ▸ hb') hgrow

end Tells

end Relational
