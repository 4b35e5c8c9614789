import Mathlib.Data.List.Basic
import Relational.Plan.Node

/-!
# Children in their fields

The children of a node and what stands in the fields of its construct determine each other. Fields take
other children if there are as many as before, and hold them in the same order.
-/

namespace Relational

namespace Fields

variable {α : Type} {kind : PlanKind} {fields : Fields α kind} {xs : List α}

theorem caseChildren_caseFields (xs : List α) : caseChildren (caseFields xs).1 (caseFields xs).2 = xs := by
  fun_induction caseFields xs with
  | case1 | case2 => rfl
  | case3 condition branch rest branches last hrest ih =>
    rw [hrest] at ih
    exact congrArg (condition :: branch :: ·) ih

theorem caseFields_caseChildren (branches : List (α × α)) (last : Option α) :
    caseFields (caseChildren branches last) = (branches, last) := by
  induction branches with
  | nil => cases last <;> rfl
  | cons branch branches ih => exact congrArg (fun parts => (branch :: parts.1, parts.2)) ih

theorem children_of? (h : of? kind xs = some fields) : fields.children = xs := by
  unfold of? at h
  split at h <;> cases h
  case h_8 => exact caseChildren_caseFields xs
  all_goals rfl

theorem of?_children (fields : Fields α kind) : of? kind fields.children = some fields := by
  cases fields
  case case branches last => simp only [of?, children, caseFields_caseChildren]
  case variable_ x | raise x | tryHandler _ x | conditional _ _ x | join _ _ x => cases x <;> rfl
  all_goals rfl

theorem exists_of? (fields : Fields α kind) (h : kind.isVariadic ∨ xs.length = fields.children.length) :
    ∃ fields', of? kind xs = some fields' := by
  cases fields
  case variable_ x | raise x | tryHandler _ x | conditional _ _ x | join _ _ x =>
    cases x <;> rcases xs with _ | ⟨_, _ | ⟨_, _ | ⟨_, _ | _⟩⟩⟩ <;>
      first | exact ⟨_, rfl⟩ | rcases h with ⟨⟨⟩⟩ | ⟨⟨⟩⟩
  all_goals rcases xs with _ | ⟨_, _ | ⟨_, _ | _⟩⟩ <;> first | exact ⟨_, rfl⟩ | rcases h with ⟨⟨⟩⟩ | ⟨⟨⟩⟩

/-- Fields are what they are made of. They take as many children as they hold, or any number if the construct
does, and hold these then. -/
theorem withChildren_cases (fields : Fields α kind) (xs : List α) :
    if kind.isVariadic ∨ xs.length = fields.children.length then
      ∃ fields' : Fields α kind, fields.withChildren xs = .ok fields' ∧ fields'.children = xs
    else fields.withChildren xs =
      .error (.invalidChildrenNumber ("*plan." ++ kind.text) xs.length fields.children.length) := by
  unfold withChildren
  dsimp only
  split_ifs with hlen
  · obtain ⟨fields', hof⟩ := exists_of? fields hlen
    exact ⟨fields', by rw [hof], children_of? hof⟩
  · rfl

theorem withChildren_children (fields : Fields α kind) :
    fields.withChildren fields.children = .ok fields := by
  simp only [withChildren, or_true, if_true, of?_children]

end Fields

namespace Plan

theorem withFields_eq (p : Plan) (fields : Fields Plan p.kind) :
    p.withFields fields = p.replaceChildren fields.children := by
  obtain ⟨con, _, _, _, _, _⟩ := p
  cases con <;> cases fields <;> rfl

theorem withChildren_eq (p : Plan) (children : List Plan) : p.withChildren children =
    if p.kind.isVariadic ∨ children.length = p.children.length then .ok (p.replaceChildren children)
    else .error (.invalidChildrenNumber ("*plan." ++ p.kind.text) children.length p.children.length) := by
  unfold withChildren
  cases hfields : p.fields? with
  | some fields =>
    have hcases := fields.withChildren_cases children
    rw [Fields.children_of? hfields] at hcases
    dsimp only
    split_ifs at hcases ⊢
    · obtain ⟨fields', hrun, rfl⟩ := hcases
      rw [hrun, ← withFields_eq]
      rfl
    · rw [hcases]
      rfl
  | none =>
    have hvariadic : p.kind.isVariadic = false := by
      obtain ⟨con, _, _, _, _, _⟩ := p
      cases con <;> first | rfl | cases hfields
    simp only [hvariadic, Bool.false_eq_true, false_or]

end Plan

end Relational
