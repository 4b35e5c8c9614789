import Relational.Proofs.Optimize.WellFormed

/-!
# Transformations that keep a relation

A transformation rebuilds a plan from the leaves up, so it is enough to know what one step does to one
node: a relation between plans that is kept by every step, and by a node over related children, is kept
by the transformation. Nothing is said about transformations that fail.
-/

namespace Relational

/-! ### Values of computations -/

/-- A computation all of whose values have a property, if it gives any. -/
def Yields {ε σ α : Type} (action : ExceptT ε (StateM σ) α) (Q : α → Prop) : Prop :=
  ∀ s value s', action s = (.ok value, s') → Q value

namespace Yields

variable {ε σ α β : Type} {act : ExceptT ε (StateM σ) α} {P Q : α → Prop}
  {next : α → ExceptT ε (StateM σ) β}

theorem trivial : Yields act fun _ => True :=
  fun _ _ _ _ => .intro

theorem imp (h : Yields act P) (himp : ∀ val, P val → Q val) : Yields act Q :=
  fun s val s' hrun => himp val (h s val s' hrun)

theorem pure {val : α} (h : Q val) : Yields (Pure.pure val : ExceptT ε (StateM σ) α) Q := by
  rintro s _ _ ⟨⟩
  exact h

theorem throw {error : ε} : Yields (throw error : ExceptT ε (StateM σ) α) Q := by
  rintro s val s' ⟨⟩

theorem bind {Q : β → Prop} (h : Yields act P) (hnext : ∀ val, P val → Yields (next val) Q) :
    Yields (act >>= next) Q := by
  intro s val s' hrun
  rw [bind_apply] at hrun
  rcases hfirst : act s with ⟨_ | first, t⟩ <;> rw [hfirst] at hrun
  · cases hrun
  · exact hnext first (h s first t hfirst) t val s' hrun

theorem bind_congr {next' : α → ExceptT ε (StateM σ) β} (h : Yields act P)
    (hnext : ∀ val, P val → next val = next' val) : act >>= next = act >>= next' := by
  funext s
  rw [bind_apply, bind_apply]
  rcases hfirst : act s with ⟨_ | val, t⟩
  · rfl
  · exact congrFun (hnext val (h s val t hfirst)) t

theorem after {Q : β → Prop} (hnext : ∀ val, Yields (next val) Q) : Yields (act >>= next) Q :=
  trivial.bind fun val _ => hnext val

theorem map {f : α → β} {Q : β → Prop} (h : Yields act fun val => Q (f val)) : Yields (f <$> act) Q := by
  exact h.bind fun _ hval => pure hval

end Yields

namespace Plan

variable {p node : Plan} {children : List Plan}

theorem mem_tableVars {tv : TableVar} :
    tv ∈ p.tableVars ↔ ∃ node ∈ p.nodes, node.construct = .tableVarReference tv := by
  rw [tableVars, List.mem_filterMap]
  refine exists_congr fun node => and_congr_right fun _ => ?_
  cases node.construct <;> simp

theorem characteristics_replaceChildren (p : Plan) (children : List Plan) :
    (p.replaceChildren children).characteristics = p.characteristics := by
  unfold replaceChildren
  split <;> rfl

theorem annotations_replaceChildren (p : Plan) (children : List Plan) :
    (p.replaceChildren children).annotations = p.annotations := by
  unfold replaceChildren
  split <;> rfl

/-! ### Relations kept by transformations -/

/-- A relation between plans that holds of a plan and itself, can be chained, and is inherited by a node
over related children. -/
structure IsCongruence (R : Plan → Plan → Prop) : Prop where
  refl : ∀ p, R p p
  trans : ∀ {p q r}, R p q → R q r → R p r
  replaceChildren : ∀ {p children}, List.Forall₂ R p.children children →
    R p (p.replaceChildren children)

variable {σ : Type} {R : Plan → Plan → Prop} {f : Plan → Stack → Visit σ Transformed}

theorem rebuild_yields (isSame : Bool) : Yields (p.rebuild children isSame : Visit σ Plan)
    fun q => q = if isSame then p else p.replaceChildren children := by
  unfold rebuild
  cases isSame with
  | true => exact .pure rfl
  | false =>
    rw [if_neg Bool.false_ne_true, withChildren_eq]
    by_cases hlen : p.kind.isVariadic ∨ children.length = p.children.length
    · rw [if_pos hlen]
      exact .pure rfl
    · rw [if_neg hlen]
      exact .throw

theorem isLogic_yields : IsLogic fun β => Yields (ε := Failure) (σ := σ) (α := β) :=
  ⟨.pure, .bind⟩

/-- A transformation keeps what all its steps keep. -/
theorem IsWalk.yields {step walk : Plan → Visit σ Transformed}
    {enter : Plan → Nat → Visit σ Transformed → Visit σ Transformed}
    {walkAll : Plan → Nat → List Plan → Visit σ (List Plan × Bool)} (h : IsWalk step enter walk walkAll)
    (hR : IsCongruence R) (henter : ∀ {p idx act Q}, Yields act Q → Yields (enter p idx act) Q)
    (hstep : ∀ p, Yields (step p) fun res => R p res.plan) (p : Plan) :
    Yields (walk p) fun res => R p res.plan := by
  refine h.holds (L := fun _ _ => Yields) (K := fun _ _ => True) (R := fun _ p t => R p t.plan)
    (fun _ _ _ => ()) (fun _ => isLogic_yields) (fun _ _ => ⟨trivial, henter⟩)
    (fun {_ p children isSame} _ hkids => ?_) p (i := ()) trivial
  have hrebuilt : R p (if isSame then p else p.replaceChildren children) := by
    cases isSame with
    | true => exact hR.refl p
    | false =>
      refine hR.replaceChildren (hkids.childwise fun {_ child t} ht => ?_).forall₂
      unfold Transformed.orChild
      split
      · exact hR.refl child
      · exact ht
  exact (hstep _).imp fun t => hR.trans hrebuilt

theorem tryInChild_yields {α : Type} {Q : α → Prop} {act : Visit (Stack × σ) α} (idx : Nat)
    (h : Yields act Q) : Yields (tryInChild p idx act) Q := by
  rintro ⟨stack, s⟩ val s' hrun
  rcases hinner : act ((p.enterChild idx stack).2, s) with ⟨res, stack', t⟩
  simp only [tryInChild, hinner] at hrun
  cases hrun
  exact h _ val _ hinner

theorem withStack_yields {Q : Transformed → Prop} (h : ∀ stack, Yields (f p stack) Q) :
    Yields (withStack f p) Q := by
  rintro ⟨stack, s⟩ val s' hrun
  rcases hinner : f p stack s with ⟨res, t⟩
  simp only [withStack, hinner] at hrun
  cases hrun
  exact h stack s val t hinner

theorem transformWithStack_yields (hR : IsCongruence R)
    (hf : ∀ p stack, Yields (f p stack) fun res => R p res.plan) (p : Plan) :
    Yields (p.transformWithStack f) fun res => R p res.plan :=
  (isWalk_transformWithStack f).yields hR (tryInChild_yields _) (fun q => withStack_yields (hf q)) p

end Plan

end Relational
