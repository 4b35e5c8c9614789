import Relational.Proofs.Optimize.Flaws

/-!
# Characteristics of optimized plans

A restriction whose condition has a flaw may move below nodes without it, which then no longer account for
their children; if the restriction stood at the root, the root loses the flaw. Determinism is safe from
this, as conditions that are not deterministic never move. The other characteristics are safe where the
nodes that a restriction may move below have the flaws of its condition already.
-/

namespace Relational

open List

/-- The number of children that a restriction of a node may come to stand on. -/
def Construct.passed : Construct → Nat
  | restrict _ => 1
  | construct => construct.operands

namespace Plan

variable {flaw : Flaw} {p q : Plan} {idx : Nat}

/-- Every node of a plan has a flaw if one of its children has it. -/
def Respects (flaw : Flaw) (p : Plan) : Prop :=
  ∀ node ∈ p.nodes, ∀ child ∈ node.children, child.has flaw → node.has flaw

/-- Where nodes have the flaws of their constructs and of their children, the root has those that
arise. -/
theorem has_of_arises (hsound : ∀ node ∈ p.nodes, node.IsSound flaw) (hrespects : p.Respects flaw)
    (harises : p.Arises flaw) : p.has flaw := by
  induction p using childInduction with
  | step p ih =>
    obtain ⟨hroot, hsounds⟩ := forall_mem_nodes.mp hsound
    obtain ⟨hkid, hrespects⟩ := forall_mem_nodes.mp hrespects
    obtain hbrings | ⟨child, hmem, harises⟩ := arises_iff.mp harises
    · exact hroot.brings hbrings
    · exact hkid child hmem (ih child hmem (hsounds child hmem) (hrespects child hmem) harises)

/-! ### Restrictions that lose nothing by moving -/

mutual

/-- Whether all nodes that a restriction of a plan may move below have a flaw. -/
def bears (flaw : Flaw) : Plan → Bool
  | ⟨construct, _, characteristics, _, _, children⟩ =>
    (construct.operands == 0 || characteristics.has flaw) && bearAll flaw construct.passed children

/-- The same of the first ones of some plans. -/
def bearAll (flaw : Flaw) : Nat → List Plan → Bool
  | count + 1, p :: ps => p.bears flaw && bearAll flaw count ps
  | _, _ => true

end

/-- Whether a node is no restriction that would lose a flaw of its condition by moving. -/
def isSettled (flaw : Flaw) (p : Plan) : Bool :=
  match p.construct, p.children with
  | .restrict _, [source, condition] =>
    condition.has .varying || !condition.has flaw || source.bears flaw
  | _, _ => true

/-- Restrictions of a plan may only move below nodes that have the flaws of their conditions. -/
def Settles (flaw : Flaw) (p : Plan) : Prop :=
  ∀ node ∈ p.nodes, node.isSettled flaw

theorem operands_le_passed (con : Construct) : con.operands ≤ con.passed := by
  cases con <;> simp [Construct.operands, Construct.passed]

theorem bearAll_iff {count : Nat} {ps : List Plan} :
    bearAll flaw count ps ↔ ∀ i p, i < count → ps[i]? = some p → p.bears flaw := by
  induction ps generalizing count with
  | nil => cases count <;> simp [bearAll]
  | cons p ps ih =>
    cases count with
    | zero => simp [bearAll]
    | succ count =>
      rw [bearAll, Bool.and_eq_true, ih]
      constructor
      · rintro ⟨hfirst, hrest⟩ i q hi hq
        cases i with
        | zero => exact Option.some.inj hq ▸ hfirst
        | succ i => exact hrest i q (by omega) (by simpa using hq)
      · intro h
        exact ⟨h 0 p (by omega) rfl, fun i q hi hq => h (i + 1) q (by omega) (by simpa using hq)⟩

theorem bears_iff : p.bears flaw ↔ (0 < p.construct.operands → p.has flaw) ∧
    ∀ i child, i < p.construct.passed → p.children[i]? = some child → child.bears flaw := by
  cases p
  rw [bears, Bool.and_eq_true, bearAll_iff, Bool.or_eq_true, beq_iff_eq, Nat.pos_iff_ne_zero,
    or_iff_not_imp_left]
  rfl

theorem isSettled_iff : p.isSettled flaw ↔ ∀ op src cond, p.construct = .restrict op →
    p.children = [src, cond] → cond.has .varying = false → cond.has flaw →
      src.bears flaw := by
  unfold isSettled
  split
  · rename_i op src cond hcon hkids
    rw [hcon, hkids]
    constructor
    · rintro h _ _ _ - ⟨⟩ hvarying hhas
      simpa [hvarying, hhas] using h
    · intro h
      cases hvarying : cond.has .varying <;> cases hhas : cond.has flaw <;> simp_all
  · rename_i hother
    refine iff_of_true rfl fun op src cond hcon hkids => ?_
    exact absurd hkids (hother op src cond hcon)

theorem settles_varying (p : Plan) : p.Settles .varying := by
  refine fun node _ => isSettled_iff.mpr fun _ _ cond _ _ hsteady hvarying => ?_
  rw [hsteady] at hvarying
  cases hvarying

/-- A node that is exact in a flaw and in determinism, and that loses nothing by moving. -/
structure IsSafe (flaw : Flaw) (p : Plan) : Prop where
  exact_ : p.IsExact flaw
  varying : p.IsExact .varying
  settled : p.isSettled flaw

/-- A plan with a flaw exactly where the first has it, at the root and in nodes that restrictions may move
below. -/
structure Maintains (flaw : Flaw) (p q : Plan) : Prop where
  has_eq : q.has flaw = p.has flaw
  varying_eq : q.has .varying = p.has .varying
  bears : p.bears flaw → q.bears flaw

theorem IsExact.congr (h : p.IsExact flaw) (hcon : q.construct = p.construct) (hhas : q.has flaw = p.has flaw)
    (hkids : List.Forall₂ (fun child child' => child'.has flaw = child.has flaw)
      p.children q.children) : q.IsExact flaw where
  leaf hleaf := by
    rw [h.leaf (hcon ▸ hleaf)] at hkids
    exact forall₂_nil_left_iff.mp hkids
  has_iff := by
    rw [hhas, h.has_iff, hcon]
    refine or_congr_right (exists_mem_iff_of_forall₂ (hkids.imp fun child child' heq => ?_)).symm
    rw [heq]

theorem maintains_node (hcon : q.construct = p.construct)
    (hchars : q.characteristics = p.characteristics) (hp : p.IsSafe flaw)
    (hkids : List.Forall₂ (Maintains flaw) p.children q.children) : q.IsSafe flaw ∧ p.Maintains flaw q := by
  have hhas : ∀ flaw, q.has flaw = p.has flaw := fun flaw => by rw [has, has, hchars]
  refine ⟨⟨?_, ?_, ?_⟩, hhas flaw, hhas .varying, ?_⟩
  · exact hp.exact_.congr hcon (hhas flaw) (hkids.imp fun _ _ h => h.has_eq)
  · exact hp.varying.congr hcon (hhas .varying) (hkids.imp fun _ _ h => h.varying_eq)
  · refine isSettled_iff.mpr fun op src' cond' hrestrict hsrcs' hvarying hflaw => ?_
    rw [hsrcs'] at hkids
    obtain ⟨src, rest, hsrc, hrest, hsrcs⟩ := forall₂_cons_right_iff.mp hkids
    obtain ⟨cond, last, hcond, hlast, rfl⟩ := forall₂_cons_right_iff.mp hrest
    rw [forall₂_nil_right_iff.mp hlast] at hsrcs
    rw [hcond.varying_eq] at hvarying
    rw [hcond.has_eq] at hflaw
    exact hsrc.bears (isSettled_iff.mp hp.settled op src cond (hcon ▸ hrestrict)
      hsrcs hvarying hflaw)
  · rw [bears_iff, bears_iff, hcon, hhas]
    refine And.imp_right fun h i child' hi hkid' => ?_
    obtain ⟨child, hkid, hmaintained⟩ := exists_of_forall₂ hkids hkid'
    exact hmaintained.bears (h i child hi hkid)

theorem IsExact.has_eq_of_brings (hp : p.IsExact flaw) (hq : q.IsExact flaw)
    (hpchildren : p.children = []) (hqchildren : q.children = [])
    (hbrings : q.construct.brings flaw = p.construct.brings flaw) : q.has flaw = p.has flaw := by
  rw [Bool.eq_iff_iff, hp.has_iff, hq.has_iff, hpchildren, hqchildren, hbrings]

theorem maintains_column {name : String} {col : Nat} (name' : String) (idx' col' : Nat)
    (type : Option Ty) (pos : Position)
    (hcon : p.construct = .stackColumnReference name idx col) (hp : p.IsSafe flaw) :
    let q := make (.stackColumnReference name' idx' col') type pos []
    q.IsSafe flaw ∧ p.Maintains flaw q := by
  intro q
  have hkids : p.children = [] := hp.exact_.leaf (by rw [hcon]; rfl)
  have hexact : ∀ flaw, q.IsExact flaw := fun _ => isExact_make type pos fun _ => rfl
  have hbrings : ∀ flaw, q.construct.brings flaw = p.construct.brings flaw := by
    intro flaw
    rw [hcon]
    cases flaw <;> rfl
  refine ⟨⟨hexact flaw, hexact .varying, rfl⟩, ?_, ?_, fun _ => ?_⟩
  · exact hp.exact_.has_eq_of_brings (hexact flaw) hkids rfl (hbrings flaw)
  · exact hp.varying.has_eq_of_brings (hexact .varying) hkids rfl (hbrings .varying)
  · exact bears_iff.mpr ⟨by simp [q, make, Construct.operands], by simp [q, make]⟩

section Restriction

variable {src cond child : Plan} {op : Operator} (hr : p.IsRestriction op src cond)
include hr

theorem IsRestriction.has_eq (h : p.IsExact flaw) : p.has flaw = (src.has flaw || cond.has flaw) := by
  rw [Bool.eq_iff_iff, h.has_iff, hr.construct, hr.children, brings_restrict]
  simp

theorem IsRestriction.bears_eq : p.bears flaw = src.bears flaw := by
  rw [Bool.eq_iff_iff, bears_iff, hr.construct, hr.children]
  constructor
  · exact fun h => h.2 0 src Nat.one_pos rfl
  · refine fun h => ⟨fun hoperands => absurd hoperands (Nat.lt_irrefl 0), fun i child hi hkid => ?_⟩
    obtain rfl : i = 0 := Nat.lt_one_iff.mp hi
    exact Option.some.inj hkid ▸ h

omit hr in
theorem IsExact.has_of_isLiteralTrue (h : p.IsExact flaw) (htrue : isLiteralTrue p) : p.has flaw = false := by
  obtain ⟨hleaf, hbrings⟩ := leaf_of_isLiteralTrue htrue flaw
  rw [Bool.eq_false_iff, ne_eq, h.has_iff, h.leaf hleaf, hbrings]
  simp

theorem maintains_drop (htrue : isLiteralTrue cond) (hp : p.IsSafe flaw) (hcond : cond.IsSafe flaw) :
    p.Maintains flaw src := by
  refine ⟨?_, ?_, ?_⟩
  · rw [hr.has_eq hp.exact_, hcond.exact_.has_of_isLiteralTrue htrue, Bool.or_false]
  · rw [hr.has_eq hp.varying, hcond.varying.has_of_isLiteralTrue htrue, Bool.or_false]
  · rw [hr.bears_eq]
    exact id

omit hr in
theorem IsExact.replaceChild {new : Plan} {extra : Bool} (h : p.IsExact flaw)
    (hkid : p.children[idx]? = some child) (hnew : new.has flaw = (child.has flaw || extra))
    (hextra : extra = true → p.has flaw) : (p.replaceChildren (p.children.set idx new)).IsExact flaw where
  leaf hleaf := by
    rw [construct_replaceChildren] at hleaf
    rw [h.leaf hleaf] at hkid
    cases hkid
  has_iff := by
    rw [has, characteristics_replaceChildren, construct_replaceChildren, children_replaceChildren,
      exists_mem_set_iff hkid (B := extra = true) (by rw [hnew, Bool.or_eq_true]), ← or_assoc,
      ← h.has_iff]
    exact (or_iff_left_of_imp hextra).symm

theorem maintains_push {cond' : Plan} (hdet : cond.characteristics.isDeterministic)
    (hidx : idx < src.construct.operands) (hkid : src.children[idx]? = some child) (hp : p.IsSafe flaw)
    (hsrc : src.IsSafe flaw) (hmaintained : cond.Maintains flaw cond') :
    let restricted := make (.restrict op) child.type p.position [child, cond']
    let q := src.replaceChildren (src.children.set idx restricted)
    restricted.IsSafe flaw ∧ q.IsSafe flaw ∧ p.Maintains flaw q := by
  intro restricted q
  have hsteady : cond.has .varying = false := by simp [has, Characteristics.has, hdet]
  -- The condition has moved below nodes that have its flaw.
  have hbears : cond.has flaw → src.bears flaw :=
    isSettled_iff.mp hp.settled op src cond hr.construct hr.children hsteady
  have hsourceHas : cond.has flaw → src.has flaw := fun hcond =>
    (bears_iff.mp (hbears hcond)).1 (Nat.zero_lt_of_lt hidx)
  have hpassed : idx < src.construct.passed := Nat.lt_of_lt_of_le hidx (operands_le_passed _)
  have hexact : ∀ flaw, restricted.IsExact flaw := fun _ =>
    isExact_make _ _ (by simp [Construct.isLeaf])
  have hqhas : ∀ flaw, q.has flaw = src.has flaw := fun flaw =>
    congrArg (·.has flaw) (src.characteristics_replaceChildren _)
  refine ⟨⟨hexact flaw, hexact .varying, isSettled_iff.mpr ?_⟩, ⟨?_, ?_, ?_⟩, ?_, ?_, ?_⟩
  · rintro _ _ _ - ⟨⟩ - hhas
    rw [hmaintained.has_eq] at hhas
    exact (bears_iff.mp (hbears hhas)).2 idx child hpassed hkid
  · refine hsrc.exact_.replaceChild hkid (IsRestriction.has_eq ⟨rfl, rfl⟩ (hexact flaw)) ?_
    rw [hmaintained.has_eq]
    exact hsourceHas
  · refine hsrc.varying.replaceChild hkid (IsRestriction.has_eq ⟨rfl, rfl⟩ (hexact .varying)) ?_
    rw [hmaintained.varying_eq, hsteady]
    simp
  · refine isSettled_iff.mpr fun op' _ _ hrestrict => ?_
    rw [construct_replaceChildren] at hrestrict
    rw [hrestrict] at hidx
    exact absurd hidx (Nat.not_lt_zero idx)
  · rw [hqhas, hr.has_eq hp.exact_, Bool.eq_iff_iff, Bool.or_eq_true]
    exact (or_iff_left_of_imp hsourceHas).symm
  · rw [hqhas, hr.has_eq hp.varying, hsteady, Bool.or_false]
  · rw [hr.bears_eq, bears_iff, bears_iff, construct_replaceChildren, children_replaceChildren, hqhas]
    refine And.imp_right fun hall i operand hi hoperand => ?_
    rw [getElem?_set] at hoperand
    split_ifs at hoperand with heq
    · subst heq
      cases hoperand
      rw [IsRestriction.bears_eq ⟨rfl, rfl⟩]
      exact hall idx child hi hkid
    · exact hall i operand hi hoperand

end Restriction

theorem isCarried_maintains (flaw : Flaw) : IsCarried (IsSafe flaw) (Maintains flaw) where
  refl _ := ⟨rfl, rfl, id⟩
  trans h h' := ⟨h'.has_eq.trans h.has_eq, h'.varying_eq.trans h.varying_eq, h'.bears ∘ h.bears⟩
  node := maintains_node
  column := maintains_column
  drop hcon hkids := maintains_drop ⟨hcon, hkids⟩
  push hcon hkids hdet hidx hkid hp hsrc _ _ hmaintained :=
    maintains_push ⟨hcon, hkids⟩ hdet hidx hkid hp hsrc hmaintained

/-! ### Literal plans -/

/-- Whether a node is a restriction that always holds. -/
def isRedundant (p : Plan) : Bool :=
  match p.construct, p.children with
  | .restrict _, [_, condition] => isLiteralTrue condition
  | _, _ => false

theorem isRedundant_eq_false_iff : p.isRedundant = false ↔ ∀ op src cond,
    p.construct = .restrict op → p.children = [src, cond] → isLiteralTrue cond = false := by
  unfold isRedundant
  split
  · rename_i op src cond hcon hkids
    rw [hcon, hkids]
    constructor
    · rintro h _ _ _ - ⟨⟩
      exact h
    · exact fun h => h op src cond rfl rfl
  · rename_i hother
    refine iff_of_true rfl fun op src cond hcon hkids => ?_
    exact absurd hkids (hother op src cond hcon)

/-- A node that is no restriction that always holds, and not literal if it takes part in what passes
do. -/
structure IsNeeded (p : Plan) : Prop where
  needed : p.isRedundant = false
  passed : 0 < p.construct.passed → p.characteristics.isLiteral = false
  column : p.kind = .stackColumnReference → p.characteristics.isLiteral = false

/-- A plan that is literal, and the literal truth, exactly if the first is. -/
structure KeepsLiteral (p q : Plan) : Prop where
  isLiteral_eq : q.characteristics.isLiteral = p.characteristics.isLiteral
  isLiteralTrue_eq : isLiteralTrue q = isLiteralTrue p

theorem isLiteralTrue_congr (hcon : q.construct = p.construct) : isLiteralTrue q = isLiteralTrue p := by
  rw [isLiteralTrue, isLiteralTrue, hcon]

theorem IsMade.isNeeded (h : p.IsMade) (hneeded : p.isRedundant = false) : p.IsNeeded where
  needed := hneeded
  passed hpassed := by
    rw [h.characteristics]
    cases hcon : p.construct <;>
      simp_all [Construct.passed, Construct.operands, characteristicsOf, derived]
  column hkind := by
    rw [h.characteristics]
    unfold kind at hkind
    cases hcon : p.construct <;> simp_all [Construct.kind, characteristicsOf, derived]

theorem keepsLiteral_node (hcon : q.construct = p.construct)
    (hchars : q.characteristics = p.characteristics) (hp : p.IsNeeded)
    (hkids : List.Forall₂ KeepsLiteral p.children q.children) : q.IsNeeded ∧ p.KeepsLiteral q := by
  refine ⟨⟨?_, ?_, ?_⟩, by rw [hchars], isLiteralTrue_congr hcon⟩
  · refine isRedundant_eq_false_iff.mpr fun op src' cond' hrestrict hsrcs' => ?_
    rw [hsrcs'] at hkids
    obtain ⟨src, rest, -, hrest, hsrcs⟩ := forall₂_cons_right_iff.mp hkids
    obtain ⟨cond, last, hcond, hlast, rfl⟩ := forall₂_cons_right_iff.mp hrest
    rw [forall₂_nil_right_iff.mp hlast] at hsrcs
    rw [hcond.isLiteralTrue_eq]
    exact isRedundant_eq_false_iff.mp hp.needed op src cond (hcon ▸ hrestrict) hsrcs
  · rw [hcon, hchars]
    exact hp.passed
  · rw [kind, hcon, hchars]
    exact hp.column

theorem isCarried_keepsLiteral : IsCarried IsNeeded KeepsLiteral where
  refl _ := ⟨rfl, rfl⟩
  trans h h' := ⟨h'.isLiteral_eq.trans h.isLiteral_eq, h'.isLiteralTrue_eq.trans h.isLiteralTrue_eq⟩
  node := keepsLiteral_node
  column {p _ _ _} name' idx' column' type position hcon hp := by
    have hmade : IsMade (make (.stackColumnReference name' idx' column') type position []) :=
      isMade_make type position fun _ => rfl
    refine ⟨hmade.isNeeded rfl, ?_, ?_⟩
    · rw [hp.column (by rw [kind, hcon]; rfl)]
      rfl
    · rw [isLiteralTrue, isLiteralTrue, hcon]
      rfl
  drop hcon hkids htrue hp _ := by
    rw [isRedundant_eq_false_iff.mp hp.needed _ _ _ hcon hkids] at htrue
    cases htrue
  push {p src cond child cond' op idx} hcon hkids _ hidx hkid hp hsrc _ _
      hkept := by
    have hsourcePassed : 0 < src.construct.passed :=
      Nat.lt_of_lt_of_le (Nat.zero_lt_of_lt hidx) (operands_le_passed _)
    have hfalse := isRedundant_eq_false_iff.mp hp.needed op src cond hcon hkids
    refine ⟨(isMade_make _ _ (by simp [Construct.isLeaf])).isNeeded
      (hkept.isLiteralTrue_eq.trans hfalse), ⟨?_, ?_, ?_⟩, ?_, ?_⟩
    · refine isRedundant_eq_false_iff.mpr fun op' _ _ heq => ?_
      rw [construct_replaceChildren] at heq
      rw [heq] at hidx
      exact absurd hidx (Nat.not_lt_zero idx)
    · rw [construct_replaceChildren, characteristics_replaceChildren]
      exact hsrc.passed
    · rw [kind, construct_replaceChildren, characteristics_replaceChildren]
      exact hsrc.column
    · rw [characteristics_replaceChildren, hsrc.passed hsourcePassed,
        hp.passed (by rw [hcon]; exact Nat.one_pos)]
    · rw [isLiteralTrue_congr (src.construct_replaceChildren _), isLiteralTrue, isLiteralTrue, hcon]
      split
      · rename_i heq
        rw [heq] at hidx
        exact absurd hidx (Nat.not_lt_zero idx)
      · rfl

end Plan

/-! ### Compiled plans after the optimizer -/

theorem Characteristics.eq_of_has {c d : Characteristics} (hhas : ∀ flaw, c.has flaw = d.has flaw)
    (hlit : c.isLiteral = d.isLiteral) : c = d := by
  have hfunctional : c.isFunctional = d.isFunctional := Bool.not_inj (hhas .impure)
  have hdet : c.isDeterministic = d.isDeterministic := Bool.not_inj (hhas .varying)
  have hrepeatable : c.isRepeatable = d.isRepeatable := Bool.not_inj (hhas .unrepeatable)
  have hnilable : c.isNilable = d.isNilable := hhas .nilable
  cases c
  simp_all

/-- The plans that a compiler gives for statements and for expressions, whatever its builder is. -/
def Compiler.Gives (c : Compiler) (p : Plan) : Prop :=
  ∃ b b' : Builder, b.stack.frameCount ≤ b.stack.marks.length ∧
    ((∃ statement, Builder.build c statement b = (.ok p, b')) ∨
      ∃ expr, Builder.buildExpression c expr b = (.ok (some p), b'))

variable {p : Plan} {c : Compiler}

theorem Compiler.Gives.isStatement (h : c.Gives p) : ∃ opts Γ, IsStatement opts Γ p := by
  obtain ⟨b, b', hframes, ⟨stmt, hbuild⟩ | ⟨expr, hbuild⟩⟩ := h
  · have hends := Builder.ends_build (b := b) c stmt hframes
    rw [hbuild] at hends
    obtain ⟨_, -, -, hstmt⟩ := hends
    exact ⟨_, _, hstmt⟩
  · have hends := keeps_compileAlone (c.sound_environment (nestingBound b)) expr b ⟨rfl, hframes⟩
    rw [Builder.buildExpression] at hbuild
    rw [hbuild] at hends
    obtain ⟨_, -, -, hexpr⟩ := hends
    exact ⟨_, _, .expression (hexpr p rfl)⟩

theorem Compiler.Gives.isMade (h : c.Gives p) : ∀ node ∈ p.nodes, node.IsMade := by
  obtain ⟨_, _, hstmt⟩ := h.isStatement
  exact hstmt.isMade

variable {catalog : Option Catalog} {o : Optimizer} {expr : Expr}

namespace Optimizer

open Plan

section

variable (hmade : ∀ node ∈ p.nodes, node.IsMade)

include hmade

theorem run_of_settles {flaw : Flaw} (hsettles : p.Settles flaw)
    (ho : o.batches = (ofPasses catalog []).batches) (hasSession : Bool) :
    Yields (o.run hasSession p) fun res =>
      res.plan.has flaw = p.has flaw ∧ res.plan.Respects flaw := by
  refine ((isCarried_maintains flaw).isKept.run_yields ho hasSession p).imp fun res hres => ?_
  have hsafe : ∀ node ∈ p.nodes, node.IsSafe flaw := fun node hnode =>
    ⟨(hmade node hnode).isExact, (hmade node hnode).isExact, hsettles node hnode⟩
  obtain ⟨hsafe', hhas, -⟩ := hres hsafe
  exact ⟨hhas, fun node hnode child hkid => (hsafe' node hnode).exact_.has_of_child hkid⟩

/-- The optimizer only takes flaws away. A node lacks one of a child only if the child is a restriction of
an operand; if that happens nowhere, the root keeps the flaw. -/
theorem run_of_isMade (ho : o.batches = (ofPasses catalog []).batches) (hasSession : Bool) (flaw : Flaw) :
    Yields (o.run hasSession p) fun res => (res.plan.has flaw → p.has flaw) ∧
      (res.plan.has flaw = p.has flaw ∧ res.plan.Respects flaw ↔
        ∀ node ∈ res.plan.nodes, ∀ (i : Nat) (child : Plan), node.children[i]? = some child →
          i < node.construct.operands → child.kind = .restrict → child.has flaw → node.has flaw) := by
  refine ((isCarried_improves flaw).isKept.run_yields ho hasSession p).imp fun res hres => ?_
  have hexact : ∀ node ∈ p.nodes, node.IsExact flaw := fun node hnode => (hmade node hnode).isExact
  obtain ⟨hsound, harises, hhas, -⟩ := hres (isSound_of_isExact hexact)
  refine ⟨hhas, fun h node hnode i child hi _ _ => h.2 node hnode child (mem_of_getElem? hi), fun h => ?_⟩
  have hrespects : res.plan.Respects flaw := by
    intro node hnode child hkid hflaw
    obtain ⟨i, hi⟩ := getElem?_of_mem hkid
    by_cases hoperand : i < node.construct.operands
    · by_cases hkind : child.kind = .restrict
      · exact h node hnode i child hi hoperand hkind hflaw
      · refine (hsound node hnode).child i child hi ?_
        rwa [if_pos hoperand, unrestricted_eq_self hkind]
    · refine (hsound node hnode).child i child hi ?_
      rwa [if_neg hoperand]
  refine ⟨?_, hrespects⟩
  rw [Bool.eq_iff_iff]
  refine ⟨hhas, fun hp => ?_⟩
  exact has_of_arises hsound hrespects (harises.mpr ((has_iff_arises hexact).mp hp))

theorem run_literal (hneeded : ∀ node ∈ p.nodes, node.isRedundant = false)
    (ho : o.batches = (ofPasses catalog []).batches) (hasSession : Bool) :
    Yields (o.run hasSession p) fun res =>
      res.plan.characteristics.isLiteral = p.characteristics.isLiteral :=
  (isCarried_keepsLiteral.isKept.run_yields ho hasSession p).imp fun _ hres =>
    (hres fun node hnode => (hmade node hnode).isNeeded (hneeded node hnode)).2.1

end

/-- What the usual passes make of the characteristics of a compiled plan.

Determinism stays at the root, and no node is deterministic unless its children are. No flaw is added at
the root. The root keeps a flaw, and all nodes have it if their children have, exactly if that is so of
the restrictions that are operands of projections, renamings, extensions and joins; in particular if
restrictions were only able to move below nodes with the flaws of their conditions. If this holds of all
flaws, and no restriction is dropped, the root keeps its characteristics. -/
theorem run_characteristics {c : Compiler} {p : Plan} {o : Optimizer} {catalog : Option Catalog}
    (hp : c.Gives p) (ho : o.batches = (ofPasses catalog []).batches) (hasSession : Bool)
    (s : PassState) :
    (hasSession → ∃ result s', o.run hasSession p s = (.ok result, s')) ∧
    ∀ result s', o.run hasSession p s = (.ok result, s') →
      result.plan.characteristics.isDeterministic = p.characteristics.isDeterministic ∧
      result.plan.Respects .varying ∧
      (∀ flaw, result.plan.has flaw → p.has flaw) ∧
      (∀ flaw, result.plan.has flaw = p.has flaw ∧ result.plan.Respects flaw ↔
        ∀ node ∈ result.plan.nodes, ∀ (i : Nat) (child : Plan), node.children[i]? = some child →
          i < node.construct.operands → child.kind = .restrict → child.has flaw → node.has flaw) ∧
      (∀ flaw, p.Settles flaw → result.plan.has flaw = p.has flaw ∧ result.plan.Respects flaw) ∧
      ((∀ flaw, p.Settles flaw) → (∀ node ∈ p.nodes, node.isRedundant = false) →
        result.plan.characteristics = p.characteristics) := by
  have hmade := hp.isMade
  refine ⟨?_, fun result s' hrun => ?_⟩
  · rintro rfl
    exact exists_run_eq o p s
  have hsettled : ∀ flaw, p.Settles flaw →
      result.plan.has flaw = p.has flaw ∧ result.plan.Respects flaw :=
    fun flaw hsettles => run_of_settles hmade hsettles ho hasSession s result s' hrun
  have hall := fun flaw => run_of_isMade hmade ho hasSession flaw s result s' hrun
  obtain ⟨hvarying, hrespects⟩ := hsettled .varying (settles_varying p)
  refine ⟨Bool.not_inj hvarying, hrespects, fun flaw => (hall flaw).1, fun flaw => (hall flaw).2,
    hsettled, fun hsettles hneeded => ?_⟩
  have hliteral := run_literal hmade hneeded ho hasSession s result s' hrun
  exact Characteristics.eq_of_has (fun flaw => (hsettled flaw (hsettles flaw)).1) hliteral

/-! ### Samples -/

/-- A catalog with the relational operators, renaming among them. -/
def renamingCatalog : Catalog :=
  { Builder.relationalCatalog .any with
    operators := Builder.tableOperator 8 "iRename" [.anyRows .table] ::
      (Builder.relationalCatalog .any).operators }

/-- The rows of a table with a true column. -/
def trueTable : Expr :=
  .table .none [Builder.trueRow "a"] .missing

/-- The rows of a source for which a column holds that was renamed before. -/
def renamedRestriction (source : Expr) : Expr :=
  .restrict .none (.rename .none source [("a", "b")]) (.identifier .none "b")

/-- A plan after the usual passes. -/
def sampleRun (p : Plan) : Option Plan :=
  match (ofPasses none []).run true p {} with
  | (.ok result, _) => some result.plan
  | _ => none

theorem exists_of_sampleRun {q : Plan} (h : sampleRun p = some q) :
    ∃ res s', (ofPasses none []).run true p {} = (.ok res, s') ∧ res.plan = q := by
  unfold sampleRun at h
  split at h
  · rename_i hrun
    cases h
    exact ⟨_, _, hrun, rfl⟩
  · cases h

/-- Whether an expression is compiled to a plan with a property that also involves the plan after the
usual passes. -/
def sampleHas (expr : Expr) (f : Plan → Plan → Bool) : Bool :=
  renamingCatalog.compilesTo expr fun p => (sampleRun p).any fun q => f p q

theorem exists_of_sampleHas {f : Plan → Plan → Bool} (h : sampleHas expr f) : ∃ p b' res s',
      Builder.buildExpression {} expr (.start {} { catalog := renamingCatalog }) =
        (.ok (some p), b') ∧ b'.messages = [] ∧
      (ofPasses none []).run true p {} = (.ok res, s') ∧ f p res.plan := by
  obtain ⟨p, b', hbuild, hmsgs, hp⟩ := Catalog.exists_of_compilesTo h
  obtain ⟨q, hsample, hq⟩ := (Option.any_eq_true _ _).mp hp
  obtain ⟨res, s', hrun, rfl⟩ := exists_of_sampleRun hsample
  exact ⟨p, b', res, s', hbuild, hmsgs, hrun, hq⟩

/-- The restriction moves below the renaming and the extension, which may be nil already. -/
theorem run_characteristics_renamedExtension :
    ∃ p result s', ({} : Compiler).Gives p ∧ p.kind = .restrict ∧
      (ofPasses none []).run true p {} = (.ok result, s') ∧ result.plan.kind = .rename ∧
      result.plan.characteristics = p.characteristics ∧ ∀ flaw, result.plan.Respects flaw := by
  have hsample : sampleHas (renamedRestriction
      (.extend .none trueTable [("c", .identifier .none "a")])) (fun p q =>
        p.kind == .restrict && q.kind == .rename && p.nodes.all fun node => !node.isRedundant &&
          [Flaw.impure, .varying, .unrepeatable, .nilable].all node.isSettled) := by
    decide +kernel
  obtain ⟨p, b', result, s', hbuild, -, hrun, hp⟩ := exists_of_sampleHas hsample
  simp only [Bool.and_eq_true, beq_iff_eq, List.all_eq_true, Bool.not_eq_true'] at hp
  obtain ⟨⟨hkind, hkind'⟩, hnodes⟩ := hp
  have hgives : ({} : Compiler).Gives p := ⟨_, b', Nat.le_refl _, .inr ⟨_, hbuild⟩⟩
  have hsettles : ∀ flaw, p.Settles flaw := by
    intro flaw node hnode
    exact (hnodes node hnode).2 flaw (by cases flaw <;> decide)
  obtain ⟨-, hresult⟩ := run_characteristics hgives (o := ofPasses none []) rfl true {}
  obtain ⟨-, -, -, -, hrespects, hsame⟩ := hresult result s' hrun
  exact ⟨p, result, s', hgives, hkind, hrun, hkind',
    hsame hsettles fun node hnode => (hnodes node hnode).1,
    fun flaw => (hrespects flaw (hsettles flaw)).2⟩

/-- A restriction that moves below a renaming makes the root lose that it may be nil, although its child
still may. -/
theorem exists_run_characteristics_ne :
    ∃ (c : Compiler) (expr : Expr) (b b' : Builder) (p : Plan) (result : Transformed)
      (s' : PassState), b.stack.frameCount ≤ b.stack.marks.length ∧
      Builder.buildExpression c expr b = (.ok (some p), b') ∧ b'.messages = [] ∧
      (ofPasses none []).run true p {} = (.ok result, s') ∧
      result.plan.characteristics ≠ p.characteristics ∧ ¬ result.plan.Respects .nilable := by
  have hsample : sampleHas (renamedRestriction trueTable) (fun p q =>
      p.has .nilable && !q.has .nilable && q.children.any (·.has .nilable)) := by decide +kernel
  obtain ⟨p, b', result, s', hbuild, hmessages, hrun, hp⟩ := exists_of_sampleHas hsample
  simp only [Bool.and_eq_true, Bool.not_eq_true', List.any_eq_true] at hp
  obtain ⟨⟨hnilable, hlost⟩, child, hchild, hnilable'⟩ := hp
  refine ⟨{}, _, _, b', p, result, s', Nat.le_refl _, hbuild, hmessages, hrun, fun heq => ?_,
    fun hrespects => ?_⟩
  · rw [has, heq] at hlost
    rw [has, hlost] at hnilable
    cases hnilable
  · rw [hrespects _ (self_mem_nodes _) child hchild hnilable'] at hlost
    cases hlost

end Optimizer

end Relational
