import Relational.Proofs.Optimize.Passes

/-!
# Restrictions come to rest

Moving a restriction below its source makes neither the plan smaller nor less deep, but it leaves fewer
nodes below the restriction. So the sum of the sizes of all restrictions, those in conditions, computed
values and both sides of joins included, gets smaller with every step, and a pass that changes a plan makes
it smaller as well. A pass that is repeated comes to leave the plan alone.
-/

namespace Relational

open List

variable {idx : Nat}

namespace Plan

/-- The number of nodes of a plan. -/
def size (p : Plan) : Nat :=
  p.nodes.length

def isRestriction (p : Plan) : Bool :=
  p.kind == .restrict

/-- What plans weigh together. -/
def total (weight : Plan → Nat) (ps : List Plan) : Nat :=
  ps.foldr (fun p rest => weight p + rest) 0

/-- The sum of the sizes of the restrictions in a plan. -/
def load (p : Plan) : Nat :=
  total size (p.nodes.filter isRestriction)

variable {p q : Plan} {ps qs : List Plan} {weight : Plan → Nat}

@[simp] theorem total_nil : total weight [] = 0 := rfl

@[simp] theorem total_cons : total weight (p :: ps) = weight p + total weight ps := rfl

theorem total_append : total weight (ps ++ qs) = total weight ps + total weight qs := by
  induction ps with
  | nil => simp
  | cons p ps ih => simp [ih, Nat.add_assoc]

theorem total_le (h : List.Forall₂ (fun p q => weight q ≤ weight p) ps qs) :
    total weight qs ≤ total weight ps := by
  induction h with
  | nil => exact Nat.le_refl _
  | cons hfirst _ ih => exact Nat.add_le_add hfirst ih

theorem total_set {child new : Plan} (h : ps[idx]? = some child) :
    total weight (ps.set idx new) + weight child = total weight ps + weight new ∧
      weight child ≤ total weight ps := by
  induction ps generalizing idx with
  | nil => simp at h
  | cons p ps ih =>
    cases idx with
    | zero =>
      obtain rfl : p = child := by simpa using h
      simp only [set_cons_zero, total_cons]
      omega
    | succ idx =>
      have hrest := ih (by simpa using h)
      simp only [set_cons_succ, total_cons]
      omega

theorem size_eq (p : Plan) : p.size = 1 + total size p.children := by
  rw [size, nodes_eq, length_cons, length_flatMap, sum_eq_foldr, foldr_map, Nat.add_comm]
  rfl

theorem load_eq (p : Plan) : p.load = (if p.isRestriction then p.size else 0) + total load p.children := by
  have hall : ∀ ps : List Plan, total size ((ps.flatMap nodes).filter isRestriction) = total load ps := by
    intro ps
    induction ps with
    | nil => rfl
    | cons p ps ih => rw [flatMap_cons, filter_append, total_append, ih, total_cons, load]
  rw [load, nodes_eq, filter_cons, ← hall]
  split <;> simp

theorem isRestriction_congr (h : q.construct = p.construct) : q.isRestriction = p.isRestriction := by
  rw [isRestriction, isRestriction, kind, kind, h]

/-- What a node over other children weighs. -/
theorem load_replaceChildren_le (p : Plan) (h : List.Forall₂ (fun p q => q.size ≤ p.size) p.children qs) :
    (p.replaceChildren qs).size ≤ p.size ∧
      (p.replaceChildren qs).load + total load p.children ≤ p.load + total load qs := by
  have hsize : (p.replaceChildren qs).size ≤ p.size := by
    rw [size_eq, size_eq p, children_replaceChildren]
    exact Nat.add_le_add_left (total_le h) 1
  rw [load_eq, load_eq p, children_replaceChildren, isRestriction_congr (p.construct_replaceChildren qs)]
  split <;> omega

/-- A plan that is no larger and no heavier than another. -/
structure Outweighs (p q : Plan) : Prop where
  size : q.size ≤ p.size
  load : q.load ≤ p.load

theorem isCongruence_outweighs : IsCongruence Outweighs where
  refl _ := ⟨Nat.le_refl _, Nat.le_refl _⟩
  trans h h' := ⟨Nat.le_trans h'.size h.size, Nat.le_trans h'.load h.load⟩
  replaceChildren {p children} h := by
    obtain ⟨hsize, hload⟩ := p.load_replaceChildren_le (h.imp fun _ _ => Outweighs.size)
    have hsum := total_le (h.imp fun _ _ => Outweighs.load)
    exact ⟨hsize, by omega⟩

theorem outweighs_rebase {src tgt : Heading} {rename : String → String}
    (h : p.rebase src tgt rename = .ok q) : p.Outweighs q := by
  refine rebase_related isCongruence_outweighs (fun p _ _ _ _ _ _ _ _ _ => ⟨?_, ?_⟩) h
  · rw [size_eq, size_eq p]
    simp [make]
  · rw [load_eq]
    simp [make, isRestriction, kind, Construct.kind]

theorem not_isRestriction_of_operands (h : idx < p.construct.operands) : p.isRestriction = false := by
  unfold isRestriction kind
  cases hcon : p.construct <;> simp_all [Construct.operands, Construct.kind]

end Plan

open Plan

/-- Every step makes the plan lighter. -/
theorem Normalizes.lightens {p q : Plan} (h : Normalizes p q) : q.size ≤ p.size ∧ q.load < p.load := by
  have hrestriction : ∀ {p : Plan} {op}, p.construct = .restrict op → p.isRestriction := by
    intro p op hcon
    simp [isRestriction, kind, hcon, Construct.kind]
  cases h with
  | @drop op src cond hcon hkids _ =>
    have hsize := p.size_eq
    have hload := p.load_eq
    simp only [hrestriction hcon, if_true, hkids, total_cons, total_nil] at hsize hload
    exact ⟨by omega, by omega⟩
  | @push op src cond child cond' idx _ _ _ hcon hkids _ hidx hkid hrebase =>
    obtain ⟨hcond, hcond'⟩ := outweighs_rebase hrebase
    have hsrc := not_isRestriction_of_operands hidx
    generalize hnew : make (.restrict op) child.type p.position [child, cond'] = new
    have hsize := p.size_eq
    have hload := p.load_eq
    have hnewSize := new.size_eq
    have hnewLoad := new.load_eq
    have hnewChildren : new.children = [child, cond'] := by rw [← hnew]; rfl
    have hnewConstruct : new.construct = .restrict op := by rw [← hnew]; rfl
    simp only [hrestriction hcon, hrestriction hnewConstruct, if_true, hkids, hnewChildren,
      total_cons, total_nil] at hsize hload hnewSize hnewLoad
    obtain ⟨hsizes, hchildSize⟩ : total size (src.children.set idx new) + child.size =
      total size src.children + new.size ∧ _ := total_set hkid
    obtain ⟨hloads, -⟩ : total load (src.children.set idx new) + child.load =
      total load src.children + new.load ∧ _ := total_set hkid
    have hsourceSize := src.size_eq
    have hsourceLoad := src.load_eq
    rw [size_eq (src.replaceChildren _), load_eq (src.replaceChildren _), children_replaceChildren,
      isRestriction_congr (src.construct_replaceChildren _)]
    simp only [hsrc, Bool.false_eq_true, if_false] at hsourceLoad ⊢
    exact ⟨by omega, by omega⟩

/-- A transformation that is told to have changed a plan has made it lighter; otherwise it is the plan. -/
structure Transformed.Lightens (p : Plan) (t : Transformed) : Prop where
  same : t.isSame → t.plan = p
  size : t.plan.size ≤ p.size
  load : t.plan.load + (!t.isSame).toNat ≤ p.load

theorem Transformed.Lightens.same_self (p : Plan) : Lightens p (.same p) :=
  ⟨fun _ => rfl, Nat.le_refl _, Nat.le_refl _⟩

theorem normalizeNode_lightens (p : Plan) : Yields (normalizeNode p) (Transformed.Lightens p) := by
  refine (normalizeNode_yields p).imp ?_
  rintro ⟨q, _ | _⟩ (h | ⟨h, hq⟩)
  · cases h
  · obtain ⟨hsize, hload⟩ := hq.lightens
    exact ⟨fun h => Bool.noConfusion h, hsize, hload⟩
  · cases h
    exact .same_self p
  · cases h

namespace Plan

variable {σ : Type} {f : Plan → Visit σ Transformed}

theorem Transforms.lightens {ps qs : List Plan} {isSame : Bool}
    (h : Transforms (fun _ => Transformed.Lightens) idx ps qs isSame) :
    List.Forall₂ (fun p q => q.size ≤ p.size) ps qs ∧
      total load qs + (!isSame).toNat ≤ total load ps := by
  induction h with
  | nil => exact ⟨.nil, Nat.le_refl _⟩
  | @cons _ p first _ _ _ hp _ ih =>
    obtain ⟨hsizes, hloads⟩ := ih
    obtain ⟨q, _ | _⟩ := first
    · refine ⟨.cons hp.size hsizes, ?_⟩
      have hload := hp.load
      simp only [Transformed.orChild, Bool.false_eq_true, if_false, total_cons, Bool.false_and] at hload ⊢
      omega
    · refine ⟨.cons (Nat.le_refl _) hsizes, ?_⟩
      simp only [Transformed.orChild, if_true, total_cons, Bool.true_and]
      omega

/-- What every step of a transformation does, the transformation does. -/
theorem transform_lightens (hf : ∀ p, Yields (f p) (Transformed.Lightens p)) (p : Plan) :
    Yields (p.transform f) (Transformed.Lightens p) := by
  refine (isWalk_transform f).holds (L := fun _ _ => Yields) (K := fun _ _ => True)
    (R := fun _ => Transformed.Lightens) (fun _ _ _ => ()) (fun _ => isLogic_yields)
    (fun _ _ => ⟨trivial, id⟩) (fun {_ p children isSame} _ hkids => ?_) p (i := ()) trivial
  cases isSame with
  | true => exact hf p
  | false =>
    obtain ⟨hsizes, hloads⟩ := hkids.lightens
    obtain ⟨hsize, hload⟩ := p.load_replaceChildren_le hsizes
    refine (hf (p.replaceChildren children)).imp fun t ht =>
      ⟨fun h => Bool.noConfusion h, Nat.le_trans ht.size hsize, ?_⟩
    have hstep := ht.load
    simp only [Bool.false_and, Bool.not_false, Bool.toNat_true] at hloads hload ⊢
    omega

end Plan

namespace Optimizer

/-- A plan after a pass was applied a number of times, whatever number a batch allows. -/
def applyTimes (o : Optimizer) (batch : Batch) (pass : Pass) : Nat → Plan → Optimizing Plan
  | 0, p => return p
  | times + 1, p => do
    let result ← o.applyPass true batch pass p
    o.applyTimes batch pass times result.plan

/-- The pass that moves restrictions can be repeated only so often before it leaves the plan alone: at most
as often as nodes lie in restrictions. -/
theorem exists_normalization_same (o : Optimizer) (catalog : Option Catalog) (batch : Batch) (p : Plan)
    (s : PassState) : ∃ times ≤ p.load, ∃ q s' s'',
      o.applyTimes batch (pass catalog .normalizeRestrictions) times p s = (.ok q, s') ∧
      o.applyPass true batch (pass catalog .normalizeRestrictions) q s' = (.ok (.same q), s'') := by
  induction hload : p.load using Nat.strongRecOn generalizing p s with
  | _ load ih =>
    have hpass : Yields ((pass catalog .normalizeRestrictions).apply p) fun result =>
        ∀ t ∈ result, Transformed.Lightens p t := by
      refine .map ((p.transform_lightens normalizeNode_lightens).imp fun t ht => ?_)
      rintro _ ⟨⟩
      exact ht
    have hgives : Gives true (o.applyPass true batch _ p) (Transformed.Lightens p) :=
      gives_applyPass (.same_self p) hpass
    obtain ⟨t, s', hrun, hlightens⟩ := hgives.exists_of_session s
    obtain ⟨q, _ | _⟩ := t
    · have hless := hlightens.load
      simp only [Bool.not_false, Bool.toNat_true] at hless
      obtain ⟨times, htimes, r, t, t', hmore, hsame⟩ := ih q.load (by omega) q s' rfl
      refine ⟨times + 1, by omega, r, t, t', ?_, hsame⟩
      rw [applyTimes, bind_apply, hrun]
      exact hmore
    · obtain rfl := hlightens.same rfl
      exact ⟨0, Nat.zero_le _, q, s, s', rfl, hrun⟩

end Optimizer

end Relational
