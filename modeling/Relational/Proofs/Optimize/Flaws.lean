import Relational.Proofs.Compile.Program
import Relational.Proofs.Optimize.Passes

/-!
# Flaws of plans

The compiler gives every node the characteristics that follow from its construct and from its children:
what one child lacks, the node lacks too. Characteristics are treated alike here, as flaws that a node has
as soon as one of its children has them.

The optimizer moves nodes about without computing characteristics again. A restriction that moves below a
projection, renaming, extension or join leaves that node with the flaws it had, so that the node no longer
accounts for the condition of the restriction. No node gets a flaw in this way, and no other nodes lose
one.
-/

namespace Relational

open List

/-! ### Flaws -/

/-- What a node has as soon as one of its children has it: effects, results that differ from one
evaluation to the next, results that differ within one statement, and nil as a possible value. -/
inductive Flaw where
  | impure | varying | unrepeatable | nilable
deriving Repr, DecidableEq

/-- Whether characteristics include a flaw. -/
def Characteristics.has (c : Characteristics) : Flaw → Bool
  | .impure => !c.isFunctional
  | .varying => !c.isDeterministic
  | .unrepeatable => !c.isRepeatable
  | .nilable => c.isNilable

/-- Whether nodes with a construct have a flaw whatever their children are. -/
def Construct.brings (construct : Construct) (flaw : Flaw) : Bool :=
  (Plan.characteristicsOf construct []).has flaw

/-- Whether nodes with a construct have no children. -/
def Construct.isLeaf : Construct → Bool
  | literal _ | stackReference .. | stackColumnReference .. => true
  | _ => false

namespace Plan

variable {flaw : Flaw} {p : Plan} {con : Construct} {children : List Plan} (type : Option Ty)
  (pos : Position)

/-- Whether a node has a flaw. -/
def has (p : Plan) (flaw : Flaw) : Bool :=
  p.characteristics.has flaw

/-- A flaw comes from some node of a plan. -/
def Arises (flaw : Flaw) (p : Plan) : Prop :=
  ∃ node ∈ p.nodes, node.construct.brings flaw

/-- A node with the characteristics that its construct and its children give it. Leaves have no
children. -/
structure IsMade (p : Plan) : Prop where
  leaf : p.construct.isLeaf → p.children = []
  characteristics : p.characteristics = characteristicsOf p.construct p.children

/-- A node that has a flaw exactly if its construct or one of its children has it. Leaves have no
children. -/
structure IsExact (flaw : Flaw) (p : Plan) : Prop where
  leaf : p.construct.isLeaf → p.children = []
  has_iff : p.has flaw ↔ p.construct.brings flaw ∨ ∃ child ∈ p.children, child.has flaw

theorem derived_has (children : List Plan) : (derived children).has flaw = children.any (·.has flaw) := by
  induction children with
  | nil => cases flaw <;> rfl
  | cons child rest ih =>
    rw [any_cons, ← ih]
    cases flaw <;> simp [derived, Characteristics.has, has]

theorem characteristicsOf_has (hleaf : con.isLeaf → children = []) :
    (characteristicsOf con children).has flaw = (con.brings flaw || children.any (·.has flaw)) := by
  have hnil : (derived []).has flaw = false := by rw [derived_has]; rfl
  rw [← derived_has, Construct.brings]
  cases con with
  | literal _ | stackReference _ _ | stackColumnReference _ _ _ =>
    rw [hleaf rfl, hnil, Bool.or_false]
  | columnExtractor _ _ | tableVarReference _ | raise | call _ | join _ _ =>
    cases flaw <;>
      simp [characteristicsOf, callCharacteristics, Characteristics.has, derived, Bool.or_comm]
  | _ =>
    cases flaw <;> simp [characteristicsOf, Characteristics.has, derived]

theorem isMade_make (hleaf : con.isLeaf → children = []) : IsMade (make con type pos children) :=
  ⟨hleaf, rfl⟩

theorem IsMade.isExact (h : p.IsMade) : p.IsExact flaw where
  leaf := h.leaf
  has_iff := by
    rw [has, h.characteristics, characteristicsOf_has h.leaf, Bool.or_eq_true, any_eq_true]

theorem isExact_make (hleaf : con.isLeaf → children = []) : IsExact flaw (make con type pos children) :=
  (isMade_make type pos hleaf).isExact

theorem arises_iff : p.Arises flaw ↔ p.construct.brings flaw ∨ ∃ child ∈ p.children, child.Arises flaw := by
  constructor
  · rintro ⟨node, hnode, hbrings⟩
    obtain rfl | ⟨child, hkid, hmem⟩ := mem_nodes.mp hnode
    · exact .inl hbrings
    · exact .inr ⟨child, hkid, node, hmem, hbrings⟩
  · rintro (hbrings | ⟨child, hkid, node, hmem, hbrings⟩)
    · exact ⟨p, p.self_mem_nodes, hbrings⟩
    · exact ⟨node, mem_nodes.mpr (.inr ⟨child, hkid, hmem⟩), hbrings⟩

end Plan

/-! ### Compiled plans -/

variable {opts : CompilerOptions} {Γ : Setting} {p q cond src child : Plan} {flaw : Flaw}
  {op : Operator} {A G : Plan → Prop}

/-- Every node of a compiled plan has the characteristics that its construct and its children give it. -/
theorem IsStatement.isMade (h : IsStatement opts Γ p) : ∀ node ∈ p.nodes, node.IsMade := by
  intro node hnode
  obtain ⟨Γ', h⟩ := h.exists_of_mem_nodes hnode
  -- Only symbols, columns and literals are leaves.
  have hmake : ∀ {con : Construct} {type : Option Ty} {pos : Position}
      {children : List Plan}, con.isLeaf = false → (Plan.make con type pos children).IsMade := by
    intro con type pos children hleaf
    exact Plan.isMade_make _ _ (by simp [hleaf])
  cases h with
  | expression h =>
    cases h with
    | @plain _ con _ _ _ hplain =>
      cases con <;> simp_all [Construct.isPlain, Construct.isLeaf]
    | literal | symbol | column => exact Plan.isMade_make _ _ fun _ => rfl
    | call | table | list | restrict | extend | join => exact hmake rfl
  | noOp | block | declaration | assignment | conditional | case | whileLoop | forEach | breakLoop
  | continueLoop | tryHandler | raise => exact hmake rfl

/-! ### Lists of children -/

section Children

variable {S : Plan → Plan → Prop} {children children' : List Plan}

theorem forall₂_of_forall_mem
    (h : List.Forall₂ (fun child child' => A child → S child child') children children')
    (hall : ∀ child ∈ children, A child) : List.Forall₂ S children children' := by
  induction h with
  | nil => exact .nil
  | cons hfirst _ ih =>
    obtain ⟨hkid, hrest⟩ := forall_mem_cons.mp hall
    exact .cons (hfirst hkid) (ih hrest)

theorem exists_mem_iff_of_forall₂
    (h : List.Forall₂ (fun child child' => A child' ↔ A child) children children') :
    (∃ child ∈ children', A child) ↔ ∃ child ∈ children, A child := by
  induction h with
  | nil => rfl
  | cons hfirst _ ih => simp only [exists_mem_cons_iff, hfirst, ih]

theorem exists_mem_set_iff {i : Nat} {new : Plan} {B : Prop} (hkid : children[i]? = some child)
    (hnew : A new ↔ A child ∨ B) :
    (∃ child ∈ children.set i new, A child) ↔ (∃ child ∈ children, A child) ∨ B := by
  induction children generalizing i with
  | nil => simp at hkid
  | cons first rest ih =>
    cases i with
    | zero =>
      obtain rfl : first = child := by simpa using hkid
      rw [set_cons_zero, exists_mem_cons_iff, exists_mem_cons_iff, hnew]
      exact or_right_comm
    | succ i =>
      rw [set_cons_succ, exists_mem_cons_iff, exists_mem_cons_iff, ih (by simpa using hkid), or_assoc]

end Children

namespace Plan

/-- A plan of good nodes that is related to another one, provided that the nodes of that one are good. -/
def Carries (G : Plan → Prop) (K : Plan → Plan → Prop) (p q : Plan) : Prop :=
  (∀ node ∈ p.nodes, G node) → (∀ node ∈ q.nodes, G node) ∧ K p q

/-- A relation and a property of nodes that are kept together by what the passes do to nodes, where all
nodes below are good. -/
structure IsCarried (G : Plan → Prop) (K : Plan → Plan → Prop) : Prop where
  refl : ∀ p, K p p
  trans : ∀ {p q r}, K p q → K q r → K p r
  node : ∀ {p q}, q.construct = p.construct → q.characteristics = p.characteristics → G p →
    List.Forall₂ K p.children q.children → G q ∧ K p q
  column : ∀ {p name index column} name' index' column' type position,
    p.construct = .stackColumnReference name index column → G p →
      G (make (.stackColumnReference name' index' column') type position []) ∧
        K p (make (.stackColumnReference name' index' column') type position [])
  drop : ∀ {p source condition op}, p.construct = .restrict op → p.children = [source, condition] →
    isLiteralTrue condition → G p → G condition → K p source
  push : ∀ {p source condition child condition' op index}, p.construct = .restrict op →
    p.children = [source, condition] → condition.characteristics.isDeterministic →
    index < source.construct.operands → source.children[index]? = some child →
    G p → G source → G child → G condition' → K condition condition' →
      let restricted := make (.restrict op) child.type p.position [child, condition']
      let q := source.replaceChildren (source.children.set index restricted)
      G restricted ∧ G q ∧ K p q

theorem IsCarried.isKept {K : Plan → Plan → Prop} (h : IsCarried G K) : IsKept (Carries G K) where
  refl p hp := ⟨hp, h.refl p⟩
  trans hpq hqr hp := by
    obtain ⟨hq, hpq⟩ := hpq hp
    obtain ⟨hr, hqr⟩ := hqr hq
    exact ⟨hr, h.trans hpq hqr⟩
  node hcon hchars hkids hp := by
    obtain ⟨hroot, hgood⟩ := forall_mem_nodes.mp hp
    have hrelated := forall₂_of_forall_mem hkids hgood
    obtain ⟨hq, hpq⟩ :=
      h.node hcon hchars hroot (hrelated.imp fun _ _ hkid => hkid.2)
    refine ⟨forall_mem_nodes.mpr ⟨hq, fun child' hkid' => ?_⟩, hpq⟩
    obtain ⟨i, hi⟩ := getElem?_of_mem hkid'
    obtain ⟨child, -, hgood', -⟩ := exists_of_forall₂ hrelated hi
    exact hgood'
  column p name idx column name' idx' column' type pos hcon hp := by
    obtain ⟨hq, hpq⟩ :=
      h.column name' idx' column' type pos hcon (hp p p.self_mem_nodes)
    exact ⟨forall_mem_nodes.mpr ⟨hq, by simp [make]⟩, hpq⟩
  drop {p src cond op} hcon hkids htrue hp := by
    obtain ⟨hroot, hgood⟩ := forall_mem_nodes.mp hp
    have hcond := hgood cond (by simp [hkids]) cond cond.self_mem_nodes
    exact ⟨hgood src (by simp [hkids]), h.drop hcon hkids htrue hroot hcond⟩
  push {p src cond child cond' op idx} hcon hkids hdet hidx hkid
      hcarries hp := by
    obtain ⟨hroot, hgood⟩ := forall_mem_nodes.mp hp
    obtain ⟨hsrc, hbelow⟩ := forall_mem_nodes.mp (hgood src (by simp [hkids]))
    obtain ⟨hcond, hkept⟩ := hcarries (hgood cond (by simp [hkids]))
    have hmoved := hbelow child (mem_of_getElem? hkid)
    obtain ⟨hrestricted, hq, hpq⟩ := h.push hcon hkids hdet hidx hkid hroot
      hsrc (hmoved child child.self_mem_nodes) (hcond _ cond'.self_mem_nodes) hkept
    refine ⟨forall_mem_nodes.mpr ⟨hq, fun operand hoperand => ?_⟩, hpq⟩
    rw [children_replaceChildren] at hoperand
    obtain hmem | rfl := mem_or_eq_of_mem_set hoperand
    · exact hbelow operand hmem
    · exact forall_mem_nodes.mpr ⟨hrestricted, by simpa [make] using ⟨hmoved, hcond⟩⟩

end Plan

/-! ### Flaws that may get lost -/

namespace Plan

mutual

/-- A plan without the restrictions around it. -/
def unrestricted : Plan → Plan
  | ⟨.restrict op, type, characteristics, position, annotations, children⟩ =>
    unrestrictedHead ⟨.restrict op, type, characteristics, position, annotations, children⟩ children
  | p => p

/-- The first of some plans without restrictions around it, or another plan. -/
def unrestrictedHead (other : Plan) : List Plan → Plan
  | [] => other
  | p :: _ => p.unrestricted

end

theorem unrestricted_restrict {rest : List Plan} (hcon : p.construct = .restrict op)
    (hkids : p.children = src :: rest) : p.unrestricted = src.unrestricted := by
  cases p
  simp only at hcon hkids
  rw [hcon, hkids, unrestricted, unrestrictedHead]

theorem unrestricted_eq_self (h : p.kind ≠ .restrict) : p.unrestricted = p := by
  obtain ⟨con, _, _, _, _, _⟩ := p
  cases con with
  | restrict op => exact absurd rfl h
  | _ => rw [unrestricted]; simp

theorem unrestricted_cases (p : Plan) : p.unrestricted = p ∨ ∃ op src rest,
    p.construct = .restrict op ∧ p.children = src :: rest ∧ p.unrestricted = src.unrestricted := by
  by_cases hkind : p.kind = .restrict
  · obtain ⟨con, _, _, _, _, children⟩ := p
    cases con <;> cases hkind
    cases children with
    | nil => exact .inl (by rw [unrestricted, unrestrictedHead])
    | cons src rest => exact .inr ⟨_, src, rest, rfl, rfl, unrestricted_restrict rfl rfl⟩
  · exact .inl (unrestricted_eq_self hkind)

/-- A node that has the flaws of its construct and of its children, but for restrictions of an operand
that may have moved below it, and no others. -/
structure IsSound (flaw : Flaw) (p : Plan) : Prop where
  leaf : p.construct.isLeaf → p.children = []
  brings : p.construct.brings flaw → p.has flaw
  child : ∀ (i : Nat) (child : Plan), p.children[i]? = some child →
    (if i < p.construct.operands then child.unrestricted else child).has flaw → p.has flaw
  arises : p.has flaw → p.Arises flaw

/-- A plan in which the same flaws arise, with no others at the root and below the restrictions around
it. -/
structure Improves (flaw : Flaw) (p q : Plan) : Prop where
  arises : q.Arises flaw ↔ p.Arises flaw
  root : q.has flaw → p.has flaw
  bare : q.unrestricted.has flaw → p.unrestricted.has flaw

theorem IsExact.has_of_child (h : p.IsExact flaw) (hkid : child ∈ p.children) (hhas : child.has flaw) :
    p.has flaw :=
  h.has_iff.mpr (.inr ⟨child, hkid, hhas⟩)

section

variable (h : ∀ node ∈ p.nodes, node.IsExact flaw)

include h

theorem has_of_unrestricted (hhas : p.unrestricted.has flaw) : p.has flaw := by
  induction p using childInduction with
  | step p ih =>
    obtain ⟨hroot, hkids⟩ := forall_mem_nodes.mp h
    obtain hself | ⟨op, src, rest, -, hsrcs, heq⟩ := p.unrestricted_cases
    · rwa [hself] at hhas
    · have hsrc : src ∈ p.children := by simp [hsrcs]
      rw [heq] at hhas
      exact hroot.has_of_child hsrc (ih src hsrc (hkids src hsrc) hhas)

theorem has_iff_arises : p.has flaw ↔ p.Arises flaw := by
  induction p using childInduction with
  | step p ih =>
    obtain ⟨hroot, hkids⟩ := forall_mem_nodes.mp h
    rw [hroot.has_iff, arises_iff]
    refine or_congr_right (exists_congr fun child => and_congr_right fun hkid => ?_)
    exact ih child hkid (hkids child hkid)

theorem isSound_of_isExact : ∀ node ∈ p.nodes, node.IsSound flaw := by
  intro node hnode
  have hbelow : ∀ below ∈ node.nodes, below.IsExact flaw :=
    fun below hbelow => h below (mem_nodes_of_mem hbelow hnode)
  obtain ⟨hroot, hkids⟩ := forall_mem_nodes.mp hbelow
  refine ⟨hroot.leaf, fun hbrings => hroot.has_iff.mpr (.inl hbrings), ?_, (has_iff_arises hbelow).mp⟩
  intro i child hi hhas
  have hkid : child ∈ node.children := mem_of_getElem? hi
  split_ifs at hhas
  · exact hroot.has_of_child hkid (has_of_unrestricted (hkids child hkid) hhas)
  · exact hroot.has_of_child hkid hhas

end

section

variable (hcon : q.construct = p.construct)

include hcon

theorem arises_congr
    (hkids : List.Forall₂ (fun child child' => child'.Arises flaw ↔ child.Arises flaw)
      p.children q.children) :
    q.Arises flaw ↔ p.Arises flaw := by
  rw [arises_iff, arises_iff, hcon]
  exact or_congr_right (exists_mem_iff_of_forall₂ hkids)

theorem unrestricted_congr (hhas : q.has flaw = p.has flaw)
    (hkids : List.Forall₂ (fun child child' => child'.unrestricted.has flaw → child.unrestricted.has flaw)
      p.children q.children) :
    q.unrestricted.has flaw → p.unrestricted.has flaw := by
  have hrestrict : ∀ {op src rest}, p.construct = .restrict op → p.children = src :: rest →
      q.unrestricted.has flaw → p.unrestricted.has flaw := by
    intro op src rest hp hsrcs
    rw [hsrcs] at hkids
    obtain ⟨src', rest', hsrc, -, hsrcs'⟩ := forall₂_cons_left_iff.mp hkids
    rw [unrestricted_restrict hp hsrcs, unrestricted_restrict (hcon.trans hp) hsrcs']
    exact hsrc
  obtain hq | ⟨op, src', rest', hq, hsrcs', -⟩ := q.unrestricted_cases
  · obtain hp | ⟨op, src, rest, hp, hsrcs, -⟩ := p.unrestricted_cases
    · rw [hp, hq, hhas]
      exact id
    · exact hrestrict hp hsrcs
  · rw [hsrcs'] at hkids
    obtain ⟨src, rest, -, -, hsrcs⟩ := forall₂_cons_right_iff.mp hkids
    exact hrestrict (hcon ▸ hq) hsrcs

theorem improves_node (hchars : q.characteristics = p.characteristics) (hp : p.IsSound flaw)
    (hkids : List.Forall₂ (Improves flaw) p.children q.children) : q.IsSound flaw ∧ p.Improves flaw q := by
  have hhas : q.has flaw = p.has flaw := by rw [has, has, hchars]
  have harises : q.Arises flaw ↔ p.Arises flaw :=
    arises_congr hcon (hkids.imp fun _ _ h => h.arises)
  refine ⟨⟨?_, ?_, ?_, ?_⟩, harises, fun h => hhas ▸ h, ?_⟩
  · intro hleaf
    rw [hp.leaf (hcon ▸ hleaf)] at hkids
    exact forall₂_nil_left_iff.mp hkids
  · rw [hcon, hhas]
    exact hp.brings
  · intro i child' hi hkid'
    obtain ⟨child, hkid, himproved⟩ := exists_of_forall₂ hkids hi
    rw [hhas]
    refine hp.child i child hkid ?_
    rw [hcon] at hkid'
    split_ifs at hkid' ⊢
    · exact himproved.bare hkid'
    · exact himproved.root hkid'
  · rw [hhas, harises]
    exact hp.arises
  · exact unrestricted_congr hcon hhas (hkids.imp fun _ _ h => h.bare)

end

theorem brings_restrict (op : Operator) : (Construct.restrict op).brings flaw = false := by
  cases flaw <;> rfl

theorem IsRestriction.arises_iff (h : p.IsRestriction op src cond) :
    p.Arises flaw ↔ src.Arises flaw ∨ cond.Arises flaw := by
  rw [Plan.arises_iff, h.construct, h.children, brings_restrict]
  simp

theorem leaf_of_isLiteralTrue (htrue : isLiteralTrue p) (flaw : Flaw) :
    p.construct.isLeaf ∧ p.construct.brings flaw = false := by
  unfold isLiteralTrue at htrue
  split at htrue
  · rename_i hcon
    rw [hcon]
    exact ⟨rfl, by cases flaw <;> rfl⟩
  · cases htrue

theorem not_arises_of_isLiteralTrue (htrue : isLiteralTrue p) (hsound : p.IsSound flaw) :
    ¬ p.Arises flaw := by
  obtain ⟨hleaf, hbrings⟩ := leaf_of_isLiteralTrue htrue flaw
  rw [arises_iff, hsound.leaf hleaf, hbrings]
  simp

theorem isSound_restricted (op : Operator) (type : Option Ty) (pos : Position)
    (hkid : child.IsSound flaw) (hcond : cond.IsSound flaw) :
    (make (.restrict op) type pos [child, cond]).IsSound flaw := by
  have hexact : (make (.restrict op) type pos [child, cond]).IsExact flaw :=
    isExact_make type pos (by simp [Construct.isLeaf])
  refine ⟨hexact.leaf, fun h => hexact.has_iff.mpr (.inl h), ?_, fun h => ?_⟩
  · intro i operand hi hhas
    exact hexact.has_of_child (mem_of_getElem? hi) hhas
  · rw [IsRestriction.arises_iff ⟨rfl, rfl⟩]
    obtain hbrings | ⟨operand, hoperand, hhas⟩ := hexact.has_iff.mp h
    · rw [make, brings_restrict] at hbrings
      cases hbrings
    · obtain rfl | rfl : operand = child ∨ operand = cond := by simpa [make] using hoperand
      · exact .inl (hkid.arises hhas)
      · exact .inr (hcond.arises hhas)

theorem improves_drop (h : p.IsRestriction op src cond) (htrue : isLiteralTrue cond)
    (hp : p.IsSound flaw) (hcond : cond.IsSound flaw) : p.Improves flaw src := by
  refine ⟨?_, fun hhas => ?_, ?_⟩
  · rw [h.arises_iff, or_iff_left]
    exact not_arises_of_isLiteralTrue htrue hcond
  · refine hp.child 0 src (by simp [h.children]) ?_
    rwa [if_neg (by simp [h.construct, Construct.operands])]
  · rw [unrestricted_restrict h.construct h.children]
    exact id

theorem kind_ne_restrict_of_operands (h : 0 < p.construct.operands) : p.kind ≠ .restrict := by
  intro hkind
  unfold kind at hkind
  cases hcon : p.construct <;> simp_all [Construct.kind, Construct.operands]

theorem improves_push {cond' : Plan} {idx : Nat} (h : p.IsRestriction op src cond)
    (hidx : idx < src.construct.operands) (hkid : src.children[idx]? = some child)
    (hp : p.IsSound flaw) (hsrc : src.IsSound flaw) (himproved : cond.Improves flaw cond') :
    let q := src.replaceChildren (src.children.set idx
      (.make (.restrict op) child.type p.position [child, cond']))
    q.IsSound flaw ∧ p.Improves flaw q := by
  set restricted := make (.restrict op) child.type p.position [child, cond']
  intro q
  have hqconstruct : q.construct = src.construct := src.construct_replaceChildren _
  have hqchildren : q.children = src.children.set idx restricted :=
    src.children_replaceChildren _
  have hqhas : q.has flaw = src.has flaw :=
    congrArg (·.has flaw) (src.characteristics_replaceChildren _)
  have hsourceKind := kind_ne_restrict_of_operands (Nat.zero_lt_of_lt hidx)
  have hqkind : q.kind ≠ .restrict := by rwa [kind, hqconstruct]
  have hqarises : q.Arises flaw ↔ src.Arises flaw ∨ cond.Arises flaw := by
    rw [arises_iff, arises_iff (p := src), hqconstruct, hqchildren, or_assoc]
    refine or_congr_right (exists_mem_set_iff hkid ?_)
    rw [IsRestriction.arises_iff ⟨rfl, rfl⟩, himproved.arises]
  refine ⟨⟨?_, ?_, ?_, ?_⟩, ?_, ?_, ?_⟩
  · intro hleaf
    rw [hsrc.leaf (hqconstruct ▸ hleaf)] at hkid
    cases hkid
  · rw [hqconstruct, hqhas]
    exact hsrc.brings
  · intro i operand hi hhas
    rw [hqhas]
    rw [hqconstruct] at hhas
    rw [hqchildren, getElem?_set] at hi
    split_ifs at hi with heq
    · subst heq
      cases hi
      refine hsrc.child idx child hkid ?_
      rw [if_pos hidx] at hhas ⊢
      rwa [unrestricted_restrict rfl rfl] at hhas
    · exact hsrc.child i operand hi hhas
  · rw [hqhas, hqarises]
    exact fun hhas => .inl (hsrc.arises hhas)
  · rw [hqarises, h.arises_iff]
  · rw [hqhas]
    intro hhas
    refine hp.child 0 src (by simp [h.children]) ?_
    rwa [if_neg (by simp [h.construct, Construct.operands])]
  · rw [unrestricted_eq_self hqkind, unrestricted_restrict h.construct h.children,
      unrestricted_eq_self hsourceKind, hqhas]
    exact id

theorem improves_column {name : String} {idx col : Nat} (name' : String) (idx' col' : Nat)
    (type : Option Ty) (pos : Position)
    (hcon : p.construct = .stackColumnReference name idx col) (hp : p.IsSound flaw) :
    let q := make (.stackColumnReference name' idx' col') type pos []
    q.IsSound flaw ∧ p.Improves flaw q := by
  intro q
  have hkids : p.children = [] := hp.leaf (by rw [hcon]; rfl)
  have hexact : ∀ node ∈ q.nodes, node.IsExact flaw :=
    forall_mem_nodes.mpr ⟨isExact_make type pos fun _ => rfl, by simp [q, make]⟩
  have hbrings : q.construct.brings flaw = p.construct.brings flaw := by
    rw [hcon]
    cases flaw <;> rfl
  have harises : q.Arises flaw ↔ p.Arises flaw := by
    rw [arises_iff, arises_iff (p := p), hkids, hbrings]
    simp [q, make]
  have hhas : q.has flaw → p.has flaw := by
    rw [has_iff_arises hexact, harises, arises_iff, hkids]
    simpa using hp.brings
  refine ⟨isSound_of_isExact hexact q q.self_mem_nodes, harises, hhas, ?_⟩
  rw [unrestricted_eq_self (by simp [q, kind, make, Construct.kind]),
    unrestricted_eq_self (by simp [kind, hcon, Construct.kind])]
  exact hhas

/-- The optimizer improves plans at most. -/
theorem isCarried_improves (flaw : Flaw) : IsCarried (IsSound flaw) (Improves flaw) where
  refl _ := ⟨.rfl, id, id⟩
  trans h h' := ⟨h'.arises.trans h.arises, h.root ∘ h'.root, h.bare ∘ h'.bare⟩
  node := improves_node
  column := improves_column
  drop hcon hkids := improves_drop ⟨hcon, hkids⟩
  push hcon hkids _ hidx hkid hp hsrc hmoved hcond himproved :=
    ⟨isSound_restricted _ _ _ hmoved hcond, improves_push ⟨hcon, hkids⟩ hidx hkid hp hsrc himproved⟩

end Plan

end Relational
