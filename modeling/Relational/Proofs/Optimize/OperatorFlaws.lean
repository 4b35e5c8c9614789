import Relational.Proofs.Optimize.Characteristics

/-!
# Flaws of operators

Calls, conversions and the relational constructs each invoke an operator, which may have effects, may give
another result at each evaluation or may give another one within a statement. A call passes these flaws of
its operator on to its node. The other constructs only pass on those of their children: a restriction by an
operator that varies is deterministic if its source and its condition are.

What a node says of being literal can be relied on: a literal node has no effects, always gives the same
result and stands over literal nodes only, down to the leaves.
-/

namespace Relational

variable {p : Plan} {flaw : Flaw} {op : Operator} {con : Construct}

/-! ### Operators of nodes -/

/-- Of the constructs that invoke an operator, only calls have its flaws. That nil may be the value is
another matter, since outer joins bring it along. -/
theorem Construct.brings_of_operator (hop : con.operator? = some op) (hflaw : flaw ≠ .nilable) :
    con.brings flaw ↔ con.kind = .call ∧ op.characteristics.has flaw := by
  cases con with
  | call own =>
    cases hop
    cases flaw <;>
      simp [Construct.brings, Construct.kind, Plan.characteristicsOf, Plan.callCharacteristics,
        Plan.derived, Characteristics.has]
  | convert _ | restrict _ | project _ _ | rename _ _ | extend _ _ | join _ _ =>
    cases flaw <;>
      simp_all [Construct.brings, Construct.kind, Plan.characteristicsOf, Plan.derived,
        Characteristics.has]
  | _ => cases hop

namespace Plan

/-- A node that invokes an operator has the flaws of its children, and those of the operator if it is a
call. -/
theorem IsMade.has_iff_of_operator (h : p.IsMade) (hop : p.construct.operator? = some op)
    (hflaw : flaw ≠ .nilable) : p.has flaw ↔
      (p.kind = .call ∧ op.characteristics.has flaw) ∨ ∃ child ∈ p.children, child.has flaw := by
  rw [h.isExact.has_iff, Construct.brings_of_operator hop hflaw, kind]

/-- Every node of a plan has the flaw if its operator has it. -/
def AccountsFor (p : Plan) (flaw : Flaw) : Prop :=
  ∀ node ∈ p.nodes, ∀ op, node.construct.operator? = some op →
    op.characteristics.has flaw → node.has flaw

/-- All that stands in the way are operators of other nodes than calls, with a flaw that none of the
children has. -/
theorem accountsFor_iff (h : ∀ node ∈ p.nodes, node.IsMade) (hflaw : flaw ≠ .nilable) :
    p.AccountsFor flaw ↔ ∀ node ∈ p.nodes, ∀ op, node.construct.operator? = some op →
      op.characteristics.has flaw → node.kind ≠ .call → ∃ child ∈ node.children, child.has flaw := by
  refine forall₂_congr fun node hnode => forall₃_congr fun op hop hhas => ?_
  rw [(h node hnode).has_iff_of_operator hop hflaw]
  tauto

/-! ### Literal nodes -/

theorem IsMade.isLiteral_of_child (h : p.IsMade) (hlit : p.characteristics.isLiteral) :
    ∀ child ∈ p.children, child.characteristics.isLiteral := by
  rw [h.characteristics] at hlit
  intro child hkid
  cases hcon : p.construct with
  | literal _ =>
    rw [h.leaf (by rw [hcon]; rfl)] at hkid
    cases hkid
  | call _ =>
    simp only [hcon, characteristicsOf, callCharacteristics, Bool.and_eq_true] at hlit
    exact List.all_eq_true.mp hlit.2 child hkid
  | convert _ | rowSelector _ | tableSelector | listSelector =>
    simp only [hcon, characteristicsOf] at hlit
    exact List.all_eq_true.mp hlit child hkid
  | _ => simp [hcon, characteristicsOf, derived] at hlit

theorem IsMade.not_brings_of_isLiteral (h : p.IsMade) (hlit : p.characteristics.isLiteral)
    (hflaw : flaw = .impure ∨ flaw = .varying) : ¬ p.construct.brings flaw := by
  rw [h.characteristics] at hlit
  cases hcon : p.construct with
  | call _ =>
    simp only [hcon, characteristicsOf, callCharacteristics, Bool.and_eq_true] at hlit
    rcases hflaw with rfl | rfl <;>
      simp [Construct.brings, characteristicsOf, callCharacteristics, Characteristics.has, hlit, derived]
  | literal _ | convert _ | rowSelector _ | tableSelector | listSelector =>
    rcases hflaw with rfl | rfl <;>
      simp [Construct.brings, characteristicsOf, derived, Characteristics.has]
  | _ => simp [hcon, characteristicsOf, derived] at hlit

/-- Literal nodes have no effects and always give the same result: by induction, since they stand over
literal nodes only. -/
theorem lacks_of_isLiteral (h : ∀ node ∈ p.nodes, node.IsMade)
    (hlit : p.characteristics.isLiteral) (hflaw : flaw = .impure ∨ flaw = .varying) : ¬ p.has flaw := by
  induction p using childInduction with
  | step p ih =>
    obtain ⟨hroot, hkids⟩ := forall_mem_nodes.mp h
    rw [hroot.isExact.has_iff]
    rintro (hbrings | ⟨child, hkid, hhas⟩)
    · exact hroot.not_brings_of_isLiteral hlit hflaw hbrings
    · exact ih child hkid (hkids child hkid) (hroot.isLiteral_of_child hlit child hkid) hhas

end Plan

/-! ### Compiled plans -/

/-- What the nodes of a compiled plan say about effects and about results that differ.

A node that invokes an operator has such a flaw exactly if one of its children has it, or if it is a call
and the operator has it. So all nodes have the flaws of their operators exactly if operators of other nodes
than calls only have flaws that some child has. Literal nodes are functional and deterministic, and their
children are literal. -/
theorem Compiler.Gives.has_iff_operator {c : Compiler} {p : Plan} (h : c.Gives p) :
    (∀ node ∈ p.nodes, ∀ op, node.construct.operator? = some op → ∀ flaw, flaw ≠ .nilable →
      (node.has flaw ↔ (node.kind = .call ∧ op.characteristics.has flaw) ∨
        ∃ child ∈ node.children, child.has flaw)) ∧
    (∀ flaw, flaw ≠ .nilable → (p.AccountsFor flaw ↔
      ∀ node ∈ p.nodes, ∀ op, node.construct.operator? = some op → op.characteristics.has flaw →
        node.kind ≠ .call → ∃ child ∈ node.children, child.has flaw)) ∧
    ∀ node ∈ p.nodes, node.characteristics.isLiteral →
      node.characteristics.isFunctional ∧ node.characteristics.isDeterministic ∧
        ∀ child ∈ node.children, child.characteristics.isLiteral := by
  have hmade := h.isMade
  refine ⟨fun node hnode op hop flaw hflaw => (hmade node hnode).has_iff_of_operator hop hflaw,
    fun flaw hflaw => Plan.accountsFor_iff hmade hflaw, fun node hnode hliteral => ?_⟩
  have hbelow : ∀ below ∈ node.nodes, below.IsMade :=
    fun below hbelow => hmade below (Plan.mem_nodes_of_mem hbelow hnode)
  have hpure := Plan.lacks_of_isLiteral hbelow hliteral (.inl rfl)
  have hsame := Plan.lacks_of_isLiteral hbelow hliteral (.inr rfl)
  refine ⟨?_, ?_, (hmade node hnode).isLiteral_of_child hliteral⟩
  · simpa [Plan.has, Characteristics.has] using hpure
  · simpa [Plan.has, Characteristics.has] using hsame

/-! ### Samples -/

/-- A catalog whose relational operators may give another result at each evaluation. -/
def varyingCatalog : Catalog :=
  let varying (op : Operator) : Operator := { op with characteristics.isDeterministic := false }
  let catalog := Builder.relationalCatalog .any
  { catalog with operators := catalog.operators.map fun (name, overloads) =>
      (name, { overloads with operators := overloads.operators.map varying }) }

/-- The rows of a table of literals for which a column is true. -/
def trueRestriction : Expr :=
  .restrict .none (.table .none [Builder.trueRow "a"] .missing) (.identifier .none "a")

/-- The rows of a sampled table: the restriction is deterministic, its operator is not, and the table is
literal. -/
theorem Compiler.Gives.has_iff_operator_trueRestriction : ∃ p, ({} : Compiler).Gives p ∧
    p.kind = .restrict ∧ ¬ p.AccountsFor .varying ∧ ∃ source ∈ p.children,
      source.characteristics.isLiteral ∧ source.characteristics.isFunctional := by
  have hsample : varyingCatalog.compilesTo trueRestriction (fun p => p.kind == .restrict &&
      p.construct.operator?.any (·.characteristics.has .varying) &&
      p.children.all (!·.has .varying) && p.children.any (·.characteristics.isLiteral)) := by
    decide +kernel
  obtain ⟨p, b', hbuild, -, hp⟩ := Catalog.exists_of_compilesTo hsample
  simp only [Bool.and_eq_true, beq_iff_eq, List.all_eq_true, Bool.not_eq_true', List.any_eq_true,
    Option.any_eq_true] at hp
  obtain ⟨⟨⟨hkind, op, hop, hvarying⟩, hchildren⟩, source, hsource, hliteral⟩ := hp
  have hgives : ({} : Compiler).Gives p := ⟨_, b', Nat.le_refl _, .inr ⟨_, hbuild⟩⟩
  obtain ⟨-, haccounts, hliterals⟩ := hgives.has_iff_operator
  refine ⟨p, hgives, hkind, fun h => ?_, source, hsource, hliteral, ?_⟩
  · obtain ⟨child, hchild, hhas⟩ := (haccounts .varying (by decide)).mp h p p.self_mem_nodes op hop
      hvarying (by simp [hkind])
    rw [hchildren child hchild] at hhas
    cases hhas
  · have hmem : source ∈ p.nodes := Plan.mem_nodes.mpr (.inr ⟨source, hsource, source.self_mem_nodes⟩)
    exact (hliterals source hmem hliteral).1

/-- A restriction that is compiled without messages and is deterministic, although its operator is not. -/
theorem Compiler.exists_restrict_lacks :
    ∃ (c : Compiler) (expr : Expr) (b b' : Builder) (p : Plan) (op : Operator),
      b.stack = {} ∧ Builder.buildExpression c expr b = (.ok (some p), b') ∧ b'.messages = [] ∧
      p.construct = .restrict op ∧ op.characteristics.isDeterministic = false ∧
      p.characteristics.isDeterministic := by
  have hsample : varyingCatalog.compilesTo trueRestriction (fun p => p.kind == .restrict &&
      p.construct.operator?.any (!·.characteristics.isDeterministic) &&
      p.characteristics.isDeterministic) := by decide +kernel
  obtain ⟨p, b', hbuild, hmessages, hp⟩ := Catalog.exists_of_compilesTo hsample
  simp only [Bool.and_eq_true, beq_iff_eq, Option.any_eq_true, Bool.not_eq_true'] at hp
  obtain ⟨⟨hkind, op, hop, hvarying⟩, hsame⟩ := hp
  refine ⟨{}, _, _, b', p, op, rfl, hbuild, hmessages, ?_, hvarying, hsame⟩
  unfold Plan.kind at hkind
  cases hconstruct : p.construct <;> simp_all [Construct.kind, Construct.operator?]

end Relational
