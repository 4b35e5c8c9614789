import Relational.Proofs.Optimize.Restriction

/-!
# Restrictions moved towards table variables

The pass that moves restrictions towards the table variables keeps the meaning of well-formed plans. At
a restriction, it removes the literal truth, or moves the condition below the source if the source lets
it through; a condition that refers to columns which the child does not have stays where it is. So every
step of the pass leads to a plan that follows its node, and so does any number of runs of the pass.

Column names have to be unique: a condition moves by the names of its columns, and of two columns that
share a name it always comes to refer to the first.
-/

namespace Relational

open Plan

variable {α : Type} {I : Interpretation α} {p src cond : Plan} {visible : List Symbol}
  {heading : Heading} {op : Operator} {idx : Nat}

/-! ### The pass -/

section Push

variable (h : p.IsRestriction op src cond) (hp : p.Proper visible) (hhead : src.heading? = some heading)
include h hp

namespace Plan.IsRestriction

theorem proper_source : src.Proper visible := by
  have hsrc := (throughout_iff.mp hp).2 0 src (by simp [h.children])
  rwa [childView_of_childScope h.childScope_source h.isWindowed] at hsrc

theorem alike_source : p.Alike src := by
  obtain ⟨hnode, -⟩ := throughout_iff.mp hp
  have htyped := hnode.typed
  simp only [HasRowType, h.construct] at htyped
  obtain ⟨src', cond', hkids, htype, hsome⟩ := htyped
  obtain ⟨rfl, rfl⟩ : src = src' ∧ cond = cond' := by
    simpa [h.children] using hkids
  have hsrc := (throughout_iff.mp (h.proper_source hp)).1.typed
  refine ⟨htype.symm, (hsrc.declaredSymbol? (htype ▸ hsome)).trans ?_⟩
  rw [declaredSymbol?, h.construct]

include hhead

theorem proper_condition : cond.Proper (.ofRow heading :: visible) := by
  have hcond := (throughout_iff.mp hp).2 1 cond (by simp [h.children])
  rwa [childView, h.childScope_condition hhead, h.isWindowed] at hcond

end Plan.IsRestriction

include hhead

theorem follows_restrictChild {rename : String → String} {child cond' : Plan} {tgt : Heading}
    (hthrough : LetsThrough src.construct idx rename) (hkid : src.children[idx]? = some child)
    (htgt : child.heading? = some tgt) (hrebase : cond.rebase heading tgt rename = .ok cond') :
    p.Follows I Eq visible (src.restrictChild idx op p.position child cond') := by
  have hlike := h.alike_source hp
  have hsrc := h.proper_source hp
  obtain ⟨hnode, hbelow⟩ := throughout_iff.mp hsrc
  obtain ⟨hscope, hwindowed, href⟩ := hthrough.childScope_eq
  obtain himpossible | ⟨_, hmoved, hproper, hdenote⟩ :=
    rebase_moves I tgt rename (h.proper_condition hp hhead)
  · cases hrebase.symm.trans himpossible
  cases hrebase.symm.trans hmoved
  obtain ⟨halike, hproper'⟩ := proper_restrictChild hsrc hscope hwindowed hkid htgt hproper
  refine ⟨⟨halike.type.trans hlike.type, halike.declared.trans hlike.declared⟩, hproper', ?_⟩
  rintro env _ rfl
  rw [h.denote_eq, denote_restrictChild hsrc hscope hwindowed hkid htgt href, denote_eq_meaning I href]
  simp only [h.childValues_condition hhead]
  exact hthrough.meaning_eq hnode.typed hnode.unique (throughout_iff.mp (hbelow idx child hkid)).1.unique
    hhead hkid htgt (fun row row' hrows => congrArg I.holds (hdenote row row' env hrows).symm) env

omit hhead in
/-- What an attempt to move a restriction leads to follows the restriction. -/
theorem pushRestriction_follows (I : Interpretation α) (s : PassState) :
    ∃ res, pushRestriction p op src cond s = (.ok res, s) ∧ ∀ q ∈ res, p.Follows I Eq visible q := by
  have hattempt := Attempt.pushRestriction p op src cond s
  generalize pushRestriction p op src cond s = out at hattempt
  cases hattempt with
  | stays => exact ⟨none, rfl, by simp⟩
  | moves hhead hthrough hkid htgt hrebase =>
    refine ⟨_, rfl, ?_⟩
    rintro _ ⟨⟩
    exact follows_restrictChild h hp hhead hthrough hkid htgt hrebase
  | fails hhead hfails =>
    have hcond := h.proper_condition hp hhead
    obtain ⟨place, hplace, hle⟩ | ⟨tgt, rename, hrebase⟩ := hfails
    · exact absurd (lt_of_mem_rowUses hcond place hplace) (Nat.not_lt.mpr hle)
    · obtain himpossible | ⟨_, hmoved, -⟩ := rebase_moves I tgt rename hcond
      · cases hrebase.symm.trans himpossible
      · cases hrebase.symm.trans hmoved

end Push

/-- A step of the pass succeeds and keeps the meaning of its node. -/
theorem normalizeNode_leads (p : Plan) (visible : List Symbol) (hp : p.Proper visible) :
    Succeeds (normalizeNode p) (Leads I visible p) := by
  have hsame : Succeeds (pure (.same p) : Passing Transformed) (Leads I visible p) :=
    isLogic_succeeds.pure ⟨fun _ => rfl, .refl hp⟩
  intro s
  cases hcon : p.construct with
  | restrict op =>
    have htyped := (throughout_iff.mp hp).1.typed
    simp only [HasRowType, hcon] at htyped
    obtain ⟨src, cond, hkids, -⟩ := htyped
    have h : p.IsRestriction op src cond := ⟨hcon, hkids⟩
    simp only [normalizeNode, hcon, hkids]
    split
    · rename_i hlit
      refine ⟨.changed src, _, rfl, fun hsame => Bool.noConfusion hsame, h.alike_source hp,
        h.proper_source hp, ?_⟩
      rintro env _ rfl
      exact (h.denote_literalTrue hlit env).symm
    · split
      · exact hsame s
      · obtain ⟨res, hpush, hfollows⟩ := pushRestriction_follows h hp I s
        rw [bind_apply, hpush]
        cases res with
        | none => exact hsame s
        | some pushed =>
          exact ⟨.changed pushed, _, rfl, fun h => Bool.noConfusion h, hfollows pushed rfl⟩
  | _ =>
    simp only [normalizeNode, hcon]
    exact hsame s

/-- A plan after a number of runs of the pass. -/
def normalizations : Nat → Plan → Passing Plan
  | 0, p => return p
  | n + 1, p => do
    let result ← normalizeRestrictions p
    normalizations n result.plan

theorem normalizations_follows (I : Interpretation α) (n : Nat) (p : Plan) (s : PassState)
    (hp : p.Proper visible) : ∃ q s', normalizations n p s = (.ok q, s') ∧ p.Follows I Eq visible q := by
  induction n generalizing p s with
  | zero => exact ⟨p, s, rfl, .refl hp⟩
  | succ n ih =>
    obtain ⟨res, s', hpass, -, hfollows⟩ :=
      transform_follows (I := I) normalizeNode_leads p hp s
    obtain ⟨q, s'', hrest, hfollows'⟩ := ih res.plan s' hfollows.proper
    refine ⟨q, s'', ?_, hfollows.trans hfollows'⟩
    rw [normalizations, bind_apply, normalizeRestrictions, hpass]
    exact hrest

/-- Restrictions that move towards the table variables keep the meaning of a plan: in a plan whose
references lead to what they name, whose relational nodes have the columns that their sources give them
and whose nodes have no two columns of the same name, any number of runs of the pass lead to a plan of
the same type that means the same in every environment, and whose references lead to what they name. -/
theorem denote_normalizations (I : Interpretation α) (n : Nat) (p : Plan) (visible : List Symbol)
    (s : PassState) (hscoped : p.Throughout RefersLike visible)
    (htyped : ∀ node ∈ p.nodes, node.HasRowType)
    (hunique : ∀ node ∈ p.nodes, node.columns.names.Nodup) :
    ∃ q s', normalizations n p s = (.ok q, s') ∧ (∀ env, q.denote I env = p.denote I env) ∧
      q.type = p.type ∧ q.Throughout RefersLike visible := by
  have hp : p.Proper visible := hscoped.imp fun node hnode _ hrefers =>
    ⟨hrefers, htyped node hnode, hunique node hnode⟩
  obtain ⟨q, s', hruns, hfollows⟩ := normalizations_follows I n p s hp
  exact ⟨q, s', hruns, fun env => hfollows.denote_eq env env rfl, hfollows.alike.type,
    hfollows.proper.imp fun _ _ _ hnode => hnode.refers⟩

/-! ### Samples -/

/-- An interpretation by whole numbers, in which calls compare their arguments. -/
def integerInterpretation (tables : TableVar → List (Row Int)) : Interpretation Int where
  tables
  holds
    | .scalar value => value == 1
    | _ => false
  agree _ _
    | .scalar l, .scalar r => l == r
    | _, _ => false
  node
    | .literal (.boolean true), _, _ => .scalar 1
    | .literal (.integer _ value), _, _ => .scalar value
    | .call _, _, [l, r] =>
      match l [], r [] with
      | .scalar l, .scalar r => .scalar (if l = r then 1 else 0)
      | _, _ => .nil
    | _, _, _ => .nil
  holds_literal _ _ := rfl
  eq_of_agree := by
    intro _ _ l r _ h
    cases l <;> cases r <;> simp_all

/-- The type of whole numbers. -/
def integerType : Ty :=
  .scalar { serial := 2, name := "System.Integer", native := .integer }

/-- The type of truth values. -/
def booleanType : Ty :=
  .scalar { serial := 3, name := "System.Boolean", native := .boolean }

/-- An operator for samples. -/
def sampleOperator (name : String) : Operator :=
  { serial := 0, name, signature := [], returnType := none }

/-- A table of whole numbers. -/
def integerTable (names : List String) : Ty :=
  .rows .table (names.map (·, integerType))

/-- A table variable of whole numbers as a plan. -/
def integerVariable (name : String) (columns : List String) : Plan :=
  .make (.tableVarReference { name, heading := some (columns.map (·, integerType)) })
    (some (integerTable columns)) .none []

/-- The rows of a source in which a column equals a value. -/
def whereEqual (source : Plan) (name : String) (column : Nat) (value : Plan) : Plan :=
  .make (.restrict (sampleOperator "iRestrict")) source.type .none
    [source, .make (.call (sampleOperator "iEqual")) (some booleanType) .none
      [.make (.stackColumnReference name 0 column) (some integerType) .none [], value]]

/-- A restriction of a renamed left join, by a column that the sides share and a variable outside. -/
def restrictedJoin : Plan :=
  let joined := Plan.make (.join (sampleOperator "iLeftJoin") .left)
    (some (integerTable ["a", "b", "c"])) .none
    [integerVariable "T" ["a", "b"], integerVariable "U" ["b", "c"]]
  let renamed := Plan.make (.rename (sampleOperator "iRename") [("c", "d")])
    (some (integerTable ["a", "b", "d"])) .none [joined]
  whereEqual renamed "b" 1 (.make (.stackReference "x" 1) (some integerType) .none [])

/-- The rows of the two table variables of the sample. -/
def sampleTables (tv : TableVar) : List (Row Int) :=
  if tv.name = "T" then [[.scalar 1, .scalar 2], [.scalar 3, .scalar 4]]
  else [[.scalar 2, .scalar 7]]

theorem denote_normalizations_restrictedJoin :
    ∃ q s, normalizations 2 restrictedJoin {} = (.ok q, s) ∧
      q.nodes.map Plan.kind = [.rename, .join, .restrict, .tableVarReference, .call,
        .stackColumnReference, .stackReference, .tableVarReference] ∧
      q.denote (integerInterpretation sampleTables) [.scalar 4] =
        .table [[.scalar 3, .scalar 4, .nil]] ∧
      q.type = some (integerTable ["a", "b", "d"]) ∧
      q.Throughout RefersLike [{ name := "x", type := some integerType }] := by
  have hkinds : (match (normalizations 2 restrictedJoin {}).1 with
    | .ok q => decide (q.nodes.map Plan.kind = [.rename, .join, .restrict, .tableVarReference, .call,
        .stackColumnReference, .stackReference, .tableVarReference])
    | .error _ => false) = true := by decide +kernel
  have hscoped : restrictedJoin.Throughout RefersLike [{ name := "x", type := some integerType }] := by
    refine ⟨trivial, ⟨trivial, ⟨trivial, ⟨trivial, trivial⟩, ⟨trivial, trivial⟩, trivial⟩, trivial⟩,
      ⟨trivial, ⟨?_, trivial⟩, ⟨?_, trivial⟩, trivial⟩, trivial⟩
    · exact ⟨_, _, _, _, rfl, rfl, rfl, rfl, .inl rfl⟩
    · exact ⟨_, rfl, rfl, rfl⟩
  have htyped : ∀ node ∈ restrictedJoin.nodes, node.HasRowType := by
    refine List.forall_mem_cons.mpr ⟨⟨_, _, rfl, rfl, rfl⟩, ?_⟩
    refine List.forall_mem_cons.mpr ⟨⟨_, rfl, rfl⟩, ?_⟩
    refine List.forall_mem_cons.mpr ⟨⟨_, _, .inl ⟨rfl, rfl⟩⟩, ?_⟩
    iterate 5 refine List.forall_mem_cons.mpr ⟨trivial, ?_⟩
    nofun
  have hunique : ∀ node ∈ restrictedJoin.nodes, node.columns.names.Nodup := by decide +kernel
  obtain ⟨q, s, hruns, hdenote, htype, hscoped'⟩ :=
    denote_normalizations (integerInterpretation sampleTables) 2 restrictedJoin
      [{ name := "x", type := some integerType }] {} hscoped htyped hunique
  rw [hruns] at hkinds
  exact ⟨q, s, hruns, of_decide_eq_true hkinds, hdenote _, htype, hscoped'⟩

/-- A restriction of a renamed table with two columns of the same name, by the second of them. -/
def restrictedRenaming : Plan :=
  let renamed := Plan.make (.rename (sampleOperator "iRename") [("a", "c")])
    (some (integerTable ["c", "a"])) .none [integerVariable "T" ["a", "a"]]
  whereEqual renamed "a" 1 (.make (.literal (.integer .int 5)) (some integerType) .none [])

/-- Whether a value is a table without rows. -/
def Datum.isNoRows {α : Type} : Datum α → Bool
  | table [] => true
  | _ => false

/-- Where two columns share a name, a restriction may come to select by the wrong one of them when it
moves below a renaming. -/
theorem exists_denote_normalizations_ne :
    ∃ (I : Interpretation Int) (p q : Plan) (s : PassState), p.Throughout RefersLike [] ∧
      (∀ node ∈ p.nodes, node.HasRowType) ∧ normalizations 1 p {} = (.ok q, s) ∧
      q.denote I [] ≠ p.denote I [] := by
  let I := integerInterpretation fun _ => [[.scalar 1, .scalar 5]]
  have hbefore : restrictedRenaming.denote I [] = .table [[.scalar 1, .scalar 5]] := rfl
  have hafter : (normalizations 1 restrictedRenaming {}).1.toOption.any fun q => (q.denote I []).isNoRows := by
    decide +kernel
  rcases hrun : normalizations 1 restrictedRenaming {} with ⟨_ | q, s⟩
  · rw [hrun] at hafter
    cases hafter
  refine ⟨I, restrictedRenaming, q, s, ?_, ?_, hrun, fun hsame => ?_⟩
  · refine ⟨trivial, ⟨trivial, ⟨trivial, trivial⟩, trivial⟩,
      ⟨trivial, ⟨?_, trivial⟩, ⟨trivial, trivial⟩, trivial⟩, trivial⟩
    exact ⟨_, _, _, _, rfl, rfl, rfl, rfl, .inl rfl⟩
  · refine List.forall_mem_cons.mpr ⟨⟨_, _, rfl, rfl, rfl⟩, ?_⟩
    refine List.forall_mem_cons.mpr ⟨⟨_, rfl, rfl⟩, ?_⟩
    iterate 4 refine List.forall_mem_cons.mpr ⟨trivial, ?_⟩
    nofun
  · rw [hrun] at hafter
    change (q.denote I []).isNoRows at hafter
    rw [hsame, hbefore] at hafter
    cases hafter

end Relational
