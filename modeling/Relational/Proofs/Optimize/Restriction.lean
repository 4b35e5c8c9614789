import Relational.Optimize.Restriction
import Relational.Proofs.Optimize.Rows

/-!
# Restrictions below other nodes

A restriction means the rows of its source for which its condition holds. Put on a child of a node, it
leaves the type of the child as it was, so that the node stays well-formed. A node lets restrictions
through to a child if selecting rows of the node comes to the same as selecting rows of the child.
Projections, renamings and extensions let restrictions through to their source, and joins to the sides
whose rows are not filled in.
-/

namespace Relational

variable {α : Type} {I : Interpretation α} {p src child cond : Plan} {visible : List Symbol}
  {heading : Heading} {op : Operator} {idx : Nat} {names : List String} {kind : JoinKind}

namespace Plan

/-! ### The meaning of restrictions -/

namespace IsRestriction

variable (h : p.IsRestriction op src cond)
include h

theorem childScope_source : p.childScope 0 = [] := by
  simp only [childScope, h.construct, h.children]

theorem childScope_condition (hhead : src.heading? = some heading) : p.childScope 1 = [.ofRow heading] := by
  simp [childScope, h.construct, h.children, rowSymbols, hhead]

theorem isWindowed : p.isWindowed = false := by
  rw [Plan.isWindowed, h.construct]

theorem denote_eq (env : List (Datum α)) : p.denote I env = (src.denote I env).restrict fun row =>
      I.holds (cond.denote I (p.childValues 1 [.row row] env)) := by
  have hsrc : ∀ vals, p.childValues 0 vals env = env :=
    fun vals => childValues_of_childScope h.childScope_source h.isWindowed vals env
  rw [denote_eq_meaning I (by rw [h.construct]; rfl), h.construct, h.children]
  simp only [denoteFrom, Interpretation.meaning, hsrc]

theorem childValues_condition (hhead : src.heading? = some heading) (row : Row α)
    (env : List (Datum α)) : p.childValues 1 [.row row] env = .row row :: env := by
  rw [childValues, h.childScope_condition hhead, h.isWindowed]
  rfl

theorem denote_literalTrue (hcond : isLiteralTrue cond = true)
    (env : List (Datum α)) : p.denote I env = src.denote I env := by
  have hlit : cond.construct = .literal (.boolean true) := by
    unfold isLiteralTrue at hcond
    split at hcond
    · assumption
    · cases hcond
  have hholds : ∀ env, I.holds (cond.denote I env) = true := by
    intro env
    rw [denote_eq_meaning I (by rw [hlit]; rfl), hlit]
    exact I.holds_literal _ _
  rw [h.denote_eq]
  simp only [hholds]
  exact Datum.restrict_true _

end IsRestriction

/-! ### Restrictions put on children -/

/-- A node with a restriction put on one of its children. -/
def restrictChild (p : Plan) (index : Nat) (op : Operator) (position : Position)
    (child condition : Plan) : Plan :=
  p.replaceChildren
    (p.children.set index (make (.restrict op) child.type position [child, condition]))

theorem isSome_type_of_heading? (h : p.heading? = some heading) : p.type.isSome = true := by
  unfold heading? at h
  cases htype : p.type with
  | none => simp [htype] at h
  | some _ => rfl

section RestrictChild

variable {pos : Position} (hsrc : src.Proper visible)
  (hscope : src.childScope idx = []) (hwindowed : src.isWindowed = false)
  (hkid : src.children[idx]? = some child) (hhead : child.heading? = some heading)
include hsrc hkid hhead

omit hhead in
theorem proper_child (hscope : src.childScope idx = []) (hwindowed : src.isWindowed = false) :
    child.Proper visible := by
  have hproper := (throughout_iff.mp hsrc).2 idx child hkid
  rwa [childView_of_childScope hscope hwindowed] at hproper

theorem alike_restricted (op : Operator) (pos : Position) (cond : Plan) :
    child.Alike (make (.restrict op) child.type pos [child, cond]) := by
  have htyped := (throughout_iff.mp ((throughout_iff.mp hsrc).2 idx child hkid)).1.typed
  exact ⟨rfl, (htyped.declaredSymbol? (isSome_type_of_heading? hhead)).symm⟩

theorem childwise_alike_restrictChild (op : Operator) (pos : Position) (cond : Plan) :
    Childwise (fun _ => Alike) 0 src.children
      (src.children.set idx (make (.restrict op) child.type pos [child, cond])) := by
  refine .set (fun _ _ _ => ⟨rfl, rfl⟩) fun child' hkid' => ?_
  obtain rfl : child = child' := Option.some.inj (hkid.symm.trans hkid')
  exact alike_restricted hsrc hkid hhead op pos cond

include hscope hwindowed

theorem proper_restricted (hcond : cond.Proper (.ofRow heading :: visible)) :
    (make (.restrict op) child.type pos [child, cond]).Proper visible := by
  have hproper := proper_child hsrc hkid hscope hwindowed
  refine throughout_iff.mpr ⟨⟨trivial, ?_, (throughout_iff.mp hproper).1.unique⟩, ?_⟩
  · exact ⟨child, cond, rfl, rfl, isSome_type_of_heading? hhead⟩
  · intro i below hbelow
    match i with
    | 0 =>
      obtain rfl : child = below := by simpa [make] using hbelow
      exact hproper
    | 1 =>
      obtain rfl : cond = below := by simpa [make] using hbelow
      rw [childView, IsRestriction.childScope_condition ⟨rfl, rfl⟩ hhead]
      exact hcond
    | i + 2 => simp [make] at hbelow

theorem proper_restrictChild (hcond : cond.Proper (.ofRow heading :: visible)) :
    src.Alike (src.restrictChild idx op pos child cond) ∧
      (src.restrictChild idx op pos child cond).Proper visible := by
  obtain ⟨hnode, hkids⟩ := throughout_iff.mp hsrc
  refine hnode.replaceChildren (childwise_alike_restrictChild hsrc hkid hhead op pos cond) ?_
  refine .set (fun i below hbelow => ?_) fun _ _ => ?_
  · rw [Nat.zero_add]
    exact hkids i below hbelow
  · rw [Nat.zero_add, childView_of_childScope hscope hwindowed]
    exact proper_restricted hsrc hscope hwindowed hkid hhead hcond

theorem denote_restrictChild (href : src.construct.isReference = false)
    (env : List (Datum α)) : (src.restrictChild idx op pos child cond).denote I env =
      I.meaning src.construct src.type (src.children.map columns)
        ((denoteFrom I src env 0 src.children).modify idx fun d values =>
          (d values).restrict fun row => I.holds (cond.denote I (.row row :: env))) := by
  have halike := childwise_alike_restrictChild hsrc hkid hhead op pos cond
  have htype : (src.restrictChild idx op pos child cond).type = src.type :=
    (throughout_iff.mp hsrc).1.typed.type_replaceChildren halike
  have hcon : (src.restrictChild idx op pos child cond).construct =
      src.construct := src.construct_replaceChildren _
  have hkids : (src.restrictChild idx op pos child cond).children =
      src.children.set idx (make (.restrict op) child.type pos [child, cond]) :=
    src.children_replaceChildren _
  rw [denote_eq_meaning I (hcon ▸ href), hcon, htype, hkids,
    halike.map_eq (f := columns) fun _ _ _ h => columns_congr h.type]
  congr 1
  rw [denoteFrom_congr I (.refl (fun i below _ values => congrArg (below.denote I)
    (childValues_congr hcon (hkids ▸ halike) _ values env)))]
  refine denoteFrom_set fun below values hbelow => ?_
  obtain rfl : child = below := Option.some.inj (hkid.symm.trans hbelow)
  have hrow : ∀ row, (make (.restrict op) child.type pos [child, cond]).childValues 1
      [.row row] env = .row row :: env :=
    fun row => IsRestriction.childValues_condition ⟨rfl, rfl⟩ hhead row env
  rw [Nat.zero_add, childValues_of_childScope hscope hwindowed, IsRestriction.denote_eq ⟨rfl, rfl⟩]
  simp only [hrow]

end RestrictChild

/-! ### Nodes that let restrictions through -/

/-- The children that restrictions of a node may move below, by the construct of the node, and the names
that lead to their columns. -/
inductive LetsThrough : Construct → Nat → (String → String) → Prop
  | project {op : Operator} {names : List String} : LetsThrough (.project op names) 0 id
  | rename {op : Operator} {renames : List (String × String)} :
      LetsThrough (.rename op renames) 0 (unrenamed renames)
  | extend {op : Operator} {names : List String} : LetsThrough (.extend op names) 0 id
  | joinLeft {op : Operator} {kind : JoinKind} (hkind : kind ≠ .right) :
      LetsThrough (.join op kind) 0 id
  | joinRight {op : Operator} {kind : JoinKind} (hkind : kind ≠ .left) :
      LetsThrough (.join op kind) 1 id

variable {rename : String → String} {s : PassState}

theorem LetsThrough.childScope_eq (h : LetsThrough p.construct idx rename) :
    p.childScope idx = [] ∧ p.isWindowed = false ∧ p.construct.isReference = false := by
  unfold childScope isWindowed
  generalize p.construct = con at h ⊢
  generalize p.children = children
  cases h <;> rcases children with _ | ⟨_, _ | _⟩ <;> exact ⟨rfl, rfl, rfl⟩

/-- Selecting rows of the node is selecting rows of the child, provided that rows of the node are selected
exactly if the rows of the child that they move to are. -/
theorem LetsThrough.meaning_eq (h : LetsThrough src.construct idx rename)
    (htyped : src.HasRowType) (hunique : src.columns.names.Nodup)
    (hchildUnique : child.columns.names.Nodup) (hhead : src.heading? = some heading)
    (hkid : src.children[idx]? = some child) {target : Heading}
    (htgt : child.heading? = some target) {f g : Row α → Bool}
    (hmoves : ∀ row row', RowsMove heading target rename row row' → f row = g row')
    (env : List (Datum α)) : I.meaning src.construct src.type (src.children.map columns)
      ((denoteFrom I src env 0 src.children).modify idx fun d values =>
        (d values).restrict g) =
      (I.meaning src.construct src.type (src.children.map columns)
        (denoteFrom I src env 0 src.children)).restrict f := by
  unfold HasRowType at htyped
  rw [columns_of_heading? hhead] at htyped hunique
  rw [columns_of_heading? htgt] at hchildUnique
  generalize src.construct = construct at h htyped ⊢
  cases h with
  | project =>
    obtain ⟨_, hkids, rfl⟩ := htyped
    obtain rfl := by simpa [hkids] using hkid
    rw [hkids]
    refine (Datum.restrict_map (fun row => hmoves _ row ?_) _).symm
    rw [columns_of_heading? htgt]
    exact rowsMove_project row
  | rename =>
    obtain ⟨_, hkids, hnames⟩ := htyped
    obtain rfl := by simpa [hkids] using hkid
    rw [columns_of_heading? htgt] at hnames
    have hfg : f = g := funext fun row => hmoves row row (rowsMove_rename hnames hchildUnique row)
    rw [hkids, hfg]
    rfl
  | extend =>
    obtain ⟨_, values, hkids, hcols⟩ := htyped
    obtain rfl := by simpa [hkids] using hkid
    rw [columns_of_heading? htgt] at hcols
    rw [hkids]
    refine (Datum.restrict_map (fun row => hmoves _ row ?_) _).symm
    rw [columns_of_heading? htgt]
    exact rowsMove_extend hcols hunique row _
  | joinLeft hkind =>
    obtain ⟨left, right, ⟨hkids, hcols⟩ | ⟨cond, hkids, hcols⟩⟩ := htyped
    all_goals
      obtain rfl : left = child := by simpa [hkids] using hkid
      rw [columns_of_heading? htgt] at hcols
      rw [hkids]
      simp only [List.map_cons, List.map_nil, columns_of_heading? htgt]
      refine (Datum.restrict_join_left hkind (fun l r _ => hmoves _ l ?_) _ _).symm
    · exact rowsMove_natural_left hcols hkind l r
    · exact rowsMove_extend ⟨_, hcols.symm⟩ hunique l _
  | joinRight hkind =>
    obtain ⟨left, right, ⟨hkids, hcols⟩ | ⟨cond, hkids, hcols⟩⟩ := htyped
    all_goals
      obtain rfl : right = child := by simpa [hkids] using hkid
      rw [columns_of_heading? htgt] at hcols
      rw [hkids]
      simp only [List.map_cons, List.map_nil, columns_of_heading? htgt]
      refine (Datum.restrict_join_right hkind (fun l r hjoined => hmoves _ r ?_) _ _).symm
    · exact rowsMove_natural_right hcols hkind hjoined
    · exact rowsMove_paired_right hcols hunique l r

/-! ### Attempts to move a restriction -/

/-- What comes of an attempt to move a restriction: it stays, it moves below a child of its source, or its
condition refers to a column that the source does not have. -/
inductive Attempt (p : Plan) (op : Operator) (source condition : Plan) (s : PassState) :
    Except Failure (Option Plan) × PassState → Prop
  | stays : Attempt p op source condition s (.ok none, s)
  | moves {heading target index rename child condition'}
      (hheading : source.heading? = some heading) (h : LetsThrough source.construct index rename)
      (hchild : source.children[index]? = some child) (htarget : child.heading? = some target)
      (hrebase : condition.rebase heading target rename = .ok condition') :
      Attempt p op source condition s
        (.ok (some (source.restrictChild index op p.position child condition')), s)
  | fails {heading failure s'} (hheading : source.heading? = some heading)
      (h : (∃ place ∈ (condition.rowUses heading).columns, heading.columns.length ≤ place) ∨
        ∃ target rename, condition.rebase heading target rename = .error .outOfRange) :
      Attempt p op source condition s (.error failure, s')

theorem exists_of_names_eq_none {places : List Nat}
    (h : (places.mapM fun place => (heading.columns[place]?).map Prod.fst) = none) :
    ∃ place ∈ places, heading.columns.length ≤ place := by
  induction places with
  | nil => cases h
  | cons place places ih =>
    rcases Nat.lt_or_ge place heading.columns.length with hplace | hplace
    · cases hrest : places.mapM fun place => (heading.columns[place]?).map Prod.fst with
      | some names => simp [List.mapM_cons, List.getElem?_eq_getElem hplace, hrest] at h
      | none =>
        obtain ⟨other, hother, hle⟩ := ih hrest
        exact ⟨other, List.mem_cons_of_mem _ hother, hle⟩
    · exact ⟨place, List.mem_cons_self, hplace⟩

namespace Attempt

section

variable (hhead : src.heading? = some heading)
include hhead

theorem columnNames_bind {next : List String → Passing (Option Plan)}
    (hnext : ∀ names, Attempt p op src cond s (next names s)) : Attempt p op src cond s
      ((columnNames heading (cond.rowUses heading).columns >>= next) s) := by
  unfold columnNames
  split
  · exact hnext _
  · exact .fails hhead (.inl (exists_of_names_eq_none ‹_›))

theorem restrictBelow (h : LetsThrough src.construct idx rename) :
    Attempt p op src cond s (restrictBelow p op src cond idx heading rename s) := by
  unfold Relational.restrictBelow
  cases hkid : src.children[idx]? with
  | none => exact .stays
  | some child =>
    cases htgt : child.heading? with
    | none =>
      simp only [htgt]
      exact .stays
    | some tgt =>
      simp only [htgt]
      cases hrebase : cond.rebase heading tgt rename with
      | error issue =>
        cases issue with
        | impossible => exact .stays
        | outOfRange => exact .fails hhead (.inr ⟨tgt, rename, hrebase⟩)
      | ok cond' =>
        simp only
        rw [map_eq_pure_bind, bind_apply, rebuild_apply (by simp)]
        exact .moves hhead h hkid htgt hrebase

theorem restrictJoin {joinOp : Operator} (hjoin : src.construct = .join joinOp kind) :
    Attempt p op src cond s (restrictJoin p op src cond kind heading s) := by
  refine columnNames_bind hhead fun names => ?_
  split
  · exact .stays
  dsimp only
  split
  · rename_i hleft
    have hkind : kind ≠ .right := by
      rintro rfl
      simp at hleft
    exact restrictBelow hhead (hjoin ▸ .joinLeft hkind)
  split
  · rename_i hright
    have hkind : kind ≠ .left := by
      rintro rfl
      simp at hright
    exact restrictBelow hhead (hjoin ▸ .joinRight hkind)
  · exact .stays

end

theorem pushRestriction (p : Plan) (op : Operator) (src cond : Plan) (s : PassState) :
    Attempt p op src cond s (pushRestriction p op src cond s) := by
  unfold Relational.pushRestriction
  cases hhead : src.heading? with
  | none => exact .stays
  | some heading =>
    cases hsrc : src.construct with
    | project _ _ => exact restrictBelow hhead (hsrc ▸ .project)
    | rename _ _ => exact restrictBelow hhead (hsrc ▸ .rename)
    | extend _ _ =>
      refine columnNames_bind hhead fun names => ?_
      split
      · exact .stays
      · exact restrictBelow hhead (hsrc ▸ .extend)
    | join _ _ => exact restrictJoin hhead hsrc
    | _ => exact .stays

end Attempt

end Plan

end Relational
