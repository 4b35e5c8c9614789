import Relational.Optimize.Basic
import Relational.Proofs.Optimize.Meaning
import Relational.Proofs.Plan.Fields
import Relational.Proofs.Resolution.Effects
import Relational.Proofs.Type

/-!
# Well-formed plans and transformations that keep their meaning

In a well-formed plan every reference leads to what it names, relational nodes have the columns that
their sources and constructs give them, and no two columns of a node share a name. Columns of rows are
compared by the equality of types, under which scalar types are the same if their names are.

A plan follows another if it is well-formed, of the same type, and means the same. A transformation all
of whose steps lead to plans that follow their nodes leads to a plan that follows the whole.
-/

namespace Relational

/-! ### Equality of types -/

namespace Ty

/-- Types that are the same or equal. -/
def Like (t u : Ty) : Prop :=
  t = u ∨ t.equals u = true

theorem Like.of_equals {t u v : Ty} (h : t.equals u = true) (h' : u.Like v) : t.Like v := by
  rcases h' with rfl | h'
  · exact .inr h
  · exact .inr (equals_trans h h')

end Ty

namespace Plan

variable {p q : Plan} {visible : List Symbol} {children : List Plan}

/-! ### Well-formed plans -/

/-- A reference that leads to what it names among the symbols that it sees, where the column of a row has
a type like that of the reference. -/
abbrev RefersLike : Plan → List Symbol → Prop :=
  RefersBy Ty.Like

/-- A relational node with the columns that its construct makes of those of its sources: a restriction has
the type of its source, a projection the columns it names, a renaming columns whose old names are those
of the source in order, an extension the columns of the source in front, and a join the columns of both
sides, shared ones once if it is natural. Declarations are no expressions. -/
def HasRowType (p : Plan) : Prop :=
  match p.construct with
  | .restrict _ => ∃ source condition, p.children = [source, condition] ∧
      p.type = source.type ∧ p.type.isSome
  | .project _ names => ∃ source, p.children = [source] ∧ p.columns.names = names
  | .rename _ renames => ∃ source, p.children = [source] ∧
      p.columns.names.map (unrenamed renames) = source.columns.names
  | .extend _ _ => ∃ source values, p.children = source :: values ∧ source.columns <+: p.columns
  | .join _ _ => ∃ left right,
      p.children = [left, right] ∧ p.columns = sharedOnce left.columns right.columns ∨
      ∃ condition, p.children = [left, right, condition] ∧
        p.columns = left.columns ++ right.columns
  | .variable_ .. => p.type = none
  | _ => True

/-- A node that restricts a source by a condition. -/
structure IsRestriction (p : Plan) (op : Operator) (source condition : Plan) : Prop where
  construct : p.construct = .restrict op
  children : p.children = [source, condition]

/-- A node whose reference leads to what it names, with the columns that it should have and no two of
them of the same name. -/
structure IsProper (p : Plan) (visible : List Symbol) : Prop where
  refers : p.RefersLike visible
  typed : p.HasRowType
  unique : p.columns.names.Nodup

/-- A plan all of whose nodes are well-formed. -/
def Proper (p : Plan) (visible : List Symbol) : Prop :=
  p.Throughout IsProper visible

theorem columns_congr (htype : q.type = p.type) : q.columns = p.columns :=
  congrArg rowColumns htype

theorem HasRowType.congr (h : p.HasRowType) (hcon : q.construct = p.construct)
    (htype : q.type = p.type) (hkids : Childwise (fun _ => Alike) 0 p.children q.children) :
    q.HasRowType := by
  unfold HasRowType at h ⊢
  rw [hcon, columns_congr htype, htype]
  generalize p.construct = con at h ⊢
  generalize q.children = children at hkids ⊢
  cases con with
  | restrict _ =>
    obtain ⟨src, cond, hsrcs, hsrc, hsome⟩ := h
    rw [hsrcs] at hkids
    obtain _ | ⟨halike, _ | ⟨-, _ | _⟩⟩ := hkids
    exact ⟨_, _, rfl, hsrc.trans halike.type.symm, hsome⟩
  | project _ _ =>
    obtain ⟨src, hsrcs, hnames⟩ := h
    rw [hsrcs] at hkids
    obtain _ | ⟨-, _ | _⟩ := hkids
    exact ⟨_, rfl, hnames⟩
  | rename _ _ =>
    obtain ⟨src, hsrcs, hnames⟩ := h
    rw [hsrcs] at hkids
    obtain _ | ⟨halike, _ | _⟩ := hkids
    exact ⟨_, rfl, columns_congr halike.type ▸ hnames⟩
  | extend _ _ =>
    obtain ⟨src, vals, hsrcs, hcols⟩ := h
    rw [hsrcs] at hkids
    obtain _ | ⟨halike, -⟩ := hkids
    exact ⟨_, _, rfl, columns_congr halike.type ▸ hcols⟩
  | join _ _ =>
    obtain ⟨left, right, ⟨hsrcs, hcols⟩ | ⟨cond, hsrcs, hcols⟩⟩ := h
    · rw [hsrcs] at hkids
      obtain _ | ⟨hleft, _ | ⟨hright, _ | _⟩⟩ := hkids
      rw [← columns_congr hleft.type, ← columns_congr hright.type] at hcols
      exact ⟨_, _, .inl ⟨rfl, hcols⟩⟩
    · rw [hsrcs] at hkids
      obtain _ | ⟨hleft, _ | ⟨hright, _ | ⟨-, _ | _⟩⟩⟩ := hkids
      rw [← columns_congr hleft.type, ← columns_congr hright.type] at hcols
      exact ⟨_, _, .inr ⟨_, rfl, hcols⟩⟩
  | _ => exact h

theorem IsProper.congr (h : p.IsProper visible) (hcon : q.construct = p.construct)
    (htype : q.type = p.type) (hkids : Childwise (fun _ => Alike) 0 p.children q.children) :
    q.IsProper visible where
  refers := by
    rw [RefersLike, RefersBy, hcon, htype]
    exact h.refers
  typed := h.typed.congr hcon htype hkids
  unique := by
    rw [columns_congr htype]
    exact h.unique

theorem HasRowType.declaredSymbol? (h : p.HasRowType) (htype : p.type.isSome) : p.declaredSymbol? = none := by
  unfold Plan.declaredSymbol?
  unfold HasRowType at h
  split
  · rename_i hcon
    simp only [hcon] at h
    simp [h] at htype
  · rfl

theorem denote_of_isReference {α : Type} {I : Interpretation α}
    (href : p.construct.isReference = true) (hcon : q.construct = p.construct)
    (env : List (Datum α)) : q.denote I env = p.denote I env := by
  cases p
  obtain ⟨con', type', chars', pos', annots', children'⟩ := q
  subst hcon
  cases con'
  case stackReference | stackColumnReference => rw [denote, denote]
  all_goals cases href

theorem construct_replaceChildren (p : Plan) (children : List Plan) :
    (p.replaceChildren children).construct = p.construct := by
  unfold replaceChildren
  split <;> rfl

theorem children_replaceChildren (p : Plan) (children : List Plan) :
    (p.replaceChildren children).children = children := by
  unfold replaceChildren
  split <;> rfl

theorem HasRowType.type_replaceChildren (h : p.HasRowType)
    (hkids : Childwise (fun _ => Alike) 0 p.children children) :
    (p.replaceChildren children).type = p.type := by
  unfold replaceChildren
  split
  · rename_i op first rest hcon
    simp only [HasRowType, hcon] at h
    obtain ⟨src, cond, hsrcs, htype, -⟩ := h
    rw [hsrcs] at hkids
    obtain _ | ⟨hfirst, -⟩ := hkids
    exact hfirst.type.trans htype.symm
  · rfl

theorem replaceChildren_self (h : ∀ op source rest, p.construct = .restrict op →
    p.children = source :: rest → p.type = source.type) : p.replaceChildren p.children = p := by
  cases p
  unfold replaceChildren
  split
  · rename_i op src rest hcon hkids
    subst hcon hkids
    rw [← h op src rest rfl rfl]
  · rfl

theorem HasRowType.replaceChildren_self (h : p.HasRowType) : p.replaceChildren p.children = p := by
  refine Plan.replaceChildren_self fun op src rest hcon hkids => ?_
  simp only [HasRowType, hcon, hkids, List.cons.injEq] at h
  obtain ⟨_, _, ⟨rfl, -⟩, htype, -⟩ := h
  exact htype

theorem throughoutFrom_of_childwise {P : Plan → List Symbol → Prop} {parent : Plan} {idx : Nat}
    {children' : List Plan} (h : Childwise (fun i _ child =>
      Throughout P child (parent.childView i visible)) idx children children') :
    ThroughoutFrom P parent visible idx children' := by
  induction h with
  | nil => trivial
  | cons hfirst _ ih => exact ⟨hfirst, ih⟩

theorem IsProper.replaceChildren (h : p.IsProper visible)
    (halike : Childwise (fun _ => Alike) 0 p.children children)
    (hproper : Childwise (fun i _ child => child.Proper (p.childView i visible)) 0 p.children children) :
    p.Alike (p.replaceChildren children) ∧ (p.replaceChildren children).Proper visible := by
  have hcon := p.construct_replaceChildren children
  have hkids := p.children_replaceChildren children
  have htype := h.typed.type_replaceChildren halike
  refine ⟨⟨htype, ?_⟩, ?_⟩
  · rw [declaredSymbol?, declaredSymbol?, hcon]
  · have hview : ∀ i, (p.replaceChildren children).childView i visible = p.childView i visible :=
      fun i => childView_congr hcon (by rwa [hkids]) i visible
    refine throughout_iff.mpr ⟨h.congr hcon htype (by rwa [hkids]), ?_⟩
    intro i child hkid
    rw [hkids] at hkid
    rw [hview]
    have hall := throughoutFrom_iff.mp (throughoutFrom_of_childwise hproper) i child hkid
    rwa [Nat.zero_add] at hall

/-! ### Plans that follow others -/

variable {α σ : Type} {I : Interpretation α}

/-- A well-formed plan of the type of another that means the same in related environments. -/
structure Follows (I : Interpretation α) (E : List (Datum α) → List (Datum α) → Prop)
    (visible : List Symbol) (p q : Plan) : Prop where
  alike : p.Alike q
  proper : q.Proper visible
  denote_eq : ∀ env env', E env env' → q.denote I env' = p.denote I env

theorem Follows.refl (h : p.Proper visible) : p.Follows I Eq visible p where
  alike := ⟨rfl, rfl⟩
  proper := h
  denote_eq := by rintro env _ rfl; rfl

theorem Follows.trans {r : Plan} (h : p.Follows I Eq visible q) (h' : q.Follows I Eq visible r) :
    p.Follows I Eq visible r where
  alike := ⟨h'.alike.type.trans h.alike.type, h'.alike.declared.trans h.alike.declared⟩
  proper := h'.proper
  denote_eq := by
    rintro env _ rfl
    exact (h'.denote_eq env env rfl).trans (h.denote_eq env env rfl)

/-- A node over children that follow its own follows the node, provided that references mean the same in
related environments. -/
theorem Follows.replaceChildren {E : List (Datum α) → List (Datum α) → Prop}
    {Es : Nat → List (Datum α) → List (Datum α) → Prop} (hnode : p.IsProper visible)
    (href : p.construct.isReference = true → ∀ env env', E env env' → p.denote I env' = p.denote I env)
    (henv : ∀ i vals env env', E env env' → Es i (p.childValues i vals env) (p.childValues i vals env'))
    (hkids : Childwise (fun i => Follows I (Es i) (p.childView i visible)) 0 p.children
      children) : p.Follows I E visible (p.replaceChildren children) := by
  have halike : Childwise (fun _ => Alike) 0 p.children children :=
    hkids.imp fun _ _ _ h => h.alike
  obtain ⟨halike', hproper⟩ :=
    hnode.replaceChildren halike (hkids.imp fun _ _ _ h => h.proper)
  refine ⟨halike', hproper, fun env env' hE => ?_⟩
  have hcon := p.construct_replaceChildren children
  have hkids' := p.children_replaceChildren children
  cases hcase : p.construct.isReference with
  | true =>
    rw [← href hcase env env' hE]
    exact denote_of_isReference hcase hcon env'
  | false =>
    refine denote_congr I hcase hcon halike'.type (by rwa [hkids']) ?_
    rw [hkids']
    exact hkids.imp fun i child child' h vals => h.denote_eq _ _ (henv i vals env env' hE)

/-! ### Transformations -/

/-- A way to say of actions what their values are like. -/
structure IsLogic (L : (β : Type) → Visit σ β → (β → Prop) → Prop) : Prop where
  pure : ∀ {β} {value : β} {Q}, Q value → L β (Pure.pure value) Q
  bind : ∀ {β γ} {action : Visit σ β} {next : β → Visit σ γ} {P Q}, L β action P →
    (∀ value, P value → L γ (next value) Q) → L γ (action >>= next) Q

/-- The children of a node, from an index on, and what a transformation makes of them. -/
inductive Transforms (R : Nat → Plan → Transformed → Prop) : Nat → List Plan → List Plan → Bool → Prop
  | nil {index : Nat} : Transforms R index [] [] true
  | cons {index child first rest rest' isSame} :
      R index child first → Transforms R (index + 1) rest rest' isSame →
      Transforms R index (child :: rest) (first.orChild child :: rest') (first.isSame && isSame)

section Transforms

variable {R : Nat → Plan → Transformed → Prop} {S : Nat → Plan → Plan → Prop} {idx : Nat}
  {children' : List Plan} {isSame : Bool} (h : Transforms R idx children children' isSame)

include h

theorem Transforms.childwise (hS : ∀ {idx child t}, R idx child t → S idx child (t.orChild child)) :
    Childwise S idx children children' := by
  induction h with
  | nil => exact .nil
  | cons hfirst _ ih => exact .cons (hS hfirst) ih

theorem Transforms.length_eq : children'.length = children.length :=
  (h.childwise (S := fun _ _ _ => True) fun _ => trivial).length_eq

theorem Transforms.eq_of_same (hsame : isSame = true) : children' = children := by
  induction h with
  | nil => rfl
  | cons _ _ ih =>
    rw [Bool.and_eq_true] at hsame
    rw [Transformed.orChild, if_pos hsame.1, ih hsame.2]

end Transforms

/-- A transformation that enters the children of a node, one after the other, before it takes a step at
the node. -/
structure IsWalk (step : Plan → Visit σ Transformed)
    (enter : Plan → Nat → Visit σ Transformed → Visit σ Transformed) (walk : Plan → Visit σ Transformed)
    (walkAll : Plan → Nat → List Plan → Visit σ (List Plan × Bool)) : Prop where
  node : ∀ p, walk p = walkAll p 0 p.children >>= fun result => finish step p result.1 result.2
  nil : ∀ p index, walkAll p index [] = Pure.pure ([], true)
  cons : ∀ p index child rest, walkAll p index (child :: rest) = do
    let first ← enter p index (walk child)
    let result ← walkAll p (index + 1) rest
    return (first.orChild child :: result.1, first.isSame && result.2)

theorem isWalk_transform (f : Plan → Visit σ Transformed) :
    IsWalk f (fun _ _ act => act) (transform f) fun _ _ => transformAll f where
  node p := by
    cases p
    rw [transform]
  nil _ _ := by rw [transformAll]
  cons _ _ _ _ := by rw [transformAll]

theorem isWalk_transformWithStack (f : Plan → Stack → Visit σ Transformed) :
    IsWalk (withStack f) tryInChild (transformWithStack f) (transformChildrenWithStack f) where
  node p := by
    cases p
    rw [transformWithStack]
  nil _ _ := by rw [transformChildrenWithStack]
  cons _ _ _ _ := by rw [transformChildrenWithStack]

theorem rebuild_apply {isSame : Bool} (h : children.length = p.children.length) (s : σ) :
    p.rebuild children isSame s = (.ok (if isSame then p else p.replaceChildren children), s) := by
  unfold rebuild
  cases isSame with
  | true => rfl
  | false =>
    rw [withChildren_eq, if_pos (Or.inr h)]
    rfl

theorem orChild_eq {res : Transformed} (h : res.isSame = true → res.plan = p) : res.orChild p = res.plan := by
  unfold Transformed.orChild
  split
  · exact (h ‹_›).symm
  · rfl

section Walk

variable {step : Plan → Visit σ Transformed}
  {enter : Plan → Nat → Visit σ Transformed → Visit σ Transformed} {walk : Plan → Visit σ Transformed}
  {walkAll : Plan → Nat → List Plan → Visit σ (List Plan × Bool)} {ι : Type}
  {L : ι → (β : Type) → Visit σ β → (β → Prop) → Prop} {K : ι → Plan → Prop}
  {R : ι → Plan → Transformed → Prop} (view : Plan → ι → Nat → ι)

/-- What is said of the steps over transformed children is said of the whole transformation. What is known
of a node may depend on where it stands. -/
theorem IsWalk.holds (h : IsWalk step enter walk walkAll) (hL : ∀ i, IsLogic (L i))
    (hkid : ∀ {i p idx child}, K i p → p.children[idx]? = some child →
      K (view p i idx) child ∧ ∀ {act Q}, L (view p i idx) Transformed act Q →
        L i Transformed (enter p idx act) Q) (hnode : ∀ {i p children isSame}, K i p →
      Transforms (fun idx => R (view p i idx)) 0 p.children children isSame →
        L i Transformed (step (if isSame then p else p.replaceChildren children))
          fun t => R i p ⟨t.plan, isSame && t.isSame⟩)
    (p : Plan) {i : ι} (hp : K i p) : L i Transformed (walk p) (R i p) := by
  induction p using childInduction generalizing i with
  | step p ih =>
    have hall : ∀ ps idx, (∀ j child, ps[j]? = some child → p.children[idx + j]? = some child) →
        L i _ (walkAll p idx ps) fun res =>
          Transforms (fun idx => R (view p i idx)) idx ps res.1 res.2 := by
      intro ps
      induction ps with
      | nil =>
        intro idx _
        rw [h.nil]
        exact (hL i).pure .nil
      | cons child ps ihs =>
        intro idx hps
        have hmem : p.children[idx]? = some child := hps 0 child rfl
        obtain ⟨hK, henter⟩ := hkid hp hmem
        rw [h.cons]
        refine (hL i).bind (henter (ih child (List.mem_of_getElem? hmem) hK)) fun first hfirst => ?_
        refine (hL i).bind (ihs (idx + 1) fun j other hother => ?_) fun res hres =>
          (hL i).pure (.cons hfirst hres)
        rw [Nat.add_right_comm]
        exact hps (j + 1) other hother
    rw [h.node]
    refine (hL i).bind (hall p.children 0 (by simp)) fun res hres => ?_
    have hrebuild : (p.rebuild res.1 res.2 : Visit σ Plan) =
        pure (if res.2 then p else p.replaceChildren res.1) :=
      funext (rebuild_apply hres.length_eq)
    rw [finish, hrebuild, pure_bind]
    exact (hL i).bind (hnode hp hres) fun t ht => (hL i).pure ht

end Walk

/-- An action that succeeds, with a value of some kind. -/
def Succeeds {β : Type} (action : Visit σ β) (Q : β → Prop) : Prop :=
  ∀ s, ∃ value s', action s = (.ok value, s') ∧ Q value

theorem isLogic_succeeds : IsLogic fun β => Succeeds (σ := σ) (β := β) where
  pure h s := ⟨_, s, rfl, h⟩
  bind h hnext s := by
    obtain ⟨val, s', hrun, hval⟩ := h s
    rw [bind_apply, hrun]
    exact hnext val hval s'

/-- A plan after a transformation that follows the plan there was, and that is the plan itself if it says
so. -/
def Leads (I : Interpretation α) (visible : List Symbol) (p : Plan) (t : Transformed) : Prop :=
  (t.isSame = true → t.plan = p) ∧ p.Follows I Eq visible t.plan

theorem transform_follows {f : Plan → Visit σ Transformed}
    (hf : ∀ p visible, p.Proper visible → Succeeds (f p) (Leads I visible p)) (p : Plan)
    (hp : p.Proper visible) : Succeeds (p.transform f) (Leads I visible p) := by
  refine (isWalk_transform f).holds (L := fun _ _ => Succeeds) (K := fun visible p => p.Proper visible)
    (R := Leads I) (fun p visible idx => p.childView idx visible) (fun _ => isLogic_succeeds)
    (fun hp hkid => ⟨(throughout_iff.mp hp).2 _ _ hkid, id⟩) (fun hp hkids => ?_) p hp
  rename_i visible p children isSame
  have hrebuilt : p.Follows I Eq visible (if isSame then p else p.replaceChildren children) := by
    cases isSame with
    | true => exact .refl hp
    | false =>
      refine .replaceChildren (throughout_iff.mp hp).1 ?_ ?_
        (hkids.childwise fun h => orChild_eq h.1 ▸ h.2)
      · rintro - env _ rfl
        rfl
      · rintro i vals env _ rfl
        rfl
  intro s
  obtain ⟨t, s', hrun, hkept, hres⟩ := hf _ visible hrebuilt.proper s
  refine ⟨t, s', hrun, fun h => ?_, hrebuilt.trans hres⟩
  rw [Bool.and_eq_true] at h
  rw [hkept h.2, h.1]
  rfl

end Plan

end Relational
