import Relational.Proofs.Optimize.Characteristics

/-!
# Rewriting plans

A node is made anew from its children, and from other children in their place. A transformation makes
nodes anew only where a child changed; the outcome is the same as if every node were made anew. One that
goes through the scopes of the children leaves the stack as it was, also when a step fails.
-/

namespace Relational

open List

/-! ### Nodes and their children -/

theorem IsStatement.replaceChildren_children {opts : CompilerOptions} {Γ : Setting} {p q : Plan}
    (h : IsStatement opts Γ q) (hp : p ∈ q.nodes) : p.replaceChildren p.children = p := by
  refine Plan.replaceChildren_self fun op src rest hcon hkids => ?_
  obtain ⟨Γ', h⟩ := h.exists_of_mem_nodes hp
  cases h with
  | expression h =>
    cases h with
    | restrict =>
      cases hkids
      rfl
    | plain hplain =>
      cases hcon
      cases hplain
    | _ => cases hcon
  | _ => cases hcon

theorem IsStatement.exists_fields {opts : CompilerOptions} {Γ : Setting} {p q : Plan}
    (h : IsStatement opts Γ q) (hp : p ∈ q.nodes) : ∃ fields, p.fields? = some fields := by
  obtain ⟨Γ', h⟩ := h.exists_of_mem_nodes hp
  cases h with
  | expression h =>
    cases h with
    | @plain _ con _ _ children hplain =>
      rcases children with _ | ⟨_, _ | ⟨_, _ | ⟨_, _ | _⟩⟩⟩ <;> cases con <;>
        (first | exact ⟨_, rfl⟩ | cases hplain)
    | @join _ _ _ _ _ _ _ cond => cases cond <;> exact ⟨_, rfl⟩
    | _ => exact ⟨_, rfl⟩
  | @conditional _ _ branches _ _ _ hcount =>
    rcases branches with _ | ⟨_, _ | ⟨_, _ | _⟩⟩
    case cons.nil | cons.cons.nil => exact ⟨_, rfl⟩
    all_goals simp at hcount
  | @declaration _ _ _ _ _ part | @tryHandler _ _ _ _ part | @raise _ part => cases part <;> exact ⟨_, rfl⟩
  | _ => exact ⟨_, rfl⟩

namespace Plan

/-- The children of a compiled node stand in the fields of its construct, and the node is what it is made of.
Fields take as many children as they hold, or any number in a block, a table or a list, and hold these then.
A node takes the same, and stays what it is otherwise, only that a restriction gets the type of its new
source. -/
theorem withChildren_lens (p : Plan) :
    ((∃ (c : Compiler) (q : Plan), c.Gives q ∧ p ∈ q.nodes) →
      (∃ fields, p.fields? = some fields) ∧ p.withChildren p.children = .ok p) ∧
    (∀ fields : Fields Plan p.kind, fields.withChildren fields.children = .ok fields ∧
      (p.fields? = some fields → fields.children = p.children ∧
        ∀ children, p.withChildren children = p.withFields <$> fields.withChildren children) ∧
      ∀ children, ((∃ fields', fields.withChildren children = .ok fields') ↔
          p.kind ∈ [.block, .tableSelector, .listSelector] ∨ children.length = fields.children.length) ∧
        ∀ fields', fields.withChildren children = .ok fields' → fields'.children = children) ∧
    ∀ children, ((∃ q, p.withChildren children = .ok q) ↔
        p.kind ∈ [.block, .tableSelector, .listSelector] ∨ children.length = p.children.length) ∧
      ∀ q, p.withChildren children = .ok q → q = { p with children, type := q.type } ∧
        (p.kind ≠ .restrict → q.type = p.type) ∧
        ∀ source rest, p.kind = .restrict → children = source :: rest → q.type = source.type := by
  have hvariadic : p.kind.isVariadic ↔ p.kind ∈ [.block, .tableSelector, .listSelector] := by
    cases p.kind <;> simp [PlanKind.isVariadic]
  refine ⟨fun ⟨c, q, hq, hp⟩ => ?_, fun fields => ⟨fields.withChildren_children, fun hfields => ?_,
    fun children => ?_⟩, fun children => ?_⟩
  · obtain ⟨options, Γ, hstmt⟩ := hq.isStatement
    refine ⟨hstmt.exists_fields hp, ?_⟩
    rw [withChildren_eq, if_pos (Or.inr rfl), hstmt.replaceChildren_children hp]
  · refine ⟨Fields.children_of? hfields, fun children => ?_⟩
    rw [withChildren, hfields]
  · have hcases := fields.withChildren_cases children
    rw [← hvariadic]
    split_ifs at hcases with hlen
    · obtain ⟨fields', hrun, hkids⟩ := hcases
      refine ⟨iff_of_true ⟨fields', hrun⟩ hlen, fun other hother => ?_⟩
      cases hrun.symm.trans hother
      exact hkids
    · rw [hcases]
      exact ⟨iff_of_false (fun ⟨_, h⟩ => by cases h) hlen, fun _ h => by cases h⟩
  · rw [withChildren_eq, ← hvariadic]
    split_ifs with hlen
    · refine ⟨iff_of_true ⟨_, rfl⟩ hlen, ?_⟩
      rintro _ ⟨⟩
      unfold kind replaceChildren
      split
      · rename_i hcon
        refine ⟨rfl, fun hne => absurd (by rw [hcon]; rfl) hne, ?_⟩
        rintro _ _ - ⟨⟩
        rfl
      · rename_i hne
        refine ⟨rfl, fun _ => rfl, fun source rest hkind hkids => ?_⟩
        cases hcon : p.construct <;> rw [hcon] at hkind <;> cases hkind
        exact absurd hkids (hne _ _ _ hcon)
    · refine ⟨iff_of_false (fun ⟨_, h⟩ => by cases h) hlen, fun _ h => by cases h⟩

/-! ### Rebuilding every node -/

variable {σ β : Type}

mutual

/-- The plan with every node made anew from its rewritten children and replaced by what the step gives for
it, and whether the steps said that they left their nodes alone. -/
def rewrite (f : Plan → Visit σ Transformed) : Plan → Visit σ (Plan × List Bool)
  | ⟨construct, type, characteristics, position, annotations, children⟩ => do
    let p : Plan := ⟨construct, type, characteristics, position, annotations, children⟩
    let (children', said) ← rewriteAll f children
    let result ← f (← p.rebuild children' false)
    return (result.plan, said ++ [result.isSame])

def rewriteAll (f : Plan → Visit σ Transformed) : List Plan → Visit σ (List Plan × List Bool)
  | [] => return ([], [])
  | p :: ps => do
    let (first, said) ← rewrite f p
    let (rest, said') ← rewriteAll f ps
    return (first :: rest, said ++ said')

end

section Rewrite

variable {f : Plan → Visit σ Transformed}

theorem transformAll_same (f : Plan → Visit σ Transformed) (ps : List Plan) :
    Yields (transformAll f ps) fun res => res.2 = true → res.1 = ps := by
  induction ps with
  | nil =>
    exact .pure fun _ => rfl
  | cons p ps ih =>
    refine .after fun first => ih.bind fun res hres => .pure fun h => ?_
    rw [Bool.and_eq_true] at h
    rw [Transformed.orChild, if_pos h.1, hres h.2]

variable (hf : ∀ p, Yields (f p) fun t => t.isSame = true → t.plan = p)

include hf

theorem transform_same (p : Plan) : Yields (p.transform f) fun t => t.isSame = true → t.plan = p := by
  refine (isWalk_transform f).holds (L := fun _ _ => Yields) (K := fun _ _ => True)
    (R := fun _ p t => t.isSame = true → t.plan = p) (fun _ _ _ => ()) (fun _ => isLogic_yields)
    (fun _ _ => ⟨trivial, id⟩) (fun _ _ => (hf _).imp fun t ht h => ?_) p (i := ()) trivial
  rw [Bool.and_eq_true] at h
  rw [ht h.2, h.1]
  rfl

theorem transform_eq_rewrite {p : Plan} (hp : ∀ node ∈ p.nodes, node.withChildren node.children = .ok node) :
    p.transform f = (fun res => ⟨res.1, res.2.all id⟩) <$> p.rewrite f := by
  induction p using childInduction with
  | step p ih =>
    have hall : ∀ ps, ps ⊆ p.children →
        transformAll f ps = (fun res => (res.1, res.2.all id)) <$> rewriteAll f ps := by
      intro ps hps
      induction ps with
      | nil =>
        rfl
      | cons child ps ihs =>
        obtain ⟨hkid, hrest⟩ := cons_subset.mp hps
        have hplan : transformAll f (child :: ps) = (do
            let first ← child.transform f
            let res ← transformAll f ps
            return (first.plan :: res.1, first.isSame && res.2)) := by
          exact (transform_same hf child).bind_congr fun first hfirst => by rw [orChild_eq hfirst]
        rw [hplan, ihs hrest, ih child hkid fun node hnode =>
          hp node (mem_nodes.mpr (.inr ⟨child, hkid, hnode⟩)), rewriteAll]
        simp only [bind_map_left, map_bind, map_pure, all_append]
    have hnode : p.transform f = (do
        let res ← transformAll f p.children
        let t ← f (← p.rebuild res.1 false)
        return ⟨t.plan, res.2 && t.isSame⟩) := by
      rw [(isWalk_transform f).node]
      refine (transformAll_same f p.children).bind_congr fun res hres => ?_
      have hrebuild : (p.rebuild res.1 res.2 : Visit σ Plan) = p.rebuild res.1 false := by
        cases hsame : res.2 with
        | false => rfl
        | true => rw [hres hsame, rebuild, rebuild, hp p p.self_mem_nodes]; rfl
      rw [finish, hrebuild]
    rw [hnode, hall _ fun _ h => h]
    cases p
    rw [rewrite]
    simp only [bind_map_left, map_bind, map_pure, all_append, all_cons, all_nil, id, Bool.and_true]

end Rewrite

/-! ### Rewriting in scopes -/

/-- An action that does to the rest of its state what another action does, and gives what that gives. -/
def Mirrors {β : Type} (action : Visit (Stack × σ) β) (act : Visit σ β) : Prop :=
  ∀ stack s, ∃ stack', action (stack, s) = ((act s).1, stack', (act s).2)

theorem Mirrors.pure (val : β) : Mirrors (σ := σ) (Pure.pure val) (Pure.pure val) :=
  fun stack _ => ⟨stack, rfl⟩

theorem Mirrors.bind {γ : Type} {action : Visit (Stack × σ) β} {act : Visit σ β}
    {next : β → Visit (Stack × σ) γ} {next' : β → Visit σ γ} (h : Mirrors action act)
    (hnext : ∀ value, Mirrors (next value) (next' value)) : Mirrors (action >>= next) (act >>= next') := by
  intro stack s
  obtain ⟨stack', hrun⟩ := h stack s
  rw [bind_apply, hrun, bind_apply]
  rcases act s with ⟨_ | value, s'⟩
  · exact ⟨stack', rfl⟩
  · exact hnext value stack' s'

theorem mirrors_rebuild (p : Plan) (children : List Plan) (isSame : Bool) :
    Mirrors (σ := σ) (p.rebuild children isSame) (p.rebuild children isSame) := by
  unfold rebuild
  cases isSame with
  | true => exact .pure p
  | false =>
    cases p.withChildren children with
    | ok p => exact .pure p
    | error cause => exact fun stack _ => ⟨stack, rfl⟩

theorem mirrors_transformWithStack (f : Plan → Visit σ Transformed) (p : Plan) :
    Mirrors (p.transformWithStack fun q _ => f q) (p.transform f) := by
  induction p using childInduction with
  | step p ih =>
    have hall : ∀ ps idx, ps ⊆ p.children →
        Mirrors (transformChildrenWithStack (fun q _ => f q) p idx ps) (transformAll f ps) := by
      intro ps
      induction ps with
      | nil =>
        intro idx _
        exact .pure _
      | cons child ps ihs =>
        intro idx hps
        obtain ⟨hkid, hrest⟩ := cons_subset.mp hps
        refine .bind (fun stack s => ?_) fun first => (ihs (idx + 1) hrest).bind fun res => .pure _
        obtain ⟨stack', hrun⟩ := ih child hkid (p.enterChild idx stack).2 s
        exact ⟨(stack'.release (p.enterChild idx stack).1).1, by simp only [tryInChild, hrun]⟩
    rw [(isWalk_transformWithStack _).node, (isWalk_transform f).node]
    exact (hall p.children 0 fun _ h => h).bind fun res => (mirrors_rebuild p _ _).bind fun q =>
      .bind (fun stack s => ⟨stack, rfl⟩) fun t => .pure _

/-- A stack with the symbols, frames and windows of another. -/
structure Restores (s t : Stack) : Prop extends s.Same t where
  frames : t.frames = s.frames

/-- An action that leaves the stack as it was, and whose values are of some kind. -/
def Restoring {β : Type} (action : Visit (Stack × σ) β) (Q : β → Prop) : Prop :=
  ∀ stack s, stack.frames.length = stack.frameCount →
    Restores stack (action (stack, s)).2.1 ∧ ∀ value, (action (stack, s)).1 = .ok value → Q value

theorem isLogic_restoring : IsLogic fun β => Restoring (σ := σ) (β := β) where
  pure h stack s hcount := by
    refine ⟨⟨.refl stack, rfl⟩, ?_⟩
    rintro _ ⟨⟩
    exact h
  bind {β γ act next P Q} h hnext stack s hcount := by
    obtain ⟨hkept, hval⟩ := h stack s hcount
    rw [bind_apply]
    rcases hrun : act (stack, s) with ⟨_ | val, stack', s'⟩ <;> rw [hrun] at hkept hval
    · exact ⟨hkept, fun _ h => by cases h⟩
    · obtain ⟨hkept', hval'⟩ := hnext val (hval val rfl) stack' s'
        (by rw [hkept.frames, hcount, hkept.frameCount])
      exact ⟨⟨hkept.toSame.trans hkept'.toSame, hkept'.frames.trans hkept.frames⟩, hval'⟩

theorem frames_enterChild {s : Stack} (hcount : s.frames.length = s.frameCount) (p : Plan) (idx : Nat) :
    (p.enterChild idx s).2.frames = s.frames ++ [s.depth] := by
  rw [← (Stack.frames_openFrame (by simpa [Stack.frames] using hcount)).1]
  unfold enterChild Stack.frames
  split_ifs
  all_goals
    obtain ⟨-, -, hframes, hmarks⟩ := Stack.pushAll_eq _ (p.childScope idx)
    rw [hframes, hmarks]
    rfl

theorem marks_release (s : Stack) (g : Guard) : (s.release g).1.marks = s.marks := by
  unfold Stack.release
  dsimp only
  repeat' split
  all_goals rfl

theorem Restoring.tryInChild {act : Visit (Stack × σ) β} {Q : β → Prop} (h : Restoring act Q) (p : Plan)
    (idx : Nat) : Restoring (p.tryInChild idx act) Q := by
  intro stack s hcount
  have hentered := frames_enterChild hcount p idx
  have hframes := (p.enterChild_eq idx stack).2.2.2
  obtain ⟨hkept, hval⟩ := h (p.enterChild idx stack).2 s
    (by rw [hentered, hframes, length_append, hcount]; rfl)
  unfold Plan.tryInChild
  rcases hrun : act ((p.enterChild idx stack).2, s) with ⟨res, inner, s'⟩
  rw [hrun] at hkept hval
  have hsame := release_enterChild hkept.toSame
  simp only [hrun]
  refine ⟨⟨hsame, ?_⟩, hval⟩
  have hinner : inner.marks.take (stack.frameCount + 1) = stack.frames ++ [stack.depth] := by
    rw [← hentered, ← hkept.frames, Stack.frames, ← hkept.frameCount, hframes]
  have htake := congrArg (take stack.frameCount) hinner
  rw [take_take, Nat.min_eq_left (Nat.le_succ _), take_left' hcount] at htake
  rw [Stack.frames, marks_release, ← hsame.frameCount, htake]

theorem restoring_transformWithStack (g : Plan → Stack → Visit σ Transformed) (p : Plan) :
    Restoring (p.transformWithStack g) fun _ => True :=
  (isWalk_transformWithStack g).holds (L := fun _ _ => Restoring) (K := fun _ _ => True)
    (R := fun _ _ _ => True) (fun _ _ _ => ()) (fun _ => isLogic_restoring)
    (fun _ _ => ⟨trivial, fun h => h.tryInChild _ _⟩)
    (fun _ _ _ _ _ => ⟨⟨.refl _, rfl⟩, fun _ _ => trivial⟩) p (i := ()) trivial

/-- A transformation whose steps leave their nodes alone if they say so gives the plan with every node made
anew and replaced. It says that it left the plan alone if all steps said so, and then gives the plan itself.
With a stack that the steps do not look at, the outcome is the same. In any case, the symbols, frames and
windows of the stack stay. -/
theorem transform_rewrites {f : Plan → Visit σ Transformed} {p : Plan}
    (hf : ∀ q s t s', f q s = (.ok t, s') → t.isSame = true → t.plan = q)
    (hp : ∀ node ∈ p.nodes, node.withChildren node.children = .ok node) :
    p.transform f = (fun res => ⟨res.1, res.2.all id⟩) <$> p.rewrite f ∧
    (∀ s t s', p.transform f s = (.ok t, s') → t.isSame = true → t.plan = p) ∧
    (∀ stack s, ∃ stack', p.transformWithStack (fun q _ => f q) (stack, s) =
      ((p.transform f s).1, stack', (p.transform f s).2)) ∧
    ∀ (g : Plan → Stack → Visit σ Transformed) stack s, stack.frames.length = stack.frameCount →
      ∃ res stack' s', p.transformWithStack g (stack, s) = (res, stack', s') ∧
        stack'.symbols = stack.symbols ∧ stack'.frames = stack.frames ∧ stack'.windows = stack.windows := by
  refine ⟨transform_eq_rewrite hf hp, transform_same hf p, mirrors_transformWithStack f p, ?_⟩
  intro g stack s hcount
  obtain ⟨hkept, -⟩ := restoring_transformWithStack g p stack s hcount
  exact ⟨_, _, _, rfl, hkept.symbols.symm, hkept.frames, hkept.windows.symm⟩

/-- The second statement of a block is replaced. The first one, a restriction, is left alone. -/
theorem transform_rewrites_block :
    let source := make .tableSelector (some (.rows .table [])) .none []
    let first := make (.restrict { serial := 1, name := "iRestrict", signature := [], returnType := none })
      source.type .none [source, make (.literal (.boolean true)) none .none []]
    let last := make .breakLoop none .none []
    let f : Plan → Visit Unit Transformed := fun q =>
      pure (if q.kind = .noOp then .changed last else .same q)
    let p := make .block none .none [first, .noOp .none]
    p.transform f = (fun res => ⟨res.1, res.2.all id⟩) <$> p.rewrite f ∧
      p.rewrite f () = (.ok (make .block none .none [first, last], [true, true, true, false, true]), ()) := by
  refine ⟨(transform_rewrites ?_ ?_).1, rfl⟩
  · rintro q s _ s' ⟨⟩ hsame
    split_ifs at hsame ⊢
    · cases hsame
    · rfl
  · intro node hnode
    rcases hnode with _ | ⟨_, _ | ⟨_, _ | ⟨_, _ | ⟨_, _ | ⟨_, _ | _⟩⟩⟩⟩⟩ <;> rfl

end Plan

end Relational
