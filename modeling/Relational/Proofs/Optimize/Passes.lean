import Relational.Optimize.Optimizer
import Relational.Proofs.Optimize.Congruence
import Relational.Proofs.Optimize.Restriction

/-!
# What the passes of the optimizer do

One step of the pass that moves restrictions leaves its node alone, drops a restriction that always holds,
or moves a restriction below one of the operands of its source. All other passes only annotate nodes. A
relation that is kept by such steps and inherited by nodes from their children is therefore kept by every
run of the optimizer, whatever passes are skipped and whichever of them fail.
-/

namespace Relational

/-- The number of children of a construct that a restriction may move below. -/
def Construct.operands : Construct → Nat
  | project .. | rename .. | extend .. => 1
  | join .. => 2
  | _ => 0

/-- One step of moving restrictions: a restriction that always holds is dropped, or a restriction with a
deterministic condition moves below an operand of its source. -/
inductive Normalizes (p : Plan) : Plan → Prop
  | drop {op source condition} (hconstruct : p.construct = .restrict op)
      (hchildren : p.children = [source, condition]) (htrue : isLiteralTrue condition) :
      Normalizes p source
  | push {op source condition child condition' index heading childHeading rename}
      (hconstruct : p.construct = .restrict op) (hchildren : p.children = [source, condition])
      (hdeterministic : condition.characteristics.isDeterministic)
      (hindex : index < source.construct.operands) (hchild : source.children[index]? = some child)
      (hrebase : condition.rebase heading childHeading rename = .ok condition') :
      Normalizes p (source.replaceChildren (source.children.set index
        (.make (.restrict op) child.type p.position [child, condition'])))

/-- A node with other annotations, and with the type of its source if it is a restriction. -/
structure Plan.Annotated (p q : Plan) : Prop where
  construct : q.construct = p.construct
  characteristics : q.characteristics = p.characteristics
  children : q.children = p.children

variable {p src cond : Plan} {op : Operator} {R : Plan → Plan → Prop} {catalog : Option Catalog}

/-! ### Moving restrictions -/

section Restriction

variable (h : p.IsRestriction op src cond) (hdet : cond.characteristics.isDeterministic)
include h hdet

theorem pushRestriction_yields :
    Yields (pushRestriction p op src cond) fun res => ∀ q ∈ res, Normalizes p q := by
  intro s res s' hrun
  have hattempt := Plan.Attempt.pushRestriction p op src cond s
  rw [hrun] at hattempt
  cases hattempt with
  | stays => simp
  | moves _ hthrough hkid _ hrebase =>
    rintro _ ⟨⟩
    refine .push h.construct h.children hdet ?_ hkid hrebase
    generalize src.construct = con at hthrough
    cases hthrough <;> simp [Construct.operands]

end Restriction

theorem normalizeNode_yields (p : Plan) : Yields (normalizeNode p) fun res =>
    res = .same p ∨ res.isSame = false ∧ Normalizes p res.plan := by
  unfold normalizeNode
  split
  · rename_i op src cond hcon hkids
    by_cases htrue : isLiteralTrue cond
    · rw [if_pos htrue]
      exact .after fun _ => .after fun _ => .pure (.inr ⟨rfl, .drop hcon hkids htrue⟩)
    · rw [if_neg htrue]
      by_cases hdet : cond.characteristics.isDeterministic
      · simp only [hdet, Bool.not_true, Bool.false_eq_true, if_false]
        refine (pushRestriction_yields ⟨hcon, hkids⟩ hdet).bind ?_
        rintro (_ | pushed) hpushed
        · exact .pure (.inl rfl)
        · exact .after fun _ => .pure (.inr ⟨rfl, hpushed pushed rfl⟩)
      · simp only [hdet, Bool.not_false, if_true]
        exact .pure (.inl rfl)
  · exact .pure (.inl rfl)

/-- What a congruence keeps of references that address columns of another row, it keeps of plans that are
moved to another row. -/
theorem Plan.rebase_related (hR : IsCongruence R) (hcol : ∀ p name idx col name' idx' col' type pos,
      p.construct = .stackColumnReference name idx col →
        R p (make (.stackColumnReference name' idx' col') type pos []))
    {src tgt : Heading} {rename : String → String} {q : Plan}
    (h : p.rebase src tgt rename = .ok q) : R p q := by
  have hmoved : ∀ p name idx col result, p.construct = .stackColumnReference name idx col →
      rebaseColumn src.columns tgt.columns rename p name idx col = .ok result →
        R p result.plan := by
    intro p name idx col result hcon hres
    unfold rebaseColumn at hres
    split at hres
    · cases hres
    · split at hres
      · split_ifs at hres <;> cases hres
        · exact hR.refl p
        · exact hcol p _ _ _ _ _ _ _ _ hcon
      · cases hres
  have hstep : ∀ p stack, Yields (rebaseNode src.columns tgt.columns rename p stack)
      fun result => R p result.plan := by
    intro p stack
    have hsame : Yields (pure (.same p) : Visit (Option RebaseIssue) Transformed)
        fun result => R p result.plan := .pure (hR.refl p)
    refine .after fun issue => ?_
    split
    · exact hsame
    · split
      · rename_i name idx col hcon
        split
        · cases hres : rebaseColumn src.columns tgt.columns rename p name idx col with
          | ok result => exact .pure (hmoved p name idx col result hcon hres)
          | error issue => exact .after fun _ => hsame
        · exact hsame
      · split
        · exact .after fun _ => hsame
        · exact hsame
      · exact hsame
  unfold rebase at h
  rcases hrun : transformWithStack (rebaseNode src.columns tgt.columns rename) p
    (rowStack src, none) with ⟨_ | result, stack, _ | issue⟩ <;> rw [hrun] at h
  · cases h
  · cases h
  · cases h
    exact transformWithStack_yields hR hstep p _ result _ hrun
  · cases h

/-! ### Annotations -/

theorem Plan.annotated_annotate (p : Plan) (change : Annotations → Annotations) :
    p.Annotated (p.annotate change) :=
  ⟨p.construct_replaceChildren _, p.characteristics_replaceChildren _, p.children_replaceChildren _⟩

section Steps

variable (hrefl : ∀ p, R p p)
include hrefl

theorem determinePotentialDevice_yields
    (hchange : ∀ p devices, R p (Plan.annotate p fun a => { a with potentialDevices := devices }))
    (p : Plan) : Yields (determinePotentialDevice p) fun res => R p res.plan := by
  unfold determinePotentialDevice
  dsimp only
  split
  · exact .pure (hrefl p)
  · exact .pure (hchange p _)

theorem determineDevice_yields (hchange : ∀ p device isSupported,
      R p (Plan.annotate p fun a => { a with device, isSupported })) (catalog : Option Catalog) (p : Plan) :
    Yields (determineDevice catalog p) fun res => R p res.plan := by
  unfold determineDevice
  split
  · split
    · exact .throw
    · dsimp only
      split
      · exact .pure (hrefl p)
      · exact .pure (hchange p _ _)
  · exact .pure (hrefl p)

theorem determineAccessPath_yields
    (hchange : ∀ p path, R p (Plan.annotate p fun a => { a with accessPath := path })) (p : Plan) :
    Yields (determineAccessPath p) fun res => R p res.plan := by
  unfold determineAccessPath
  split
  · exact .pure (hrefl p)
  · refine .after fun path => ?_
    cases path with
    | unknown => exact .pure (hrefl p)
    | scan | filter | keyLookup => exact .after fun _ => .pure (hchange p _)

end Steps

theorem forall₂_modify {f : Plan → Plan} (hrefl : ∀ p, R p p) (hf : ∀ p, R p (f p)) (ps : List Plan)
    (idx : Nat) : List.Forall₂ R ps (ps.modify idx f) := by
  induction ps generalizing idx with
  | nil => simp
  | cons p ps ih =>
    cases idx with
    | zero => simpa using ⟨hf p, fun q _ => hrefl q⟩
    | succ idx => simpa using ⟨hrefl p, ih idx⟩

theorem prepareNode_yields (hR : Plan.IsCongruence R)
    (hlookup : ∀ p, R p (Plan.annotate p fun a => { a with isLookup := true }))
    (hjoin : ∀ p : Plan, R p { p with annotations := { p.annotations with isTransactionJoin := true } })
    (p : Plan) : Yields (prepareNode p) fun res => R p res.plan := by
  have hsame : Yields (pure (.same p) : Passing Transformed) fun res => R p res.plan :=
    .pure (hR.refl p)
  unfold prepareNode
  split
  · split
    · exact hsame
    · split
      · exact hsame
      · rename_i side _
        refine (Plan.rebuild_yields false).bind fun marked hmarked => .after fun _ => .pure ?_
        have hkids := forall₂_modify hR.refl hlookup p.children side
        rw [hmarked]
        exact hR.trans (hR.replaceChildren hkids) (hjoin _)
  · exact hsame

/-! ### Passes and their runs -/

namespace Optimizer

/-- What the steps keep, every pass keeps. -/
theorem pass_yields (hR : Plan.IsCongruence R) (hnormalizes : ∀ p q, Normalizes p q → R p q)
    (hannotated : ∀ p q : Plan, p.Annotated q → R p q) (catalog : Option Catalog)
    (identifier : PassId) (p : Plan) :
    Yields ((pass catalog identifier).apply p) fun res => ∀ t ∈ res, R p t.plan := by
  have hsteps : ∀ {f : Plan → Passing Transformed}, (∀ p, Yields (f p) fun res => R p res.plan) →
        Yields (some <$> p.transform f) fun res => ∀ t ∈ res, R p t.plan := by
    intro f hf
    refine .map (((Plan.isWalk_transform _).yields hR id hf p).imp fun res hres => ?_)
    rintro _ ⟨⟩
    exact hres
  have hannotate : ∀ p change, R p (Plan.annotate p change) :=
    fun p change => hannotated p _ (p.annotated_annotate change)
  dsimp only [pass]
  split
  · refine hsteps fun p => (normalizeNode_yields p).imp ?_
    rintro t (rfl | ⟨-, ht⟩)
    · exact hR.refl p
    · exact hnormalizes p _ ht
  · exact hsteps (prepareNode_yields hR (fun p => hannotate p _) fun p => hannotated p _ ⟨rfl, rfl, rfl⟩)
  · exact hsteps (determinePotentialDevice_yields hR.refl fun p _ => hannotate p _)
  · exact hsteps (determineDevice_yields hR.refl (fun p _ _ => hannotate p _) catalog)
  · exact hsteps (determineAccessPath_yields hR.refl fun p _ => hannotate p _)
  · refine .map (.pure ?_)
    rintro _ ⟨⟩
    exact hR.refl p

/-- A computation that gives a value and adds messages, whatever there is before. -/
def Adds {α : Type} (action : Optimizing α) (value : α) (messages : Messages) : Prop :=
  ∀ s, ∃ s', action s = (.ok value, s') ∧ s'.messages = s.messages ++ messages

/-- A computation that gives a value with a property, and never fails if there is a session. -/
def Gives {α : Type} (hasSession : Bool) (action : Optimizing α) (Q : α → Prop) : Prop :=
  (∃ value messages, Adds action value messages ∧ Q value) ∨
    hasSession = false ∧ ∀ s, ∃ failure s', action s = (.error failure, s')

section Gives

variable {α β : Type} {hasSession : Bool} {act : Optimizing α} {next : α → Optimizing β}
  {P : α → Prop} {Q : β → Prop} {val : α} {val' : β} {ms ms' : Messages} {change : PassState → PassState}

theorem Adds.pure : Adds (Pure.pure val) val [] :=
  fun s => ⟨s, rfl, (List.append_nil _).symm⟩

theorem Adds.modify (h : ∀ s, (change s).messages = s.messages ++ ms) : Adds (modify change) ⟨⟩ ms :=
  fun s => ⟨change s, rfl, h s⟩

theorem Adds.bind (h : Adds act val ms) (hnext : Adds (next val) val' ms') :
    Adds (act >>= next) val' (ms ++ ms') := by
  intro s
  obtain ⟨t, hrun, hms⟩ := h s
  obtain ⟨s', hrun', hms'⟩ := hnext t
  exact ⟨s', by rw [bind_apply, hrun]; exact hrun', by rw [hms', hms, List.append_assoc]⟩

namespace Gives

theorem pure (h : P val) : Gives hasSession (Pure.pure val) P :=
  .inl ⟨val, [], .pure, h⟩

theorem bind (h : Gives hasSession act P)
    (hnext : ∀ val, P val → Gives hasSession (next val) Q) : Gives hasSession (act >>= next) Q := by
  obtain ⟨val, ms, hadds, hval⟩ | ⟨hsess, hfails⟩ := h
  · obtain ⟨val', ms', hadds', hval'⟩ | ⟨hsess, hfails⟩ := hnext val hval
    · exact .inl ⟨val', _, hadds.bind hadds', hval'⟩
    · refine .inr ⟨hsess, fun s => ?_⟩
      obtain ⟨t, hrun, -⟩ := hadds s
      rw [bind_apply, hrun]
      exact hfails t
  · refine .inr ⟨hsess, fun s => ?_⟩
    obtain ⟨fail, t, hrun⟩ := hfails s
    exact ⟨fail, t, by rw [bind_apply, hrun]⟩

theorem modify_bind {next : PUnit → Optimizing β} (hchange : ∀ s, (change s).messages = s.messages ++ ms)
    (h : Gives hasSession (next ⟨⟩) Q) : Gives hasSession (modify change >>= next) Q :=
  bind (P := fun _ => True) (.inl ⟨⟨⟩, ms, .modify hchange, trivial⟩) fun _ _ => h

theorem yields (h : Gives hasSession act P) : Yields act P := by
  intro s val s' hrun
  obtain ⟨_, _, hadds, hval⟩ | ⟨-, hfails⟩ := h
  · obtain ⟨_, hgiven, -⟩ := hadds s
    cases hgiven.symm.trans hrun
    exact hval
  · obtain ⟨_, _, hfailed⟩ := hfails s
    cases hfailed.symm.trans hrun

theorem exists_adds (h : Gives true act P) : ∃ val ms, Adds act val ms ∧ P val :=
  h.resolve_right fun h => Bool.noConfusion h.1

theorem exists_of_session (h : Gives true act P) (s : PassState) :
    ∃ val s', act s = (.ok val, s') ∧ P val := by
  obtain ⟨val, ms, hadds, hval⟩ := h.exists_adds
  obtain ⟨s', hrun, -⟩ := hadds s
  exact ⟨val, s', hrun, hval⟩

end Gives

end Gives

section Run

variable {o : Optimizer} {batch : Batch} {hasSession : Bool}

theorem messages_log (o : Optimizer) (batch : Option Batch) (line : String) (s : PassState) :
    (o.log batch line s).messages = s.messages ++ [] := by
  rw [List.append_nil]
  unfold log
  cases o.isDebugging <;> rfl

theorem messages_logs (o : Optimizer) (batch : Option Batch) (lines : List String) (s : PassState) :
    (lines.foldl (fun s line => o.log batch line s) s).messages = s.messages ++ [] := by
  induction lines generalizing s with
  | nil => exact (List.append_nil _).symm
  | cons line lines ih => rw [List.foldl_cons, ih, messages_log, List.append_nil]

theorem gives_applyPass {pass : Pass} {Q : Transformed → Prop} (hsame : Q (.same p))
    (hpass : Yields (pass.apply p) fun result => ∀ t ∈ result, Q t) :
    Gives hasSession (o.applyPass hasSession batch pass p) Q := by
  have hout : ∀ result s, outcome pass p = (.ok result, s) → Q result := by
    intro result s hout
    unfold outcome at hout
    rcases happly : pass.apply p {} with ⟨_ | _ | given, t⟩ <;> rw [happly] at hout <;>
      cases hout
    exact hpass {} _ _ happly result rfl
  unfold applyPass
  split
  · exact .pure hsame
  · refine .modify_bind (o.messages_log _ _) ?_
    rcases hres : outcome pass p with ⟨_ | result, noted⟩
    · refine .modify_bind (o.messages_logs _ _) ?_
      cases hasSession with
      | true => exact .modify_bind (fun _ => rfl) (.pure hsame)
      | false => exact .inr ⟨rfl, fun s => ⟨_, _, rfl⟩⟩
    · exact .modify_bind (o.messages_logs _ _) (.modify_bind (fun _ => rfl)
        (.pure (hout result noted hres)))

variable (hrefl : ∀ p, R p p) (htrans : ∀ {p q r}, R p q → R q r → R p r)
include hrefl htrans

theorem gives_applyPasses {passes : List Pass}
    (h : ∀ pass ∈ passes, ∀ p, Yields (pass.apply p) fun res => ∀ t ∈ res, R p t.plan) (p : Plan) :
    Gives hasSession (o.applyPasses hasSession batch passes p) fun res => R p res.plan := by
  induction passes generalizing p with
  | nil => exact .pure (hrefl p)
  | cons pass passes ih =>
    obtain ⟨hpass, hpasses⟩ := List.forall_mem_cons.mp h
    refine (gives_applyPass (hrefl p) (hpass p)).bind fun first hfirst => ?_
    have hrest : Gives hasSession (do
        let rest ← o.applyPasses hasSession batch passes first.plan
        return ⟨rest.plan, first.isSame && rest.isSame⟩ : Optimizing Transformed)
          fun res => R p res.plan :=
      (ih hpasses first.plan).bind fun rest hrest => .pure (htrans hfirst hrest)
    split
    · exact .modify_bind (o.messages_log _ _) hrest
    · exact hrest

theorem gives_runBatch
    (h : ∀ pass ∈ batch.passes, ∀ p, Yields (pass.apply p) fun res => ∀ t ∈ res, R p t.plan)
    (remaining : Nat) (p : Plan) :
    Gives hasSession (o.runBatch hasSession batch remaining p) fun res => R p res.plan := by
  induction remaining generalizing p with
  | zero => exact .pure (hrefl p)
  | succ remaining ih =>
    refine (gives_applyPasses hrefl htrans h p).bind fun first hfirst => ?_
    have hrest : Gives hasSession (do
        let rest ← o.runBatch hasSession batch remaining first.plan
        return ⟨rest.plan, false⟩ : Optimizing Transformed) fun res => R p res.plan :=
      (ih first.plan).bind fun rest hrest => .pure (htrans hfirst hrest)
    split
    · exact .pure hfirst
    · split
      · exact .modify_bind (o.messages_log _ _) hrest
      · exact hrest

theorem gives_runBatches {batches : List Batch} (h : ∀ batch ∈ batches, ∀ pass ∈ batch.passes,
      ∀ p, Yields (pass.apply p) fun res => ∀ t ∈ res, R p t.plan) (p : Plan) :
    Gives hasSession (o.runBatches hasSession batches p) fun res => R p res.plan := by
  induction batches generalizing p with
  | nil => exact .pure (hrefl p)
  | cons batch batches ih =>
    obtain ⟨hbatch, hbatches⟩ := List.forall_mem_cons.mp h
    refine (gives_runBatch hrefl htrans hbatch batch.iterations p).bind fun first hfirst => ?_
    exact (ih hbatches first.plan).bind fun rest hrest => .pure (htrans hfirst hrest)

/-- What the passes keep, the optimizer keeps. In a session it never fails. -/
theorem gives_run (h : ∀ batch ∈ o.batches, ∀ pass ∈ batch.passes,
      ∀ p, Yields (pass.apply p) fun res => ∀ t ∈ res, R p t.plan) (p : Plan) :
    Gives hasSession (o.run hasSession p) fun res => R p res.plan :=
  .modify_bind (o.messages_log _ _) (gives_runBatches hrefl htrans h p)

end Run

theorem exists_run_eq (o : Optimizer) (p : Plan) (s : PassState) :
    ∃ res s', o.run true p s = (.ok res, s') := by
  obtain ⟨res, s', hrun, -⟩ := (gives_run (o := o) (R := fun _ _ => True) (fun _ => trivial)
    (fun _ _ => trivial) (fun _ _ _ _ _ _ _ _ _ _ _ => trivial) p).exists_of_session s
  exact ⟨res, s', hrun⟩

theorem exists_eq_pass {batch : Batch} {pass : Pass} (hbatch : batch ∈ (ofPasses catalog []).batches)
    (hpass : pass ∈ batch.passes) : ∃ identifier, pass = Optimizer.pass catalog identifier := by
  simp only [ofPasses, List.mem_cons, List.not_mem_nil, or_false] at hbatch
  obtain rfl | rfl | rfl := hbatch
  · exact ⟨.normalizeRestrictions, by simpa using hpass⟩
  · obtain ⟨identifier, -, rfl⟩ := List.mem_map.mp hpass
    exact ⟨identifier, rfl⟩
  · simp at hpass

end Optimizer

/-! ### Relations that do not look at types -/

/-- A relation between plans that does not look at types, positions and annotations and is kept by what
the passes do: by references that address other columns, by dropping a restriction that always holds, and
by moving a restriction below an operand of its source. -/
structure Plan.IsKept (R : Plan → Plan → Prop) : Prop where
  refl : ∀ p, R p p
  trans : ∀ {p q r}, R p q → R q r → R p r
  node : ∀ {p q}, q.construct = p.construct → q.characteristics = p.characteristics →
    List.Forall₂ R p.children q.children → R p q
  column : ∀ p name index column name' index' column' type position,
    p.construct = .stackColumnReference name index column →
      R p (.make (.stackColumnReference name' index' column') type position [])
  drop : ∀ {p source condition : Plan} {op}, p.construct = .restrict op →
    p.children = [source, condition] → isLiteralTrue condition → R p source
  push : ∀ {p source condition child condition' : Plan} {op index}, p.construct = .restrict op →
    p.children = [source, condition] → condition.characteristics.isDeterministic →
    index < source.construct.operands → source.children[index]? = some child →
    R condition condition' → R p (source.replaceChildren (source.children.set index
      (.make (.restrict op) child.type p.position [child, condition'])))

namespace Plan.IsKept

theorem isCongruence (h : IsKept R) : IsCongruence R where
  refl := h.refl
  trans := h.trans
  replaceChildren {p children} hkids :=
    h.node (p.construct_replaceChildren _) (p.characteristics_replaceChildren _)
      (by rwa [children_replaceChildren])

theorem annotated (h : IsKept R) {q : Plan} (hq : p.Annotated q) : R p q :=
  h.node hq.construct hq.characteristics (hq.children ▸ List.forall₂_same.mpr fun child _ => h.refl child)

theorem normalizes (h : IsKept R) {q : Plan} (hq : Normalizes p q) : R p q := by
  cases hq with
  | drop hcon hkids htrue => exact h.drop hcon hkids htrue
  | push hcon hkids hdet hidx hkid hrebase =>
    exact h.push hcon hkids hdet hidx hkid (rebase_related h.isCongruence h.column hrebase)

/-- What the steps of the passes keep, every run of the usual passes keeps. -/
theorem run_yields (h : IsKept R) {o : Optimizer}
    (ho : o.batches = (Optimizer.ofPasses catalog []).batches) (hasSession : Bool) (p : Plan) :
    Yields (o.run hasSession p) fun res => R p res.plan := by
  refine (Optimizer.gives_run h.refl h.trans (fun batch hbatch pass hpass => ?_) p).yields
  obtain ⟨identifier, rfl⟩ := Optimizer.exists_eq_pass (ho ▸ hbatch) hpass
  exact Optimizer.pass_yields h.isCongruence (fun _ _ => h.normalizes) (fun _ _ => h.annotated) catalog
    identifier

end Plan.IsKept

end Relational
