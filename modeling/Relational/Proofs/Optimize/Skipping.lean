import Relational.Proofs.Optimize.Passes

/-!
# Passes that fail and passes that are skipped

A pass that fails leaves the plan alone, as if it were skipped, and one warning takes the place of what it
reported. Passes before it do not notice, and passes after it are given the same plan, so the optimizer ends
with the same plan and the same further messages.
-/

namespace Relational.Optimizer

open List

variable {o : Optimizer} {batch : Batch} {pass : Pass} {passes : List Pass} {batches : List Batch}
  {ids : List PassId} {ms : Messages}

/-- The optimizer with more passes skipped. -/
def skipping (o : Optimizer) (ids : List PassId) : Optimizer :=
  { o with skipped := ids ++ o.skipped }

theorem applyPass_skipping (h : pass.identifier ∉ ids) (p : Plan) :
    (o.skipping ids).applyPass true batch pass p = o.applyPass true batch pass p := by
  have hskip : (o.skipping ids).skipped.contains pass.identifier = o.skipped.contains pass.identifier := by
    simp [skipping, h]
  rw [applyPass, applyPass, hskip]
  rfl

theorem applyPasses_skipping (h : ∀ pass ∈ passes, pass.identifier ∉ ids) (p : Plan) :
    (o.skipping ids).applyPasses true batch passes p = o.applyPasses true batch passes p := by
  induction passes generalizing p with
  | nil => rfl
  | cons pass passes ih =>
    obtain ⟨hpass, hpasses⟩ := forall_mem_cons.mp h
    simp only [applyPasses, applyPass_skipping hpass, ih hpasses]
    rfl

theorem runBatch_skipping (h : ∀ pass ∈ batch.passes, pass.identifier ∉ ids) (remaining : Nat) (p : Plan) :
    (o.skipping ids).runBatch true batch remaining p = o.runBatch true batch remaining p := by
  induction remaining generalizing p with
  | zero => rfl
  | succ remaining ih =>
    simp only [runBatch, applyPasses_skipping h, ih]
    rfl

theorem runBatches_skipping (h : ∀ pass ∈ batches.flatMap Batch.passes, pass.identifier ∉ ids) (p : Plan) :
    (o.skipping ids).runBatches true batches p = o.runBatches true batches p := by
  induction batches generalizing p with
  | nil => rfl
  | cons batch batches ih =>
    rw [flatMap_cons, forall_mem_append] at h
    simp only [runBatches, runBatch_skipping h.1, ih h.2]

theorem runBatch_one (hone : batch.iterations = 1) (p : Plan) :
    o.runBatch true batch batch.iterations p = o.applyPasses true batch batch.passes p := by
  rw [hone, runBatch, hone]
  conv_rhs => rw [← bind_pure (o.applyPasses true batch batch.passes p)]
  refine bind_congr fun first => ?_
  obtain ⟨q, isSame⟩ := first
  cases isSame <;> rfl

/-! ### Passes and batches one after the other -/

theorem applyPasses_append (passes passes' : List Pass) (p : Plan) :
    o.applyPasses true batch (passes ++ passes') p = (do
      let first ← o.applyPasses true batch passes p
      let rest ← o.applyPasses true batch passes' first.plan
      return ⟨rest.plan, first.isSame && rest.isSame⟩) := by
  induction passes generalizing p with
  | nil => exact (bind_pure _).symm
  | cons pass passes ih =>
    simp only [cons_append, applyPasses, ih, bind_assoc]
    refine bind_congr fun first => ?_
    split <;> simp only [bind_assoc, pure_bind, Bool.and_assoc]

theorem runBatches_append (batches batches' : List Batch) (p : Plan) :
    o.runBatches true (batches ++ batches') p = (do
      let first ← o.runBatches true batches p
      let rest ← o.runBatches true batches' first.plan
      return ⟨rest.plan, first.isSame && rest.isSame⟩) := by
  induction batches generalizing p with
  | nil => exact (bind_pure _).symm
  | cons batch batches ih => simp only [cons_append, runBatches, ih, bind_assoc, pure_bind, Bool.and_assoc]

/-! ### The pass that fails -/

/-- The warning that a pass failed on a plan. -/
def passWarning (pass : Pass) (failure : Failure) (p : Plan) : Message :=
  let said : Failure := .cause (.optimizerPass pass.identifier.text failure.message)
  { severity := .warning, code := said.code, failure := said, position := p.position }

theorem Adds.map {α β : Type} {act : Optimizing α} {val : α} (h : Adds act val ms) (f : α → β) :
    Adds (act >>= fun val => Pure.pure (f val)) (f val) ms :=
  append_nil ms ▸ h.bind .pure

theorem adds_run {p : Plan} {t : Transformed} (h : Adds (o.runBatches true o.batches p) t ms) :
    Adds (o.run true p) t ms :=
  show Adds (_ >>= fun _ => o.runBatches true o.batches p) t ([] ++ ms) from
    (Adds.modify (o.messages_log _ _)).bind h

theorem exists_adds_applyPasses (o : Optimizer) (batch : Batch) (passes : List Pass) (p : Plan) :
    ∃ t ms, Adds (o.applyPasses true batch passes p) t ms := by
  obtain ⟨t, ms, hadds, -⟩ := (gives_applyPasses (R := fun _ _ => True) (fun _ => trivial)
    (fun _ _ => trivial) (fun _ _ _ _ _ _ _ _ _ => trivial) p).exists_adds
  exact ⟨t, ms, hadds⟩

theorem exists_adds_runBatches (o : Optimizer) (batches : List Batch) (p : Plan) :
    ∃ t ms, Adds (o.runBatches true batches p) t ms := by
  obtain ⟨t, ms, hadds, -⟩ := (gives_runBatches (R := fun _ _ => True) (fun _ => trivial)
    (fun _ _ => trivial) (fun _ _ _ _ _ _ _ _ _ _ _ => trivial) p).exists_adds
  exact ⟨t, ms, hadds⟩

theorem adds_applyPass {p : Plan} {failure : Failure} {noted : PassState}
    (hskip : pass.identifier ∉ o.skipped) (hout : outcome pass p = (.error failure, noted)) :
    Adds (o.applyPass true batch pass p) (.same p) [passWarning pass failure p] := by
  rw [applyPass, if_neg (by simpa using hskip), hout]
  have hwarn : Adds (do
      modify fun s => { s with messages := s.messages.warn (passWarning pass failure p).failure p.position }
      return .same p : Optimizing Transformed) (.same p) [passWarning pass failure p] :=
    (Adds.modify fun _ => rfl).map _
  exact (Adds.modify (o.messages_log _ _)).bind ((Adds.modify (o.messages_logs _ _)).bind hwarn)

theorem adds_applyPass_skipped (pass : Pass) (p : Plan) :
    Adds ((o.skipping [pass.identifier]).applyPass true batch pass p) (.same p) [] := by
  rw [applyPass, if_pos (by simp [skipping])]
  exact .pure

section Same

variable {p : Plan} {t : Transformed} {ms' : Messages}
  (hpass : Adds (o.applyPass true batch pass p) (.same p) ms)

include hpass

theorem Adds.applyPasses_cons (h : Adds (o.applyPasses true batch passes p) t ms') :
    Adds (o.applyPasses true batch (pass :: passes) p) t (ms ++ ms') := by
  have hrest : Adds (do
      let rest ← o.applyPasses true batch passes p
      return ⟨rest.plan, true && rest.isSame⟩) t ms' := h.map _
  exact hpass.bind hrest

/-- A batch with no other pass leaves the plan alone, so it is not run again. -/
theorem Adds.runBatch_singleton (hbatch : batch.passes = [pass]) (remaining : Nat) :
    Adds (o.runBatch true batch (remaining + 1) p) (.same p) ms := by
  have hrun : Adds (o.applyPasses true batch [pass] p) (.same p) (ms ++ []) := hpass.applyPasses_cons .pure
  rw [runBatch, hbatch, ← append_nil ms, ← append_nil (ms ++ [])]
  exact hrun.bind .pure

end Same

/-- What runs before a pass that leaves the plan alone, and what runs after it, does not depend on what the
pass adds or on whether it is skipped. -/
theorem exists_adds_run {before after : List Batch} {earlier later : List Pass}
    (hbatch : o.batches = before ++ batch :: after) (hpass : batch.passes = earlier ++ pass :: later)
    (honce : batch.iterations = 1 ∨ ∃ n pass, batch.iterations = n + 1 ∧ batch.passes = [pass]) (p : Plan) :
    ∃ given ms, Adds (do
        let first ← o.runBatches true before p
        o.applyPasses true batch earlier first.plan) given ms ∧
      ∃ res rest, ∀ ids added, (∀ other ∈ before.flatMap Batch.passes ++ earlier ++
          (later ++ after.flatMap Batch.passes), other.identifier ∉ ids) →
        Adds ((o.skipping ids).applyPass true batch pass given.plan) (.same given.plan) added →
          Adds ((o.skipping ids).run true p) res (ms ++ (added ++ rest)) := by
  simp only [forall_mem_append]
  obtain ⟨first, ms, hfirst⟩ := o.exists_adds_runBatches before p
  have hrun : ∃ given ms', Adds (o.applyPasses true batch earlier first.plan) given ms' ∧
      ∃ t rest, ∀ ids added, (∀ other ∈ earlier, other.identifier ∉ ids) →
        (∀ other ∈ later, other.identifier ∉ ids) →
        Adds ((o.skipping ids).applyPass true batch pass given.plan) (.same given.plan) added →
          Adds ((o.skipping ids).runBatch true batch batch.iterations first.plan) t
            (ms' ++ (added ++ rest)) := by
    obtain hone | ⟨n, other, hn, hsingle⟩ := honce
    · obtain ⟨given, ms', hgiven⟩ := o.exists_adds_applyPasses batch earlier first.plan
      obtain ⟨t, rest, hrest⟩ := o.exists_adds_applyPasses batch later given.plan
      refine ⟨given, ms', hgiven, ⟨t.plan, given.isSame && t.isSame⟩, rest,
        fun ids added hearlier hlater hadded => ?_⟩
      rw [← applyPasses_skipping hlater] at hrest
      rw [runBatch_one hone, hpass, applyPasses_append, applyPasses_skipping hearlier]
      exact hgiven.bind ((hadded.applyPasses_cons hrest).map _)
    · obtain ⟨rfl, rfl⟩ : earlier = [] ∧ other = pass := by
        rw [hpass, append_eq_singleton_iff] at hsingle
        rcases hsingle with ⟨rfl, ⟨⟩⟩ | ⟨-, ⟨⟩⟩
        exact ⟨rfl, rfl⟩
      refine ⟨.same first.plan, [], .pure, .same first.plan, [], fun ids added _ _ hadded => ?_⟩
      rw [hn, append_nil]
      exact hadded.runBatch_singleton hsingle n
  obtain ⟨given, ms', hgiven, t, rest, hrest⟩ := hrun
  obtain ⟨t', rest', hrest'⟩ := o.exists_adds_runBatches after t.plan
  refine ⟨given, ms ++ ms', hfirst.bind hgiven, ⟨t'.plan, first.isSame && (t.isSame && t'.isSame)⟩,
    rest ++ rest', fun ids added hothers hadded => ?_⟩
  obtain ⟨⟨hbefore, hearlier⟩, hlater, hafter⟩ := hothers
  rw [← runBatches_skipping hafter] at hrest'
  have hbatches : Adds ((o.skipping ids).runBatches true (batch :: after) first.plan)
      ⟨t'.plan, t.isSame && t'.isSame⟩ (ms' ++ (added ++ rest) ++ rest') := by
    exact (hrest ids added hearlier hlater hadded).bind (hrest'.map _)
  have hall : Adds ((o.skipping ids).runBatches true o.batches p)
      ⟨t'.plan, first.isSame && (t.isSame && t'.isSame)⟩ (ms ++ (ms' ++ (added ++ rest) ++ rest')) := by
    rw [hbatch, runBatches_append, runBatches_skipping hbefore]
    exact hfirst.bind (hbatches.map _)
  simp only [append_assoc] at hall ⊢
  exact adds_run hall

/-! ### The usual passes and further ones -/

/-- A batch is run once, unless it has a single pass. -/
theorem iterations_ofPasses {catalog : Option Catalog} {added : List Pass}
    (h : batch ∈ (ofPasses catalog added).batches) :
    batch.iterations = 1 ∨ ∃ n pass, batch.iterations = n + 1 ∧ batch.passes = [pass] := by
  simp only [ofPasses, mem_cons, not_mem_nil, or_false] at h
  obtain rfl | rfl | rfl := h
  · exact .inr ⟨_, _, rfl, rfl⟩
  · exact .inl rfl
  · exact .inl rfl

/-- With a pass that fails on the plan that the passes before it leave, the optimizer gives what it gives
with the identifier of the pass skipped, which no other pass has. Its messages have one more: after those of
the passes before, a warning at the position of this plan takes the place of what the pass reported. -/
theorem run_of_failure {catalog : Option Catalog} {added : List Pass} {o : Optimizer}
    (ho : o.batches = (ofPasses catalog added).batches) {before after : List Batch} {batch : Batch}
    {earlier later : List Pass} {pass : Pass} (hbatch : o.batches = before ++ batch :: after)
    (hpass : batch.passes = earlier ++ pass :: later) (hskip : pass.identifier ∉ o.skipped)
    (hothers : ∀ other ∈ before.flatMap Batch.passes ++ earlier ++ (later ++ after.flatMap Batch.passes),
      other.identifier ≠ pass.identifier)
    (p : Plan) (s : PassState) :
    ∃ given t, (do
        let first ← o.runBatches true before p
        o.applyPasses true batch earlier first.plan : Optimizing Transformed) s = (.ok given, t) ∧
      ∀ failure noted, outcome pass given.plan = (.error failure, noted) →
        ∃ result t₁ t₂ messages, (o.skipping [pass.identifier]).run true p s = (.ok result, t₁) ∧
          t₁.messages = t.messages ++ messages ∧ o.run true p s = (.ok result, t₂) ∧
          t₂.messages = t.messages ++ passWarning pass failure given.plan :: messages := by
  obtain ⟨given, ms, hstart, result, messages, hrest⟩ := exists_adds_run hbatch hpass
    (iterations_ofPasses (ho ▸ hbatch ▸ mem_append_right _ mem_cons_self)) p
  obtain ⟨t, hrun, hms⟩ := hstart s
  refine ⟨given, t, hrun, fun failure noted hout => ?_⟩
  obtain ⟨t₁, hrun₁, hms₁⟩ := hrest _ _ (fun other hother h => hothers other hother (mem_singleton.mp h))
    (adds_applyPass_skipped pass given.plan) s
  obtain ⟨t₂, hrun₂, hms₂⟩ := hrest [] _ (fun _ _ => not_mem_nil) (adds_applyPass hskip hout) s
  rw [← append_assoc, ← hms] at hms₁ hms₂
  exact ⟨result, t₁, t₂, messages, hrun₁, hms₁, hrun₂, hms₂⟩

/-- A further pass that fails on all plans. -/
def failing : Pass :=
  { identifier := .firstAdded, apply := fun _ => throw (.cause (.internal "failed")) }

/-- A further pass that makes a plan into one that does nothing. -/
def emptying (identifier : PassId) : Pass :=
  { identifier, apply := fun p => return some (.changed (.noOp p.position)) }

theorem run_of_failure_failing :
    let o := ofPasses none [failing, emptying ⟨6⟩]
    ∃ result t₁ t₂, (o.skipping [failing.identifier]).run true (.make .block none .none []) {} =
        (.ok result, t₁) ∧
      o.run true (.make .block none .none []) {} = (.ok result, t₂) ∧
      t₂.messages.length = t₁.messages.length + 1 := by
  intro o
  obtain ⟨given, t, -, hfails⟩ := run_of_failure (o := o) rfl
    (show o.batches = [_, _] ++ _ :: [] from rfl) (show _ = [] ++ failing :: [emptying ⟨6⟩] from rfl)
    not_mem_nil (by decide) (.make .block none .none []) {}
  obtain ⟨result, t₁, t₂, messages, hrun₁, hms₁, hrun₂, hms₂⟩ := hfails _ _ rfl
  exact ⟨result, t₁, t₂, hrun₁, hrun₂, by simp [hms₁, hms₂, Nat.add_assoc]⟩

/-- A pass that fails is not as good as a skipped one where there is no session, which takes the warning, nor
where another pass has its identifier and so is skipped with it. -/
theorem exists_failure_ne_skipping : ∃ (p : Plan) (other : Pass),
    ((ofPasses none [failing]).run false p {}).1.toOption.isNone ∧
    (((ofPasses none [failing]).skipping [failing.identifier]).run false p {}).1.toOption.isSome ∧
    other.identifier = failing.identifier ∧
    ((ofPasses none [failing, other]).run true p {}).1.toOption.map (·.plan.kind) ≠
      (((ofPasses none [failing, other]).skipping [failing.identifier]).run true p {}).1.toOption.map
        (·.plan.kind) :=
  ⟨.make .block none .none [], emptying failing.identifier, by decide +kernel, by decide +kernel, rfl,
    by decide +kernel⟩

end Relational.Optimizer
