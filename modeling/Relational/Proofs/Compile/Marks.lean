import Relational.Proofs.Compile.Compositional
import Relational.Proofs.Resolution.Quiet

/-!
# Marks and names

A symbol that is assigned to is marked as modified. Marks make no difference to what a name designates:
in states of a compilation that differ in marks and messages only, a name is resolved to the same symbol
but for its mark, or to the same object. In a quiet workspace it is resolved without effects.
-/

namespace Relational

open Compiling List

/-- A candidate without the mark of its symbol. -/
def Candidate.unmodified (c : Candidate) : Candidate :=
  { c with symbol := c.symbol.unmodified }

/-- The outcome of resolving a name, without the mark of the symbol. -/
def Resolution.unmodified : Resolution → Resolution
  | .found location symbol shadowed => .found location symbol.unmodified shadowed
  | outcome => outcome

namespace Stack

theorem symbolCandidates_unmodified (name : String) (idx : Nat) (sym : Symbol) :
    symbolCandidates name idx sym.unmodified =
      (symbolCandidates name idx sym).map Candidate.unmodified := by
  unfold symbolCandidates
  dsimp only
  rw [map_append, map_filterMap]
  congr 1
  · change (if sym.name ≠ "" ∧ Text.equalFold sym.name name then _ else _) = _
    split <;> rfl
  · refine filterMap_congr fun col _ => ?_
    split <;> rfl

theorem map_candidates (s : Stack) (name : String) : (s.candidates name).map Candidate.unmodified =
      (s.visible.map Symbol.unmodified).zipIdx.flatMap fun (sym, idx) =>
        symbolCandidates name idx sym := by
  rw [candidates, map_flatMap, zipIdx_map, flatMap_map]
  exact flatMap_congr fun entry _ => (symbolCandidates_unmodified name entry.2 entry.1).symm

theorem descriptionsExcept_map (cands : List Candidate) (location : Location) :
    descriptionsExcept (cands.map Candidate.unmodified) location =
      descriptionsExcept cands location := by
  unfold descriptionsExcept
  rw [filter_map, map_map]
  rfl

theorem choose_map (policy : CollisionPolicy) (cands : List Candidate) :
    choose policy (cands.map Candidate.unmodified) = (choose policy cands).unmodified := by
  rcases cands with _ | ⟨first, _ | ⟨second, rest⟩⟩
  · rfl
  · rfl
  · have hdescriptions := descriptionsExcept_map (first :: second :: rest)
    have hexact : ((first :: second :: rest).map Candidate.unmodified).filter (·.isExact) =
        ((first :: second :: rest).filter (·.isExact)).map Candidate.unmodified := filter_map
    have hnames : ((first :: second :: rest).map Candidate.unmodified).map (·.description) =
        (first :: second :: rest).map (·.description) := map_map
    unfold choose
    rw [hexact, hnames]
    generalize (first :: second :: rest).filter (·.isExact) = exact
    rcases exact with _ | ⟨c, _ | ⟨c', more⟩⟩
    · rfl
    · exact congrArg _ (hdescriptions _)
    · cases policy with
      | ambiguous => rfl
      | preferExact => exact congrArg _ (hdescriptions _)

end Stack

variable {b b' : Builder} {e : Environment} {w : Workspace}

theorem Builder.Like.resolve_eq (h : b.Like b') (name : String) :
    (b'.stack.resolve name).unmodified = (b.stack.resolve name).unmodified := by
  unfold Stack.resolve
  rw [← Stack.choose_map, ← Stack.choose_map, Stack.map_candidates, Stack.map_candidates,
    h.alike.visible, h.policy]

/-- What a name designates among the symbols. -/
def Resolution.outcome (name : String) : Resolution → Except Abort (Option ResolvedName)
  | .missing => .ok none
  | .ambiguous candidates => .error (.ofCause (.ambiguousIdentifier name candidates))
  | .found location symbol shadowed => .ok (some (.symbol location symbol shadowed))

theorem Resolution.outcome_unmodified (name : String) (r : Resolution) :
    r.unmodified.outcome name = (r.outcome name).map (Option.map ResolvedName.unmodified) := by
  cases r <;> rfl

/-- The symbol of a name, where symbols are looked for. -/
def Stack.designated (s : Stack) (binding : Binding) (name : String) :
    Except Abort (Option ResolvedName) :=
  if binding = .objects then .ok none else (s.resolve name).outcome name

theorem findSymbol_apply (s : Stack) (binding : Binding) (name : String) (w : Workspace) :
    findSymbol (some s) binding name w = (s.designated binding name, w) := by
  cases binding with
  | objects => rfl
  | all | symbols =>
    unfold findSymbol Stack.designated
    dsimp only
    cases s.resolve name <;> rfl

/-- What a name designates besides symbols, where other things are looked for. -/
def Workspace.designated (w : Workspace) (options : ResolutionOptions) (scope : PlanScope)
    (binding : Binding) (name : String) : Except Abort (Option ResolvedName) :=
  if binding = .symbols then .ok none
  else (findObject options scope name w).1.map (Option.map ResolvedName.object)

theorem resolve_of_eq {α : Type} {act : Resolving α} {res : Except Abort α} (h : act b.workspace = (res, w)) :
    (MonadResolving.resolve act : Compiling α) b = (res, { b with workspace := w }) := by
  change ((act b.workspace).1, { b with workspace := (act b.workspace).2 }) = _
  rw [h]

theorem resolve_apply {α : Type} {act : Resolving α} {res : Except Abort α}
    (h : act b.workspace = (res, b.workspace)) : (MonadResolving.resolve act : Compiling α) b = (res, b) :=
  resolve_of_eq h

/-- Nothing is compiled again where no body was put off. -/
theorem overloadFor_apply {name : String} {args : List Plan}
    {out : Except Abort OverloadMatch} (hselect : selectOperator e.options.resolution b.scope name
      (args.map fun p => { type := p.type }) false b.workspace = (out, w))
    (hcompiled : ∀ found, out = .ok found → (w.operatorState found.operator).isDeferred = false) :
    overloadFor e name args b = (out, { b with workspace := w }) := by
  rw [overloadFor, get_bind_apply, resolveOperator, bind_apply, resolve_of_eq hselect]
  cases out with
  | error abort => rfl
  | ok found =>
    have hdeferred : (MonadResolving.resolve (isDeferred found.operator) : Compiling Bool)
        { b with workspace := w } = (.ok false, { b with workspace := w }) := by
      rw [← hcompiled found rfl]
      rfl
    dsimp only
    rw [bind_apply, hdeferred]
    rfl

/-- What a name designates besides symbols, with its effects. -/
def resolveObject (options : ResolutionOptions) (scope : PlanScope) (infer : TableVar → Compiling Unit)
    (name : String) : Compiling (Option ResolvedName) := do
  match ← MonadResolving.resolve (findObject options scope name) with
  | none => return none
  | some object => return some (.object (← bindObject infer object))

section Names

variable {opts : ResolutionOptions} (hquiet : b.workspace.IsQuiet) (hdev : opts.device = "")
  (infer : TableVar → Compiling Unit) (name : String)

include hquiet

theorem bindObject_apply {obj : CatalogObject} (h : staleTableVar? obj = none) :
    bindObject infer obj b = (.ok obj, b) := by
  unfold bindObject
  rw [h]
  exact resolve_apply (Workspace.copyObject_outside hquiet.inactive obj)

include hdev

theorem resolveObject_apply (scope : PlanScope) : resolveObject opts scope infer name b =
    ((findObject opts scope name b.workspace).1.map (Option.map ResolvedName.object), b) := by
  have hfind := Workspace.still_findObject hdev scope name _ hquiet
  unfold resolveObject
  rw [bind_apply, resolve_apply hfind.apply_eq]
  cases hfound : (findObject opts scope name b.workspace).1 with
  | error abort => rfl
  | ok found =>
    cases found with
    | none => rfl
    | some obj =>
      dsimp only
      rw [bind_apply, bindObject_apply hquiet infer (hfind.value _ hfound obj rfl)]
      rfl

theorem resolveName_apply (binding : Binding) :
    resolveName opts b.scope (some b.stack) infer binding name b =
      ((b.stack.designated binding name).bind fun found =>
        found.elim (b.workspace.designated opts b.scope binding name) fun found =>
          .ok (some found), b) := by
  have hsym : (MonadResolving.resolve (findSymbol (some b.stack) binding name) :
      Compiling (Option ResolvedName)) b = (b.stack.designated binding name, b) :=
    resolve_apply (findSymbol_apply b.stack binding name b.workspace)
  unfold resolveName
  rw [bind_apply, hsym]
  cases b.stack.designated binding name with
  | error abort => rfl
  | ok found =>
    cases found with
    | some found => rfl
    | none =>
      cases binding with
      | symbols => rfl
      | all | objects => exact resolveObject_apply hquiet hdev infer name b.scope

omit hquiet hdev in
theorem Builder.Like.designated_eq (h : b.Like b') (binding : Binding) :
    (b'.stack.designated binding name).map (Option.map ResolvedName.unmodified) =
      (b.stack.designated binding name).map (Option.map ResolvedName.unmodified) := by
  unfold Stack.designated
  split
  · rfl
  · rw [← Resolution.outcome_unmodified, ← Resolution.outcome_unmodified, h.resolve_eq]

end Names

theorem lookUp_like (h : b.Like b') (hquiet : b.workspace.IsQuiet)
    (hdev : e.options.resolution.device = "") (binding : Binding) (pos : Position) (name : String) :
    (∃ abort, lookUp e binding pos name b = (.error abort, b) ∧
      lookUp e binding pos name b' = (.error abort, b')) ∨
    ∃ found found', lookUp e binding pos name b = (.ok found, b) ∧
      lookUp e binding pos name b' = (.ok found', b') ∧
        found'.map ResolvedName.unmodified = found.map ResolvedName.unmodified := by
  have hrun := resolveName_apply hquiet hdev e.infer name binding
  have hrun' := resolveName_apply (h.workspace ▸ hquiet) hdev e.infer name binding
  have hsyms := h.designated_eq name binding
  have hscope : b'.scope = b.scope := congrArg Setting.scope h.setting
  rw [h.workspace, hscope] at hrun'
  change (∃ abort, at_ pos _ b = _ ∧ at_ pos _ b' = _) ∨
    ∃ found found', at_ pos _ b = _ ∧ at_ pos _ b' = _ ∧ _
  unfold at_
  rw [hrun, hscope, hrun']
  generalize b.workspace.designated e.options.resolution b.scope binding name = objs
  generalize b.stack.designated binding name = syms at hsyms
  generalize b'.stack.designated binding name = syms' at hsyms
  rcases syms with abort | _ | found
  · rcases syms' with abort' | found'
    · cases hsyms
      exact .inl ⟨_, rfl, rfl⟩
    · cases hsyms
  · rcases syms' with abort' | _ | found'
    · cases hsyms
    · -- No symbol has the name in either state, so the objects decide.
      cases objs with
      | error abort => exact .inl ⟨_, rfl, rfl⟩
      | ok obj => exact .inr ⟨_, _, rfl, rfl, rfl⟩
    · cases hsyms
  · rcases syms' with abort' | _ | found'
    · cases hsyms
    · cases hsyms
    · exact .inr ⟨_, _, rfl, rfl, Except.ok.inj hsyms⟩

end Relational
