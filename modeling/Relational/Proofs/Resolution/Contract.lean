import Relational.Proofs.Catalog.Conversions
import Relational.Resolution.Name
import Relational.Resolution.Operator

/-!
# Contracts of resolutions

A resolution may change the workspace: table variables are copied into transactions or taken over from a
device, and outcomes are remembered. It may fail, with a cause that says what is not there or not unique.
What resolutions keep to follows step by step from what these single changes keep to.
-/

namespace Relational

open List

variable {ε σ α : Type}

theorem bind_apply {β : Type} (act : ExceptT ε (StateM σ) α) (next : α → ExceptT ε (StateM σ) β)
    (s : σ) : (act >>= next) s = match act s with
      | (.ok val, s') => next val s'
      | (.error error, s') => (.error error, s') := by
  rcases h : act s with ⟨_ | _, s'⟩
  · simp only [bind, ExceptT.bind, ExceptT.mk, StateT.bind, h, ExceptT.bindCont]
    rfl
  · simp only [bind, ExceptT.bind, ExceptT.mk, StateT.bind, h, ExceptT.bindCont]

theorem exists_of_bind_ok {β : Type} {act : ExceptT ε (StateM σ) α} {next : α → ExceptT ε (StateM σ) β}
    {val : β} {s s' : σ} (h : (act >>= next) s = (.ok val, s')) :
    ∃ first s₁, act s = (.ok first, s₁) ∧ next first s₁ = (.ok val, s') := by
  rw [bind_apply] at h
  rcases hfirst : act s with ⟨error | first, s₁⟩
  · rw [hfirst] at h
    cases h
  · rw [hfirst] at h
    exact ⟨first, s₁, rfl, h⟩

theorem get_bind_apply (next : σ → ExceptT ε (StateM σ) α) (s : σ) :
    ((get : ExceptT ε (StateM σ) σ) >>= next) s = next s s := by
  rfl

theorem Workspace.withoutCaches_apply (w : Workspace) (change : Change α) :
    (w.apply change).withoutCaches = { w.withoutCaches with catalog := change.catalog } := by
  rw [apply_eq]
  rfl

theorem Workspace.isReconciling_apply (w : Workspace) (change : Change α) :
    (w.apply change).isReconciling = w.isReconciling :=
  (congrArg Workspace.isReconciling (w.withoutCaches_apply change) :)

/-- What looking up a name comes to. -/
def Found.outcome {α : Type} (found : Found α) (name : String) : Except Abort (Option α) :=
  match found with
  | nothing => .ok none
  | one value => .ok (some value)
  | ambiguous names => .error (.ofCause (.ambiguousIdentifier name names))

theorem unambiguous_eq {α : Type} (name : String) (found : Found α) (w : Workspace) :
    Resolving.unambiguous name found w = (found.outcome name, w) := by
  cases found <;> rfl

/-- Whether the namespace is tried in front of a name. -/
def ResolutionOptions.isQualifying (options : ResolutionOptions) (name : String) : Bool :=
  options.space ≠ "" ∧ ¬ Name.startsWith name (options.space ++ ".")

/-- The object that a name has in a catalog, with the namespace in front or as it is. -/
def Catalog.declared (c : Catalog) (options : ResolutionOptions) (path : ResolutionPath) (name : String) :
    Except Abort (Option CatalogObject) :=
  if options.isQualifying name then
    match (c.resolveName (Name.qualified options.space name) path).outcome name with
    | .ok none => (c.resolveName name path).outcome name
    | outcome => outcome
  else (c.resolveName name path).outcome name

theorem findDeclared_eq (opts : ResolutionOptions) (path : ResolutionPath) (name : String)
    (w : Workspace) : findDeclared opts path name w = (w.catalog.declared opts path name, w) := by
  unfold findDeclared Catalog.declared ResolutionOptions.isQualifying
  rw [get_bind_apply]
  simp only [decide_eq_true_eq]
  split
  · rw [bind_apply, unambiguous_eq]
    rcases (w.catalog.resolveName (Name.qualified opts.space name) path).outcome name with _ | _ | _
    · rfl
    · exact unambiguous_eq name _ w
    · rfl
  · exact unambiguous_eq name _ w

/-- Asking a device is over in the end, as it was before. -/
theorem reconciling_askDevice (opts : ResolutionOptions) (path : ResolutionPath) (name : String)
    {w : Workspace} (h : w.isReconciling = false) :
    Resolving.reconciling (askDevice opts path name) w = askDevice opts path name w := by
  -- what is found does not depend on whether a device is being asked
  obtain ⟨found, hask⟩ : ∃ found, ∀ flag, askDevice opts path name { w with isReconciling := flag } =
      (found, { w.apply (w.catalog.reconcile opts.device name) with isReconciling := flag }) := by
    have happly : ∀ flag, ({ w with isReconciling := flag } : Workspace).apply
        (w.catalog.reconcile opts.device name) =
          { w.apply (w.catalog.reconcile opts.device name) with isReconciling := flag } := by
      intro flag
      rw [Workspace.apply_eq, Workspace.apply_eq]
    rcases hres : (w.catalog.reconcile opts.device name).result with cause | _ | _
    · refine ⟨.error (.ofCause cause), fun flag => ?_⟩
      rw [askDevice, get_bind_apply, hres]
      exact congrArg (Prod.mk _) (happly flag)
    · refine ⟨.ok none, fun flag => ?_⟩
      rw [askDevice, get_bind_apply, hres]
      exact congrArg (Prod.mk _) (happly flag)
    · refine ⟨(w.apply (w.catalog.reconcile opts.device name)).catalog.declared opts path name,
        fun flag => ?_⟩
      rw [askDevice, get_bind_apply, hres]
      refine (findDeclared_eq opts path name _).trans ?_
      exact congrArg (fun w' : Workspace => (w'.catalog.declared opts path name, w')) (happly flag)
  have hw : { w with isReconciling := false } = w := by rw [← h]
  have hover := hask false
  rw [hw] at hover
  rw [Resolving.reconciling, hask, hover]

/-- Whether a cause is that the symbol stack is unbalanced. -/
def Cause.blamesStack : Cause → Bool
  | .internal reason => reason == "unbalanced symbol stack"
  | _ => false

/-- What resolutions keep to from workspaces of some kind: what they may make of a workspace, and what may
end them. The stack is not blamed. -/
structure Contract where
  Holds : Workspace → Prop
  Leads : Workspace → Workspace → Prop
  Ends : Abort → Prop := fun _ => True
  refl : ∀ w, Leads w w
  trans : ∀ {w w' w''}, Leads w w' → Leads w' w'' → Leads w w''
  keeps : ∀ {w w'}, Leads w w' → Holds w → Holds w'
  absent : Ends .absent := by trivial
  refused : ∀ {cause : Cause}, cause.blamesStack = false → Ends (.ofCause cause) := by intros; trivial

variable {cause : Cause}

namespace Contract

/-- From a workspace, a resolution keeps to a contract. If it succeeds, its value has a property where it
ends. -/
structure MetAt {α : Type} (C : Contract) (w : Workspace) (action : Resolving α)
    (Q : α → Workspace → Prop) : Prop where
  leads : C.Leads w (action w).2
  value : ∀ value, (action w).1 = .ok value → Q value (action w).2
  ends : ∀ abort, (action w).1 = .error abort → C.Ends abort

/-- A resolution keeps to a contract from all workspaces of its kind. -/
def Met {α : Type} (C : Contract) (action : Resolving α) (Q : α → Workspace → Prop) : Prop :=
  ∀ w, C.Holds w → C.MetAt w action Q

section Steps

variable {β : Type} {C : Contract} {w w' : Workspace} {act : Resolving α}
  {Q R : α → Workspace → Prop} (name : String) {next : PUnit → Resolving α}

theorem MetAt.imp (h : C.MetAt w act Q) (hQ : ∀ val w, Q val w → R val w) : C.MetAt w act R :=
  ⟨h.leads, fun val hok => hQ val _ (h.value val hok), h.ends⟩

theorem MetAt.congr {act' : Resolving α} (heq : act w = act' w) (h : C.MetAt w act' Q) : C.MetAt w act Q :=
  ⟨heq ▸ h.leads, heq ▸ h.value, heq ▸ h.ends⟩

theorem MetAt.pure {val : α} (h : Q val w) : C.MetAt w (Pure.pure val) Q :=
  ⟨C.refl w, fun _ hok => Except.ok.inj hok ▸ h, fun _ herror => nomatch herror⟩

theorem MetAt.throw {abort : Abort} (h : C.Ends abort) : C.MetAt w (throw abort : Resolving α) Q :=
  ⟨C.refl w, fun _ hok => (nomatch hok), fun _ herror => Except.error.inj herror ▸ h⟩

theorem MetAt.raise (h : cause.blamesStack = false) : C.MetAt w (Resolving.raise cause : Resolving α) Q :=
  throw (C.refused h)

theorem MetAt.bind {next : α → Resolving β} {R : β → Workspace → Prop} (h : C.MetAt w act Q)
    (hnext : ∀ value w', C.Leads w w' → Q value w' → C.MetAt w' (next value) R) :
    C.MetAt w (act >>= next) R := by
  obtain ⟨hleads, hval, hends⟩ := h
  have hrun := bind_apply act next w
  rcases hout : act w with ⟨abort | value, w'⟩
  all_goals
    rw [hout] at hleads hval hends hrun
  · refine ⟨?_, ?_, ?_⟩
    all_goals rw [hrun]
    · exact hleads
    · exact fun _ hok => nomatch hok
    · exact fun _ herror => Except.error.inj herror ▸ hends abort rfl
  · obtain ⟨hleads', hval', hends'⟩ := hnext value w' hleads (hval value rfl)
    refine ⟨?_, ?_, ?_⟩
    all_goals rw [hrun]
    · exact C.trans hleads hleads'
    · exact hval'
    · exact hends'

theorem Met.bind {next : α → Resolving β} {R : β → Workspace → Prop} (h : C.Met act Q)
    (hnext : ∀ val w, C.Holds w → Q val w → C.MetAt w (next val) R) : C.Met (act >>= next) R :=
  fun w hw => (h w hw).bind fun val w' hleads hval => hnext val w' (C.keeps hleads hw) hval

theorem MetAt.get_bind {next : Workspace → Resolving α} (h : C.MetAt w (next w) Q) :
    C.MetAt w (get >>= next) Q :=
  ⟨h.leads, h.value, h.ends⟩

theorem MetAt.modify_bind {change : Workspace → Workspace} (h : C.Leads w (change w))
    (hnext : C.MetAt (change w) (next ⟨⟩) Q) : C.MetAt w (modify change >>= next) Q :=
  ⟨C.trans h hnext.leads, hnext.value, hnext.ends⟩

theorem MetAt.set_bind (h : C.Leads w w') (hnext : C.MetAt w' (next ⟨⟩) Q) : C.MetAt w (set w' >>= next) Q :=
  ⟨C.trans h hnext.leads, hnext.value, hnext.ends⟩

theorem MetAt.unambiguous_bind {found : Found β} {next : Option β → Resolving α}
    (hone : ∀ val, found = .one val → C.MetAt w (next (some val)) Q)
    (hnone : C.MetAt w (next none) Q) : C.MetAt w (Resolving.unambiguous name found >>= next) Q := by
  cases found with
  | nothing => exact ⟨hnone.leads, hnone.value, hnone.ends⟩
  | one val => exact ⟨(hone val rfl).leads, (hone val rfl).value, (hone val rfl).ends⟩
  | ambiguous names =>
    exact ⟨C.refl w, fun _ hok => (nomatch hok), fun _ herror => Except.error.inj herror ▸ C.refused rfl⟩

theorem MetAt.unambiguous {found : Found α} (h : ∀ val, found = .one val → Q val w) :
    C.MetAt w (Resolving.unambiguous name found) fun res w => ∀ val ∈ res, Q val w := by
  cases found with
  | nothing => exact pure (by simp)
  | one val => exact pure (by simpa using h)
  | ambiguous => exact raise rfl

end Steps

end Contract

/-! ### Changes that fail -/

variable {obj : CatalogObject} {name : String} {c : Catalog}

theorem Catalog.blamesStack_of_addObject (h : c.addObject obj = .error cause) :
    cause.blamesStack = false := by
  unfold addObject at h
  split at h
  · cases h
    rfl
  · cases h

theorem Catalog.blamesStack_of_reconcile {dev : String} (h : (c.reconcile dev name).result = .error cause) :
    cause.blamesStack = false := by
  obtain heq | ⟨_, _, -, -, ⟨_, heq⟩ | ⟨-, heq⟩⟩ := c.reconcile_cases dev name
  all_goals
    rw [heq] at h
    cases h
  rfl

/-- Whether a transaction copies an object when it is used: a stored table variable that belongs to
neither a session nor a transaction. -/
def CatalogObject.isCopied : CatalogObject → Bool
  | .scalarType _ => false
  | .tableVar tv => !(tv.isDerived || tv.isSession || tv.isTransactional)

namespace Transaction

variable {t t' : Transaction} {c' : Catalog} {copy : CatalogObject}

/-- An object is in a transaction what it is outside or what it is mapped to, or a stored table variable
is copied. -/
theorem ensureMapped_cases (h : t.ensureMapped c obj = .ok (t', c', copy)) :
    t' = t ∧ c' = c ∧ (copy = obj ∧ obj.isCopied = false ∨ ∃ tv global, obj = .tableVar tv ∧
      t.tables.find? tv.name = some global ∧ c.resolveName global [] = .one copy) ∨
    ∃ tv, obj = .tableVar tv ∧ c.addObject (.tableVar (tv.copyOf (t.privateName tv.name))) = .ok c' ∧
      t' = { t with tables := t.tables.set tv.name (t.privateName tv.name) } ∧
      copy = .tableVar (tv.copyOf (t.privateName tv.name)) := by
  cases obj with
  | scalarType =>
    cases h
    exact .inl ⟨rfl, rfl, .inl ⟨rfl, rfl⟩⟩
  | tableVar tv =>
    simp only [ensureMapped] at h
    split at h
    · rename_i hkept
      cases h
      exact .inl ⟨rfl, rfl, .inl ⟨rfl, by simp [CatalogObject.isCopied, hkept]⟩⟩
    · split at h
      · rename_i found hmapped
        cases h
        obtain ⟨global, hglobal, hfound⟩ := Option.bind_eq_some_iff.mp hmapped
        refine .inl ⟨rfl, rfl, .inr ⟨tv, global, rfl, hglobal, ?_⟩⟩
        split at hfound
        · rename_i hresolve
          rw [hresolve, Option.some.inj hfound]
        · cases hfound
      · simp only [addCopy, Catalog.addTableVar] at h
        cases hadd : c.addObject (.tableVar (tv.copyOf (t.privateName tv.name))) with
        | error cause =>
          rw [hadd] at h
          cases h
        | ok added =>
          rw [hadd] at h
          cases h
          exact .inr ⟨tv, rfl, hadd, rfl, rfl⟩

theorem blamesStack_of_ensureMapped (h : t.ensureMapped c obj = .error cause) :
    cause.blamesStack = false := by
  cases obj with
  | scalarType => cases h
  | tableVar tv =>
    simp only [ensureMapped] at h
    split at h
    · cases h
    · split at h
      · cases h
      · simp only [addCopy, Catalog.addTableVar] at h
        cases hadd : c.addObject (.tableVar (tv.copyOf (t.privateName tv.name))) with
        | error other =>
          rw [hadd] at h
          cases h
          exact Catalog.blamesStack_of_addObject hadd
        | ok added =>
          rw [hadd] at h
          cases h

end Transaction

/-! ### Symbols -/

/-- A visible symbol, or a column of one, at a location. -/
def Stack.Designates (s : Stack) (location : Location) (symbol : Symbol) : Prop :=
  s.visible[location.index]? = some symbol ∧
    (location.column = none → location.name = symbol.name ∧ symbol.name ≠ "")

theorem Stack.designates_of_mem_candidates {s : Stack} {c : Candidate} (h : c ∈ s.candidates name) :
    s.Designates c.location c.symbol := by
  obtain ⟨⟨sym, idx⟩, hmem, hc⟩ := mem_flatMap.mp h
  have hvis : s.visible[idx]? = some sym := mem_zipIdx_iff_getElem?.mp hmem
  rcases mem_append.mp hc with hc | hc
  · split at hc
    · rename_i hname
      obtain rfl := mem_singleton.mp hc
      exact ⟨hvis, fun _ => ⟨rfl, hname.1⟩⟩
    · cases hc
  · obtain ⟨⟨⟨col, type⟩, pos⟩, _, hcol⟩ := mem_filterMap.mp hc
    dsimp only at hcol
    split at hcol
    · cases hcol
      exact ⟨hvis, fun hnone => nomatch hnone⟩
    · cases hcol

theorem Stack.designates_of_resolve {s : Stack} {location : Location} {sym : Symbol}
    {shadowed : List String} (h : s.resolve name = .found location sym shadowed) :
    s.Designates location sym := by
  have hchosen : ∃ c ∈ s.candidates name, c.location = location ∧ c.symbol = sym := by
    unfold resolve choose at h
    split at h
    · cases h
    · rename_i c hc
      cases h
      exact ⟨c, by simp [hc], rfl, rfl⟩
    · split at h
      · rename_i c hc
        cases h
        exact ⟨c, (mem_filter.mp (hc ▸ mem_singleton_self c)).1, rfl, rfl⟩
      · rename_i c rest _ hc _
        cases h
        exact ⟨c, (mem_filter.mp (hc ▸ mem_cons_self)).1, rfl, rfl⟩
      · cases h
  obtain ⟨c, hc, rfl, rfl⟩ := hchosen
  exact designates_of_mem_candidates hc

/-! ### Names -/

namespace Contract

variable {C : Contract} {Q : CatalogObject → Workspace → Prop}

/-- Under a contract, what names of some kind lead to has a property, whether they are as they are, in the
namespace or hidden by the active transaction, and aliases stand for names of that kind. -/
structure Finds (C : Contract) (options : ResolutionOptions) (scope : PlanScope) (N : String → Prop)
    (O : CatalogObject → Workspace → Prop) : Prop where
  plain : ∀ {w name object}, C.Holds w → N name →
    w.catalog.resolveName name scope.path = .one object → O object w
  qualified : ∀ {w name object}, C.Holds w → N name →
    w.catalog.resolveName (Name.qualified options.space name) scope.path = .one object → O object w
  hidden : ∀ {w name global object}, C.Holds w → w.activeTransaction?.bind (·.tableName? name) = some global →
    w.catalog.resolveName global [] = .one object → O object w
  followed : ∀ {w name global}, C.Holds w → N name →
    findAlias scope.objects Session.objects w name = some global → N global
  reconciled : ∀ {w name}, options.device ≠ "" → C.Holds w →
    C.Leads w (w.apply (w.catalog.reconcile options.device name))

namespace Finds

variable {opts : ResolutionOptions} {scope : PlanScope} {N : String → Prop}
  {O : CatalogObject → Workspace → Prop}

theorem of_resolveName (hfound : ∀ {w name path obj}, C.Holds w →
      w.catalog.resolveName name path = .one obj → O obj w)
    (hreconciled : ∀ {w name}, opts.device ≠ "" → C.Holds w →
      C.Leads w (w.apply (w.catalog.reconcile opts.device name))) : C.Finds opts scope (fun _ => True) O where
  plain hw _ := hfound hw
  qualified hw _ := hfound hw
  hidden hw _ := hfound hw
  followed _ _ _ := trivial
  reconciled := hreconciled

variable (h : C.Finds opts scope N O)

include h

theorem findDeclared (hname : N name) : C.Met (Relational.findDeclared opts scope.path name)
    fun found w => ∀ obj ∈ found, O obj w := by
  intro w hw
  have hplain := MetAt.unambiguous (C := C) (Q := O) (w := w) name fun _ => h.plain hw hname
  refine .get_bind ?_
  split
  · refine .unambiguous_bind name (fun obj hfound => .pure ?_) hplain
    rintro _ ⟨⟩
    exact h.qualified hw hname hfound
  · exact hplain

protected theorem findCataloged (hname : N name) : C.Met (findCataloged opts scope name)
    fun found w => ∀ obj ∈ found, O obj w := by
  refine (h.findDeclared hname).bind fun found w hw hfound => ?_
  cases found with
  | some obj => exact .pure hfound
  | none =>
    refine .get_bind ?_
    split
    · exact .pure (by simp)
    · rename_i hasks
      obtain ⟨hdev, hover⟩ : opts.device ≠ "" ∧ w.isReconciling = false := by simpa using hasks
      have hleads : C.Leads w (w.apply (w.catalog.reconcile opts.device name)) := h.reconciled hdev hw
      refine .congr (reconciling_askDevice opts scope.path name hover) (.get_bind (.modify_bind hleads ?_))
      split
      · exact .raise (Catalog.blamesStack_of_reconcile ‹_›)
      · exact .pure (by simp)
      · exact h.findDeclared hname _ (C.keeps hleads hw)

theorem findPrivate (name : String) : C.Met (Relational.findPrivate name) fun found w =>
    ∀ obj ∈ found, O obj w := by
  intro w hw
  refine .get_bind ?_
  split
  · exact .pure (by simp)
  · exact .unambiguous name fun _ => h.hidden hw ‹_›

protected theorem findObjectWithin (fuel : Nat) (hname : N name) :
    C.Met (findObjectWithin opts scope fuel name) fun found w =>
      ∀ obj ∈ found, O obj w := by
  induction fuel generalizing name with
  | zero => exact fun w _ => .raise rfl
  | succ fuel ih =>
    refine (h.findPrivate name).bind fun found w hw hfound => ?_
    cases found with
    | some obj => exact .pure hfound
    | none =>
      refine .get_bind ?_
      split
      · exact ih (h.followed hw hname ‹_›) w hw
      · exact h.findCataloged hname w hw

theorem findObject (hname : N name) : C.Met (Relational.findObject opts scope name) fun found w =>
    ∀ obj ∈ found, O obj w :=
  h.findObjectWithin _ hname

end Finds

protected theorem findSymbol (stack : Stack) (binding : Binding) (name : String) :
    C.Met (findSymbol (some stack) binding name) fun res _ => ∀ found ∈ res, ∃ location sym shadowed,
        found = .symbol location sym shadowed ∧ stack.Designates location sym := by
  intro w _
  unfold findSymbol
  split
  · exact .pure (by simp)
  · exact .pure (by simp)
  · rename_i hstack
    cases hstack
    split
    · exact .pure (by simp)
    · exact .raise rfl
    · rename_i hresolve
      refine .pure fun found hfound => ?_
      cases hfound
      exact ⟨_, _, _, rfl, Stack.designates_of_resolve hresolve⟩

theorem MetAt.copyObject {w : Workspace} (hsame : w.activeTransaction? = none ∨ obj.isTransactional → Q obj w)
    (hcopied : ∀ {t t' c' copy}, w.activeTransaction? = some t → obj.isTransactional = false →
      t.ensureMapped w.catalog obj = .ok (t', c', copy) →
        C.Leads w (w.setTransaction t' c') ∧ Q copy (w.setTransaction t' c')) :
    C.MetAt w (Relational.copyObject obj) Q := by
  refine .get_bind ?_
  split
  · exact .pure (hsame (.inl ‹_›))
  · rename_i t ht
    split
    · exact .pure (hsame (.inr ‹_›))
    · rename_i hlocal
      split
      · exact .raise (Transaction.blamesStack_of_ensureMapped ‹_›)
      · rename_i hmapped
        obtain ⟨hleads, hcopy⟩ := hcopied ht (by simpa using hlocal) hmapped
        exact .set_bind hleads (.pure hcopy)

theorem refreshed (h : ∀ {w}, C.Holds w → Q ((w.catalog.object? obj.name).getD obj) w) :
    C.Met (Relational.refreshed obj) Q :=
  fun _ hw => .get_bind (.pure (h hw))

theorem isDeferred (op : Operator) : C.Met (Relational.isDeferred op) fun _ _ => True :=
  fun _ _ => .get_bind (.pure trivial)

end Contract

/-! ### Calls -/

/-- The match that is remembered for a call, else the one that a search finds. -/
def recallOr (key : CallKey) (search : Resolving OverloadMatch) : Resolving OverloadMatch := do
  match ← recallMatch key with
  | some found => return found
  | none => search

/-- The overload that fits a call best, from a place and those after it, where no match is recalled. -/
def selectFrom (scope : PlanScope) (name : String) (call : Call) (isExact : Bool)
    (closest : Option OverloadMatch) (hasArity : Bool) (source : OverloadSource)
    (sources : List OverloadSource) : Resolving OverloadMatch := do
  let choice ← choose call isExact source.overloads
  match choice.best, choice.ties with
  | none, _ =>
    selectAmong scope name call isExact (closestOf closest choice.closest)
      (hasArity || choice.hasArity) sources
  | some best, [] =>
    if source.isCataloged && call.isScalar then
      rememberMatch (call.key name scope.path isExact) source.overloads.name best
        (choice.visited ++ call.typeTexts)
    return best
  | some best, ties =>
    Resolving.raise (.ambiguousOperatorCall name call.text ((best :: ties).map (·.operator.text)))

theorem selectAmong_cons (scope : PlanScope) (name : String) (call : Call) (isExact : Bool)
    (closest : Option OverloadMatch) (hasArity : Bool) (src : OverloadSource)
    (srcs : List OverloadSource) : selectAmong scope name call isExact closest hasArity (src :: srcs) =
      if src.isCataloged && call.isScalar then
        recallOr (call.key name scope.path isExact)
          (selectFrom scope name call isExact closest hasArity src srcs)
      else selectFrom scope name call isExact closest hasArity src srcs := by
  rw [selectAmong]
  simp only [selectFrom]
  cases src.isCataloged && call.isScalar with
  | true => exact congrArg (recallMatch _ >>= ·) (funext fun found => by cases found <;> rfl)
  | false => rfl

theorem blamesStack_mismatch (name : String) (call : Call) (isExact hasArity : Bool)
    (closest : Option OverloadMatch) : (mismatch name call isExact hasArity closest).blamesStack = false := by
  unfold mismatch
  split <;> rfl

namespace Contract

variable {C : Contract}

/-- Under a contract, overloads of a property are matched with a call by matches of a property, and so are
those that are remembered. -/
structure Selects (C : Contract) (call : Call) (isExact : Bool) (S : OverloadSource → Prop)
    (M : OverloadMatch → Prop) : Prop where
  remembered : ∀ key, call.isScalar → C.Met (recallMatch key) fun result _ => ∀ found ∈ result, M found
  choose : ∀ source, S source → C.Met (choose call isExact source.overloads) fun choice _ =>
    ∀ best ∈ choice.best, M best
  remember : ∀ key overloads found visited, M found →
    C.Met (rememberMatch key overloads found visited) fun _ _ => True

variable {scope : PlanScope} {call : Call} {isExact : Bool} {S : OverloadSource → Prop}
  {M : OverloadMatch → Prop} {opts : ResolutionOptions}

theorem Selects.of_memories (hmemories : ∀ {w w'}, w'.withoutCaches = w.withoutCaches → C.Leads w w')
    (hrecall : call.isScalar → ∀ found, M found) (hchoose : ∀ src, S src → ∀ graph cache choice,
      (chooseOverload graph call isExact src.overloads.operators cache).1 = some choice →
        ∀ best ∈ choice.best, M best) : C.Selects call isExact S M where
  remembered key hscalar w _ := by
    refine .get_bind ?_
    split
    · exact .pure (by simp)
    · exact .set_bind (hmemories rfl) (.pure fun found _ => hrecall hscalar found)
  choose src hsrc w _ := by
    refine .get_bind (.set_bind (hmemories rfl) ?_)
    split
    · rename_i choice hchoice
      exact .pure (hchoose src hsrc _ _ choice hchoice)
    · exact .throw C.absent
  remember _ _ found _ _ w _ := by
    refine ⟨hmemories ?_, fun _ _ => trivial, fun _ h => (nomatch h)⟩
    change (if found.operator.isPrivate then w else _).withoutCaches = _
    split <;> rfl

theorem Selects.selectAmong (h : C.Selects call isExact S M) (closest : Option OverloadMatch)
    (hasArity : Bool) {srcs : List OverloadSource} (hsrcs : ∀ src ∈ srcs, S src) :
    C.Met (Relational.selectAmong scope name call isExact closest hasArity srcs) fun found _ =>
      M found := by
  induction srcs generalizing closest hasArity with
  | nil => exact fun w _ => .raise (blamesStack_mismatch name call isExact hasArity closest)
  | cons src srcs ih =>
    obtain ⟨hsrc, hsrcs⟩ := forall_mem_cons.mp hsrcs
    have hsearch : C.Met (selectFrom scope name call isExact closest hasArity src srcs)
        fun found _ => M found := by
      refine (h.choose src hsrc).bind fun choice w hw hchoice => ?_
      split
      · exact ih _ _ hsrcs w hw
      · have hbest := hchoice _ ‹_›
        split
        · exact (h.remember _ _ _ _ hbest).bind (fun _ _ _ _ => .pure hbest) w hw
        · exact .pure hbest
      · exact .raise rfl
    rw [selectAmong_cons]
    split
    · rename_i hremembered
      refine (h.remembered _ (Bool.and_eq_true_iff.mp hremembered).2).bind fun found w hw hfound => ?_
      cases found with
      | none => exact hsearch w hw
      | some found => exact .pure (hfound found rfl)
    · exact hsearch

theorem Selects.selectOperator (h : C.Selects call isExact S M) (opts : ResolutionOptions)
    (hsrcs : C.Met (findOverloads opts scope name) fun srcs _ =>
      ∀ src ∈ srcs, S src) :
    C.Met (Relational.selectOperator opts scope name call isExact) fun found _ => M found := by
  refine hsrcs.bind fun srcs w hw hsrcs => ?_
  split
  · exact .get_bind (.raise rfl)
  · exact h.selectAmong none false hsrcs w hw

protected theorem findDeclaredOverloads {path : ResolutionPath}
    (h : ∀ {w ref overloads}, C.Holds w → w.catalog.resolveOperatorName ref path = .one overloads →
        S { overloads, isCataloged := true }) : C.Met (findDeclaredOverloads opts path name) fun srcs _ =>
      ∀ src ∈ srcs, S src := by
  intro w hw
  have hplain : C.MetAt w (do
      let found ← Resolving.unambiguous name (w.catalog.resolveOperatorName name path)
      return (found.map fun overloads =>
        [({ overloads, isCataloged := true } : OverloadSource)]).getD []) fun srcs _ =>
          ∀ src ∈ srcs, S src :=
    .unambiguous_bind name (fun overloads hfound => .pure (by simpa using h hw hfound)) (.pure (by simp))
  refine .get_bind ?_
  split
  · exact .unambiguous_bind name (fun overloads hfound => .pure (by simpa using h hw hfound)) hplain
  · exact hplain

theorem findOverloads (hglobal : ∀ {w global overloads}, C.Holds w →
      w.catalog.resolveOperatorName global [] = .one overloads → S { overloads })
    (hlocal : ∀ overloads ∈ scope.operators? name, S { overloads })
    (hdecl : C.Met (findDeclaredOverloads opts scope.path name) fun srcs _ =>
      ∀ src ∈ srcs, S src) :
    C.Met (Relational.findOverloads opts scope name) fun srcs _ =>
      ∀ src ∈ srcs, S src := by
  have hplace : ∀ global, C.Met (findGlobalOverloads name global) fun srcs _ =>
      ∀ src ∈ srcs, S src := by
    intro global w hw
    cases global with
    | none => exact .pure (by simp)
    | some global =>
      refine .get_bind (.unambiguous_bind name (fun overloads hfound => .pure ?_) (.pure (by simp)))
      simpa using hglobal hw hfound
  intro w hw
  refine .get_bind ((hplace _).bind (fun private_ w hw hprivate => ?_) w hw)
  refine (hplace _).bind (fun planned w hw hplanned => ?_) w hw
  refine (hplace _).bind (fun aliased w hw haliased => ?_) w hw
  refine hdecl.bind (fun declared w hw hdecl => .pure ?_) w hw
  simp only [forall_mem_append, forall_mem_map, Option.mem_toList]
  exact ⟨⟨⟨⟨hprivate, hplanned⟩, haliased⟩, hlocal⟩, hdecl⟩

end Contract

end Relational
