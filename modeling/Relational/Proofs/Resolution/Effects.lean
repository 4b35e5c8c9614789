import Relational.Proofs.Resolution.Contract

/-!
# What resolution changes

Resolution may change the workspace: table variables are copied into transactions or taken over from a
device, and outcomes are remembered. It leaves alone the operators that calls are resolved with.
-/

namespace Relational

/-- The operators that calls are resolved with: those of the catalog, and the names that the session and
its active transaction have for operators. -/
structure OperatorView where
  catalog : List (String × Overloads)
  session : Option Aliases
  transaction : Option Aliases

/-- The operators of a workspace. -/
def Workspace.operatorView (w : Workspace) : OperatorView where
  catalog := w.catalog.operators
  session := w.session.map Session.operators
  transaction := w.activeTransaction?.map Transaction.operators

/-- Resolutions that leave the operators of a workspace as they are, and end with asking a device if they
begin with it. -/
def Contract.sameOperators (view : OperatorView) : Contract where
  Holds w := w.operatorView = view
  Leads w w' := w'.operatorView = w.operatorView ∧ w'.isReconciling = w.isReconciling
  refl _ := ⟨rfl, rfl⟩
  trans h h' := ⟨h'.1.trans h.1, h'.2.trans h.2⟩
  keeps h hw := h.1.trans hw

/-- A resolution that leaves the operators as they are, with a value of a property if it succeeds. -/
abbrev Resolves {α : Type} (view : OperatorView) (action : Resolving α) (Q : α → Prop) : Prop :=
  (Contract.sameOperators view).Met action fun value _ => Q value

/-! ### Names -/

theorem Workspace.operatorView_apply {α : Type} (w : Workspace) (change : Change α)
    (h : change.catalog.operators = w.catalog.operators) :
    (w.apply change).operatorView = w.operatorView := by
  refine .trans (congrArg operatorView (w.withoutCaches_apply change) :) ?_
  unfold operatorView
  rw [← h]
  rfl

theorem Catalog.operators_reconcile (c : Catalog) (dev name : String) :
    (c.reconcile dev name).catalog.operators = c.operators := by
  obtain heq | ⟨_, _, -, -, ⟨_, heq⟩ | ⟨-, heq⟩⟩ := c.reconcile_cases dev name
  all_goals exact congrArg (·.catalog.operators) heq

theorem Resolves.findObject {view : OperatorView} (opts : ResolutionOptions) (scope : PlanScope)
    (name : String) : Resolves view (Relational.findObject opts scope name) fun _ => True := by
  have hfinds : (Contract.sameOperators view).Finds opts scope (fun _ => True) fun _ _ => True :=
    .of_resolveName (fun _ _ => trivial) fun _ _ =>
      ⟨Workspace.operatorView_apply _ _ (Catalog.operators_reconcile ..), Workspace.isReconciling_apply _ _⟩
  exact fun w hw => (hfinds.findObject trivial w hw).imp fun _ _ _ => trivial

/-! ### Transactions -/

section Transactions

variable {view : OperatorView} {t t' : Transaction} {c c' : Catalog}

/-- A transaction and a catalog after a copy was made, with the operators there were. -/
structure Transaction.Copied (t : Transaction) (c : Catalog) (t' : Transaction) (c' : Catalog) :
    Prop where
  operators : t'.operators = t.operators
  isActive : t'.isActive = t.isActive
  catalog : c'.operators = c.operators

theorem Transaction.ensureMapped_copied {obj copy : CatalogObject}
    (h : t.ensureMapped c obj = .ok (t', c', copy)) : t.Copied c t' c' := by
  obtain ⟨rfl, rfl, -⟩ | ⟨tv, -, hadd, rfl, -⟩ := ensureMapped_cases h
  · exact ⟨rfl, rfl, rfl⟩
  · exact ⟨rfl, rfl, by rw [(Catalog.eq_of_addObject hadd).2]⟩

theorem Transaction.Copied.operatorView {w : Workspace} (h : t.Copied w.catalog t' c')
    (ht : w.activeTransaction? = some t) : (w.setTransaction t' c').operatorView = w.operatorView := by
  obtain ⟨hbefore, hactive⟩ := Option.filter_eq_some_iff.mp ht
  obtain ⟨sess, hsess, hfirst⟩ := Option.bind_eq_some_iff.mp hbefore
  have hafter : (w.setTransaction t' c').activeTransaction? = some t' := by
    refine Option.filter_eq_some_iff.mpr ⟨?_, h.isActive.trans hactive⟩
    simp [Workspace.transaction?, Workspace.setTransaction, hsess, Session.transaction?,
      Session.setTransaction]
  unfold Workspace.operatorView
  rw [hafter, ht, Option.map_some, Option.map_some, h.operators]
  simp [Workspace.setTransaction, h.catalog, hsess, Session.setTransaction]

theorem Resolves.copyObject (obj : CatalogObject) : Resolves view (Relational.copyObject obj) fun _ => True :=
  fun _ _ => .copyObject (fun _ => trivial) fun ht _ hcopy =>
    ⟨⟨(Transaction.ensureMapped_copied hcopy).operatorView ht, rfl⟩, trivial⟩

end Transactions

/-! ### The selection of an overload -/

/-- The outcome for the overloads so far with one more overload matched. -/
def OverloadChoice.next (graph : ConversionGraph) (call : Call) (isExact : Bool)
    (choice : Option OverloadChoice) (op : Operator) :
    StateM (Option ConversionCache) (Option OverloadChoice) := do
  match choice with
  | none => return none
  | some choice =>
    match ← matchOverload graph call op with
    | none => return none
    | some m => return some (choice.add isExact m)

theorem chooseOverload_eq (graph : ConversionGraph) (call : Call) (isExact : Bool)
    (operators : List Operator) : chooseOverload graph call isExact operators =
      (operators.filter (takesArity · call.length)).foldlM (OverloadChoice.next graph call isExact)
        (some {}) :=
  rfl

end Relational
