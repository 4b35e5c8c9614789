import Relational.Proofs.Resolution.Quiet
import Relational.Proofs.Resolution.Transparency

/-!
# How workspaces evolve

While programs are compiled, the workspace changes in a few ways. An operator that was put off may get its
body. A stale derived table variable may get the table variables that it reads. Table variables may be
declared: copies of transactions, and table variables that a device gives up. Nothing else changes but the
memories and the transactions of the session, and no change is undone.
-/

namespace Relational

/-- What may be said of the bodies that operators get, and of what table variables are found to read. -/
structure Findings where
  body : Plan → Prop
  reads : TableVar → List String → Prop

namespace Findings

/-- Anything may be found. -/
def any : Findings where
  body _ := True
  reads _ _ := True

/-- What is said of findings says more than something else. -/
structure Implies (F G : Findings) : Prop where
  body : ∀ p, F.body p → G.body p
  reads : ∀ tv references, F.reads tv references → G.reads tv references

theorem Implies.any (F : Findings) : F.Implies .any :=
  ⟨fun _ _ => trivial, fun _ _ _ => trivial⟩

end Findings

/-- The state of an operator later on: as it was, or with a body in place of one that was put off. -/
def OperatorState.Settles (F : Findings) (s s' : OperatorState) : Prop :=
  s' = s ∨ s.isDeferred ∧ ∃ p, F.body p ∧ s' = { isDeferred := false, body := some (.plan p) }

/-- A table variable later on: as it was, or a stale derived one with what it was found to read. -/
def TableVar.Settles (F : Findings) (tv tv' : TableVar) : Prop :=
  tv' = tv ∨ tv.isDerived ∧ tv.isStale ∧
    ∃ references, F.reads tv references ∧ tv' = tv.setReferences references

/-- An object later on. -/
def CatalogObject.Settles (F : Findings) (object object' : CatalogObject) : Prop :=
  object' = object ∨
    ∃ tv tv', object = .tableVar tv ∧ object' = .tableVar tv' ∧ tv.Settles F tv'

/-- A table variable that a device holds. -/
def Catalog.IsPending (c : Catalog) (tv : TableVar) : Prop :=
  ∃ device ∈ c.devices, ∃ entry ∈ device.2.pending, entry.2 = tv

/-- A catalog later on. An object that is new is a table variable; if it is derived, a device held it. -/
structure Catalog.Evolves (F : Findings) (c c' : Catalog) : Prop where
  operators : c'.operators = c.operators
  conversions : c'.conversions = c.conversions
  objects : ∀ name object, c.object? name = some object →
    ∃ object', c'.object? name = some object' ∧ object.Settles F object'
  declared : ∀ name object', c.object? name = none → c'.object? name = some object' →
    ∃ tv', object' = .tableVar tv' ∧ (tv'.isDerived → ∃ tv, c.IsPending tv ∧ tv.Settles F tv')
  pending : ∀ tv, c'.IsPending tv → c.IsPending tv
  keyed : c.IsKeyed → c'.IsKeyed

/-- A workspace later on. -/
structure Workspace.Evolves (F : Findings) (w w' : Workspace) : Prop where
  catalog : w.catalog.Evolves F w'.catalog
  states : ∀ op, (w.operatorState op).Settles F (w'.operatorState op)

/-! ### Changes add up -/

section Order

variable {F G : Findings}

theorem OperatorState.Settles.trans {s s' s'' : OperatorState} (h : s.Settles F s')
    (h' : s'.Settles F s'') : s.Settles F s'' := by
  rcases h with rfl | ⟨hdeferred, p, hp, rfl⟩
  · exact h'
  · rcases h' with rfl | ⟨hdeferred', -⟩
    · exact .inr ⟨hdeferred, p, hp, rfl⟩
    · cases hdeferred'

theorem TableVar.Settles.trans {tv tv' tv'' : TableVar} (h : tv.Settles F tv')
    (h' : tv'.Settles F tv'') : tv.Settles F tv'' := by
  rcases h with rfl | ⟨hderived, hstale, refs, hreads, rfl⟩
  · exact h'
  · rcases h' with rfl | ⟨-, hstale', -⟩
    · exact .inr ⟨hderived, hstale, refs, hreads, rfl⟩
    · cases hstale'

theorem CatalogObject.Settles.tableVar {tv : TableVar} {obj' : CatalogObject}
    (h : (CatalogObject.tableVar tv).Settles F obj') :
    ∃ tv', obj' = .tableVar tv' ∧ tv.Settles F tv' := by
  rcases h with rfl | ⟨_, tv', heq, rfl, hsettles⟩
  · exact ⟨tv, rfl, .inl rfl⟩
  · cases heq
    exact ⟨tv', rfl, hsettles⟩

theorem CatalogObject.Settles.trans {o o' o'' : CatalogObject} (h : o.Settles F o')
    (h' : o'.Settles F o'') : o.Settles F o'' := by
  rcases h with rfl | ⟨tv, tv', rfl, rfl, hsettles⟩
  · exact h'
  · obtain ⟨tv'', rfl, hsettles'⟩ := h'.tableVar
    exact .inr ⟨tv, tv'', rfl, rfl, hsettles.trans hsettles'⟩

theorem TableVar.Settles.imp {tv tv' : TableVar} (h : tv.Settles F tv') (hFG : F.Implies G) :
    tv.Settles G tv' := by
  rcases h with rfl | ⟨hderived, hstale, refs, hreads, rfl⟩
  · exact .inl rfl
  · exact .inr ⟨hderived, hstale, refs, hFG.reads _ _ hreads, rfl⟩

theorem CatalogObject.Settles.imp {o o' : CatalogObject} (h : o.Settles F o') (hFG : F.Implies G) :
    o.Settles G o' := by
  rcases h with rfl | ⟨tv, tv', rfl, rfl, hsettles⟩
  · exact .inl rfl
  · exact .inr ⟨tv, tv', rfl, rfl, hsettles.imp hFG⟩

namespace Catalog.Evolves

variable {c c' c'' : Catalog}

theorem refl (c : Catalog) : c.Evolves F c where
  operators := rfl
  conversions := rfl
  objects _ obj h := ⟨obj, h, .inl rfl⟩
  declared _ _ hnone hsome := by simp [hnone] at hsome
  pending _ h := h
  keyed h := h

theorem trans (h : c.Evolves F c') (h' : c'.Evolves F c'') : c.Evolves F c'' where
  operators := h'.operators.trans h.operators
  conversions := h'.conversions.trans h.conversions
  objects name obj hobj := by
    obtain ⟨obj', hobj', hsettles⟩ := h.objects name obj hobj
    obtain ⟨obj'', hobj'', hsettles'⟩ := h'.objects name obj' hobj'
    exact ⟨obj'', hobj'', hsettles.trans hsettles'⟩
  declared name obj'' hnone hsome := by
    cases hname : c'.object? name with
    | none =>
      obtain ⟨tv'', rfl, horigin⟩ := h'.declared name obj'' hname hsome
      refine ⟨tv'', rfl, fun hderived => ?_⟩
      obtain ⟨tv, hpending, hsettles⟩ := horigin hderived
      exact ⟨tv, h.pending tv hpending, hsettles⟩
    | some obj' =>
      obtain ⟨tv', rfl, horigin⟩ := h.declared name obj' hnone hname
      obtain ⟨_, hsome', hsettles⟩ := h'.objects name _ hname
      obtain rfl := Option.some.inj (hsome.symm.trans hsome')
      obtain ⟨tv'', rfl, hlater⟩ := hsettles.tableVar
      refine ⟨tv'', rfl, fun hderived => ?_⟩
      have hderived' : tv'.isDerived := by
        rcases hlater with rfl | ⟨hderived', -⟩
        · exact hderived
        · exact hderived'
      obtain ⟨tv, hpending, hearlier⟩ := horigin hderived'
      exact ⟨tv, hpending, hearlier.trans hlater⟩
  pending tv htv := h.pending tv (h'.pending tv htv)
  keyed hkeyed := h'.keyed (h.keyed hkeyed)

theorem imp (h : c.Evolves F c') (hFG : F.Implies G) : c.Evolves G c' where
  operators := h.operators
  conversions := h.conversions
  objects name obj hobj := by
    obtain ⟨obj', hobj', hsettles⟩ := h.objects name obj hobj
    exact ⟨obj', hobj', hsettles.imp hFG⟩
  declared name obj' hnone hsome := by
    obtain ⟨tv', rfl, horigin⟩ := h.declared name obj' hnone hsome
    refine ⟨tv', rfl, fun hderived => ?_⟩
    obtain ⟨tv, hpending, hsettles⟩ := horigin hderived
    exact ⟨tv, hpending, hsettles.imp hFG⟩
  pending := h.pending
  keyed := h.keyed

end Catalog.Evolves

namespace Workspace.Evolves

variable {w w' w'' : Workspace}

theorem of_eq (hcat : w'.catalog = w.catalog) (hstates : w'.operatorStates = w.operatorStates) :
    w.Evolves F w' :=
  ⟨hcat ▸ .refl _, fun op => .inl (by rw [operatorState, operatorState, hstates])⟩

theorem refl (w : Workspace) : w.Evolves F w :=
  of_eq rfl rfl

theorem trans (h : w.Evolves F w') (h' : w'.Evolves F w'') : w.Evolves F w'' :=
  ⟨h.catalog.trans h'.catalog, fun op => (h.states op).trans (h'.states op)⟩

theorem imp (h : w.Evolves F w') (hFG : F.Implies G) : w.Evolves G w' := by
  refine ⟨h.catalog.imp hFG, fun op => ?_⟩
  rcases h.states op with heq | ⟨hdeferred, p, hp, heq⟩
  · exact .inl heq
  · exact .inr ⟨hdeferred, p, hFG.body p hp, heq⟩

end Workspace.Evolves

end Order

/-! ### Table variables that are declared -/

namespace Catalog

variable {F : Findings} {c c' : Catalog} {tv : TableVar} {name : String} {d : Device}

theorem evolves_append (hops : c'.operators = c.operators) (hconvs : c'.conversions = c.conversions)
    (hobjs : c'.objects = c.objects ++ [(tv.name, .tableVar tv)])
    (hpending : ∀ tv, c'.IsPending tv → c.IsPending tv) (htv : tv.isDerived → c.IsPending tv) :
    c.Evolves F c' := by
  have hlookup : ∀ name, c'.object? name =
      (c.object? name).or ([(tv.name, .tableVar tv)].lookup name) := by
    intro name
    rw [object?, hobjs]
    exact List.lookup_append
  refine ⟨hops, hconvs, fun name obj hobj => ?_, fun name obj' hnone hsome => ?_,
    hpending, fun hkeyed entry hentry => ?_⟩
  · exact ⟨obj, by rw [hlookup, hobj, Option.some_or], .inl rfl⟩
  · rw [hlookup, hnone, Option.none_or] at hsome
    obtain ⟨-, rfl⟩ : name = tv.name ∧ obj' = CatalogObject.tableVar tv := by
      simpa using mem_of_lookup hsome
    exact ⟨tv, rfl, fun hderived => ⟨tv, htv hderived, .inl rfl⟩⟩
  · rw [hobjs] at hentry
    rcases List.mem_append.mp hentry with hentry | hentry
    · exact hkeyed entry hentry
    · rw [List.mem_singleton.mp hentry]
      rfl

theorem evolves_addObject (h : c.addObject (.tableVar tv) = .ok c') (htv : tv.isDerived = false) :
    c.Evolves F c' := by
  obtain ⟨-, rfl⟩ := eq_of_addObject h
  exact evolves_append rfl rfl rfl (fun _ h => h) (by simp [htv])

theorem isPending_of_addDevice {d' : Device} (hd : c.device? name = some d) (hfewer : d'.pending ⊆ d.pending)
    (h : (c.addDevice d').IsPending tv) : c.IsPending tv := by
  obtain ⟨dev, hdev, entry, hentry, rfl⟩ := h
  rcases mem_putEntry hdev with rfl | hdev
  · exact ⟨(name, d), mem_of_lookup hd, entry, hfewer hentry, rfl⟩
  · exact ⟨dev, hdev, entry, hentry, rfl⟩

theorem isPending_of_pending? {dev : String} (hd : c.device? dev = some d) (htv : d.pending? name = some tv) :
    c.IsPending tv := by
  obtain ⟨entry, hfind, rfl⟩ := Option.map_eq_some_iff.mp htv
  exact ⟨(dev, d), mem_of_lookup hd, entry, List.mem_of_find?_eq_some hfind, rfl⟩

theorem evolves_reconcile (c : Catalog) (dev name : String) : c.Evolves F (c.reconcile dev name).catalog := by
  obtain heq | ⟨d, tv, hd, htv, hdecl⟩ := c.reconcile_cases dev name
  · rw [heq]
    exact .refl c
  have hpending : ∀ other, (c.addDevice (d.forget tv)).IsPending other → c.IsPending other :=
    fun _ => isPending_of_addDevice hd (List.filter_subset_self _)
  obtain ⟨_, heq⟩ | ⟨-, heq⟩ := hdecl <;> rw [heq]
  · refine ⟨rfl, rfl, fun _ obj h => ⟨obj, h, .inl rfl⟩, fun _ _ hnone hsome => ?_, hpending, fun h => h⟩
    exact absurd (hsome.symm.trans hnone) (by simp)
  · exact evolves_append rfl rfl rfl hpending fun _ => isPending_of_pending? hd htv

theorem evolves_ensureMapped {t t' : Transaction} {obj copy : CatalogObject}
    (h : t.ensureMapped c obj = .ok (t', c', copy)) : c.Evolves F c' := by
  obtain ⟨-, rfl, -⟩ | ⟨_, -, hadd, -, -⟩ := Transaction.ensureMapped_cases h
  · exact .refl _
  · exact evolves_addObject hadd rfl

end Catalog

theorem Workspace.evolves_apply {F : Findings} {α : Type} (w : Workspace) {change : Change α}
    (h : w.catalog.Evolves F change.catalog) : w.Evolves F (w.apply change) := by
  have happly := w.withoutCaches_apply change
  have hcat : (w.apply change).catalog = change.catalog := (congrArg catalog happly :)
  have hstates : (w.apply change).operatorStates = w.operatorStates := (congrArg operatorStates happly :)
  exact ⟨hcat ▸ h, fun op => .inl (by rw [operatorState, operatorState, hstates])⟩

/-! ### Steps -/

namespace Workspace

/-- The workspace with what a table variable reads. -/
def noteReferences (w : Workspace) (name : String) (references : List String) : Workspace :=
  { w with catalog := w.catalog.updateTableVar name (·.setReferences references) }

/-- The single changes of a workspace while programs are compiled. -/
inductive Step : Workspace → Workspace → Prop where
  | remember {w w'} (h : w'.withoutCaches = w.withoutCaches) : Step w w'
  | reconcile (w : Workspace) (device name : String) : Step w (w.apply (w.catalog.reconcile device name))
  | copy {w t t' c' object copy}
      (ht : w.activeTransaction? = some t) (hobject : object.isTransactional = false)
      (h : t.ensureMapped w.catalog object = .ok (t', c', copy)) : Step w (w.setTransaction t' c')
  | bind (w : Workspace) (op : Operator) (body : Plan) : Step w (w.bind op (.plan body))
  | note {w name tv} (references : List String)
      (h : w.catalog.object? name = some (.tableVar tv)) (hderived : tv.isDerived) :
      Step w (w.noteReferences name references)

/-- A workspace later on, with single changes that lead to it. -/
structure Advances (F : Findings) (w w' : Workspace) : Prop where
  evolves : w.Evolves F w'
  steps : Relation.ReflTransGen Step w w'

namespace Advances

variable {F G : Findings} {w w' w'' : Workspace}

theorem refl (w : Workspace) : w.Advances F w :=
  ⟨.refl w, .refl⟩

theorem trans (h : w.Advances F w') (h' : w'.Advances F w'') : w.Advances F w'' :=
  ⟨h.evolves.trans h'.evolves, h.steps.trans h'.steps⟩

theorem imp (h : w.Advances F w') (hFG : F.Implies G) : w.Advances G w' :=
  ⟨h.evolves.imp hFG, h.steps⟩

theorem of_memories (h : w'.withoutCaches = w.withoutCaches) : w.Advances F w' :=
  ⟨.of_eq (congrArg catalog h :) (congrArg operatorStates h :), .single (.remember h)⟩

end Advances

end Workspace

/-! ### Resolutions -/

/-- An object stands in the catalog under its name. -/
def CatalogObject.Stands (object : CatalogObject) (w : Workspace) : Prop :=
  w.catalog.object? object.name = some object

theorem eq_of_staleTableVar? {obj : CatalogObject} {tv : TableVar}
    (h : staleTableVar? obj = some tv) : obj = .tableVar tv ∧ tv.isDerived ∧ tv.isStale := by
  cases obj with
  | scalarType => cases h
  | tableVar other =>
    rw [staleTableVar?] at h
    split at h
    · rename_i hstale
      cases h
      exact ⟨rfl, Bool.and_eq_true_iff.mp hstale⟩
    · cases h

/-- Resolutions that lead from workspaces whose objects stand under their names to what they may be later
on. -/
def Contract.advancing (F : Findings) : Contract where
  Holds w := w.catalog.IsKeyed
  Leads w w' := w.Advances F w'
  refl := .refl
  trans := .trans
  keeps h := h.evolves.catalog.keyed

namespace Advancing

variable {F : Findings} (opts : ResolutionOptions) (scope : PlanScope) (name : String)

theorem findObject : (Contract.advancing F).Met (Relational.findObject opts scope name) fun found w =>
      ∀ obj ∈ found, obj.Stands w := by
  have hfinds : (Contract.advancing F).Finds opts scope (fun _ => True) CatalogObject.Stands :=
    .of_resolveName (fun hw hfound => Catalog.IsKeyed.object?_of_resolveName hw hfound) fun {w _} _ _ =>
      ⟨w.evolves_apply (w.catalog.evolves_reconcile _ _), .single (.reconcile w _ _)⟩
  exact hfinds.findObject trivial

theorem copyObject (obj : CatalogObject) :
    (Contract.advancing F).Met (Relational.copyObject obj) fun _ _ => True :=
  fun _ _ => .copyObject (fun _ => trivial) fun ht hobj hmapped =>
    ⟨⟨⟨Catalog.evolves_ensureMapped hmapped, fun _ => .inl rfl⟩, .single (.copy ht hobj hmapped)⟩,
      trivial⟩

theorem selectOperator (call : Call) (isExact : Bool) :
    (Contract.advancing F).Met (Relational.selectOperator opts scope name call isExact) fun _ _ => True :=
  have hselects : (Contract.advancing F).Selects call isExact (fun _ => True) fun _ => True :=
    .of_memories .of_memories (fun _ _ => trivial) fun _ _ _ _ _ _ _ _ => trivial
  hselects.selectOperator opts (Contract.findOverloads (fun _ _ => trivial) (fun _ _ => trivial)
    (Contract.findDeclaredOverloads fun _ _ => trivial))

end Advancing

end Relational
