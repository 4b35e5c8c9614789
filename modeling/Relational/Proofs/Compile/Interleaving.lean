import Relational.Proofs.Compile.Recompilation

/-!
# Transactions side by side

Sessions look up names in one catalog, in any order, each inside a transaction of its own. The copies of
all transactions stand in that catalog, under names that begin alike and are refused when they are taken.
A transaction finds a copy through the names that it hides, and every other name designates an object that
belongs to no transaction. So no session is ever answered a copy of another, and a table variable is copied
once in a transaction.
-/

namespace Relational

open Compiling List

variable {b b' : Builder} {entry : String × String}

/-- Whether a name begins like those that transactions make up. -/
def Name.isReserved (name : String) : Bool :=
  startsWith name "AT_"

theorem Transaction.isReserved_privateName (t : Transaction) (name : String) :
    Name.isReserved (t.privateName name) := by
  simp [Name.isReserved, Name.startsWith, privateName]

variable {name : String}

theorem Name.isReserved_qualified {space : String} (hspace : isReserved space = false)
    (hname : isReserved name = false) : isReserved (qualified space name) = false := by
  unfold qualified
  split
  · exact hname
  · simp only [isReserved, startsWith, String.toList_append] at hspace ⊢
    -- a dot stands where a shorter namespace ends, and no reserved name has one there
    rcases hchars : space.toList with _ | ⟨a, _ | ⟨b, _ | ⟨d, rest⟩⟩⟩
    · simp [isPrefixOf]
    · simp [isPrefixOf]
    · simp [isPrefixOf]
    · simpa [hchars, isPrefixOf] using hspace

/-! ### Catalogs -/

/-- A catalog with one object of each name, in which the objects of transactions have reserved names. Devices
hold none of them. -/
structure Catalog.Tidy (c : Catalog) : Prop where
  keyed : c.IsKeyed
  distinct : (c.objects.map Prod.fst).Nodup
  reserved : ∀ entry ∈ c.objects, entry.2.isTransactional → Name.isReserved entry.1
  pending : ∀ tv, c.IsPending tv → tv.isTransactional = false

/-- The copies of transactions in a catalog stay as they are. -/
def Catalog.Spares (c c' : Catalog) : Prop :=
  ∀ name tv, c.object? name = some (.tableVar tv) → tv.isTransactional → tv.isDerived = false →
    c'.object? name = some (.tableVar tv)

variable {obj : CatalogObject} {t : Transaction} {α : Type} {pos : Position} {binding : Binding}
  {w : Workspace} {F : Findings}

namespace Catalog

variable {c c' : Catalog}

theorem Tidy.append (h : c.Tidy) (tv : TableVar) (hfree : c.object? tv.name = none)
    (htv : tv.isTransactional → Name.isReserved tv.name)
    (hobjs : c'.objects = c.objects ++ [(tv.name, .tableVar tv)])
    (hpending : ∀ tv, c'.IsPending tv → c.IsPending tv) : c'.Tidy where
  keyed entry hentry := by
    rw [hobjs, mem_append, mem_singleton] at hentry
    obtain hentry | rfl := hentry
    · exact h.keyed entry hentry
    · rfl
  distinct := by
    rw [hobjs, map_append, nodup_append]
    refine ⟨h.distinct, by simp, fun name hname other hother => ?_⟩
    obtain ⟨entry, hentry, rfl⟩ := mem_map.mp hname
    obtain rfl : other = tv.name := by simpa using hother
    intro hsame
    have htaken := object?_isSome_of_mem hentry
    simp [hsame, hfree] at htaken
  reserved entry hentry hown := by
    rw [hobjs, mem_append, mem_singleton] at hentry
    obtain hentry | rfl := hentry
    · exact h.reserved entry hentry hown
    · exact htv hown
  pending tv htv := h.pending tv (hpending tv htv)

theorem Tidy.reconcile (h : c.Tidy) (dev name : String) : (c.reconcile dev name).catalog.Tidy := by
  have hpending := (c.evolves_reconcile (F := .any) dev name).pending
  obtain heq | ⟨d, tv, hd, htv, ⟨_, heq⟩ | ⟨hfree, heq⟩⟩ := c.reconcile_cases dev name
  all_goals rw [heq] at hpending ⊢
  · exact h
  · exact ⟨h.keyed, h.distinct, h.reserved, fun tv htv => h.pending tv (hpending tv htv)⟩
  · exact h.append tv hfree (by simp [h.pending _ (isPending_of_pending? hd htv)]) rfl hpending

theorem Tidy.updateTableVar (h : c.Tidy) (name : String) (refs : List String) :
    (c.updateTableVar name (·.setReferences refs)).Tidy where
  keyed := h.keyed.updateTableVar name fun _ => rfl
  distinct := by
    have hkeys : (c.updateTableVar name (·.setReferences refs)).objects.map Prod.fst =
        c.objects.map Prod.fst := by
      unfold Catalog.updateTableVar
      rw [map_map]
      exact map_congr_left fun ⟨key, obj⟩ _ => by cases obj <;> rfl
    rw [hkeys]
    exact h.distinct
  reserved entry hentry hown := by
    obtain ⟨⟨key, type | tv⟩, hmem, rfl⟩ := mem_map.mp hentry
    · exact h.reserved _ hmem hown
    · refine h.reserved (key, .tableVar tv) hmem ?_
      dsimp only at hown
      split at hown <;> exact hown
  pending := h.pending

theorem Tidy.isTransactional_of_resolveName (h : c.Tidy) {path : ResolutionPath}
    (hname : Name.isReserved name = false) (hfound : c.resolveName name path = .one obj) :
    obj.isTransactional = false := by
  obtain ⟨key, hobj, rfl | hkey⟩ := exists_of_findDesignated hfound
  · rw [Bool.eq_false_iff]
    intro hown
    have hreserved : Name.isReserved key := h.reserved _ (mem_of_lookup hobj) hown
    simp [hname] at hreserved
  · obtain ⟨entry, hentry, rfl⟩ := mem_map.mp (mem_filter.mp (mem_of_designate hkey)).1
    obtain ⟨hentry, hpublic⟩ := mem_filter.mp hentry
    have hsame : (entry.1, obj) = entry :=
      inj_on_of_nodup_map h.distinct (mem_of_lookup hobj) hentry rfl
    rw [← hsame] at hpublic
    simp_all [CatalogObject.isPrivate]

theorem Evolves.spares (h : c.Evolves F c') : c.Spares c' := by
  intro name tv htv _ hstored
  obtain ⟨_, hobj', hsettles⟩ := h.objects name _ htv
  obtain ⟨_, rfl, rfl | ⟨hderived, -⟩⟩ := hsettles.tableVar
  · exact hobj'
  · simp [hstored] at hderived

theorem Evolves.object?_eq_none (h : c.Evolves F c') (hnone : c'.object? name = none) :
    c.object? name = none := by
  rw [Option.eq_none_iff_forall_ne_some]
  intro obj hobj
  obtain ⟨_, hsome, -⟩ := h.objects name obj hobj
  simp [hnone] at hsome

end Catalog

/-! ### Steps of a workspace -/

/-- The copies of a transaction stand in a catalog, under the names made up for what they are copies of. -/
def Transaction.Owns (t : Transaction) (c : Catalog) : Prop :=
  ∀ entry ∈ t.tables, entry.2 = t.privateName entry.1 ∧ ∃ source : TableVar,
    source.name = entry.1 ∧ c.object? entry.2 = some (.tableVar (source.copyOf entry.2))

theorem Transaction.Owns.mono {c c' : Catalog} (h : t.Owns c) (hc : c.Spares c') : t.Owns c' := by
  intro entry hentry
  obtain ⟨hname, src, hsrc, hcopy⟩ := h entry hentry
  exact ⟨hname, src, hsrc, hc _ _ hcopy rfl rfl⟩

namespace Workspace

/-- The names of the copies of the innermost transaction by the names that they hide. -/
def owned (w : Workspace) : Aliases :=
  (w.transaction?.map Transaction.tables).getD []

/-- The innermost transaction hides a name with an object. -/
def Grants (w : Workspace) (object : CatalogObject) : Prop :=
  ∃ entry ∈ w.owned, w.catalog.object? entry.2 = some object

/-- A workspace with a tidy catalog, in which no alias stands for a reserved name and the innermost
transaction owns its copies. -/
structure Tidy (w : Workspace) : Prop where
  catalog : w.catalog.Tidy
  aliases : ∀ s ∈ w.session, ∀ entry ∈ s.objects, Name.isReserved entry.2 = false
  owns : ∀ t ∈ w.transaction?, t.Owns w.catalog

/-- A workspace later on, for the copies in it: they stay, and those that the innermost transaction has more
of have names that were free. -/
structure Extends (w w' : Workspace) : Prop where
  names : ∀ name, w'.catalog.object? name = none → w.catalog.object? name = none
  spares : w.catalog.Spares w'.catalog
  session : w'.session.isSome = w.session.isSome
  active : w'.activeTransaction?.isSome = w.activeTransaction?.isSome
  kept : w.owned ⊆ w'.owned
  free : ∀ entry ∈ w'.owned, entry ∈ w.owned ∨ w.catalog.object? entry.2 = none

variable {w' w'' : Workspace} {t' : Transaction} {c' : Catalog}

theorem owned_of_transaction? (h : w.transaction? = some t) : w.owned = t.tables := by
  rw [owned, h]
  rfl

theorem mem_owned : entry ∈ w.owned ↔ ∃ t ∈ w.transaction?, entry ∈ t.tables := by
  unfold owned
  cases w.transaction? <;> simp

theorem Extends.refl (w : Workspace) : w.Extends w :=
  ⟨fun _ h => h, fun _ _ h _ _ => h, rfl, rfl, fun _ h => h, fun _ h => .inl h⟩

theorem Extends.trans (h : w.Extends w') (h' : w'.Extends w'') : w.Extends w'' where
  names name hnone := h.names name (h'.names name hnone)
  spares name tv htv hown hstored := h'.spares name tv (h.spares name tv htv hown hstored) hown hstored
  session := h'.session.trans h.session
  active := h'.active.trans h.active
  kept _ hentry := h'.kept (h.kept hentry)
  free entry hentry := (h'.free entry hentry).elim (h.free entry) fun hnone => .inr (h.names _ hnone)

/-- What the innermost transaction hides a name with is its copy of the table variable of that name. -/
theorem Tidy.exists_of_grants (hw : w.Tidy) (h : w.Grants obj) :
    ∃ t ∈ w.transaction?, ∃ src : TableVar, obj = .tableVar (src.copyOf (t.privateName src.name)) ∧
        (src.name, t.privateName src.name) ∈ w.owned ∧
          w.catalog.object? (t.privateName src.name) = some obj := by
  obtain ⟨⟨name, global⟩, hentry, hobj⟩ := h
  obtain ⟨t, ht, hmem⟩ := mem_owned.mp hentry
  have howns := hw.owns t ht _ hmem
  dsimp only at howns hobj
  obtain ⟨rfl, src, rfl, hcopy⟩ := howns
  exact ⟨t, ht, src, Option.some.inj (hobj.symm.trans hcopy), hentry, hobj⟩

theorem Grants.mono (h : w.Grants obj) (hw : w.Tidy) (hext : w.Extends w') : w'.Grants obj := by
  obtain ⟨_, -, src, rfl, hentry, hobj⟩ := hw.exists_of_grants h
  exact ⟨_, hext.kept hentry, hext.spares _ _ hobj rfl rfl⟩

theorem Tidy.change_catalog (hw : w.Tidy) (hsess : w'.session = w.session)
    (htidy : w'.catalog.Tidy) (hspares : w.catalog.Spares w'.catalog)
    (hnames : ∀ name, w'.catalog.object? name = none → w.catalog.object? name = none) :
    w'.Tidy ∧ w.Extends w' := by
  have htx : w'.transaction? = w.transaction? := by rw [transaction?, hsess, transaction?]
  have howned : w'.owned = w.owned := by rw [owned, htx, owned]
  refine ⟨⟨htidy, hsess ▸ hw.aliases, fun t ht => (hw.owns t (htx ▸ ht)).mono hspares⟩,
    hnames, hspares, by rw [hsess], ?_, ?_, ?_⟩
  · rw [activeTransaction?, htx, activeTransaction?]
  · rw [howned]
    exact fun _ h => h
  · rw [howned]
    exact fun _ h => .inl h

theorem transaction?_of_active (h : w.activeTransaction? = some t) : w.transaction? = some t :=
  (Option.filter_eq_some_iff.mp h).1

theorem setTransaction_self (h : w.transaction? = some t) : w.setTransaction t w.catalog = w := by
  rcases w with ⟨_, _, _ | ⟨_, _, _ | ⟨_, _⟩⟩, _, _⟩
  · cases h
  · cases h
  · cases h
    rfl

theorem transaction?_setTransaction (h : w.transaction? = some t) (t' : Transaction) (c' : Catalog) :
    (w.setTransaction t' c').transaction? = some t' := by
  obtain ⟨s, hs, -⟩ := Option.bind_eq_some_iff.mp h
  simp [transaction?, setTransaction, hs, Session.transaction?, Session.setTransaction]

theorem mem_putEntry_of_mem {entries : List (String × α)} {entry : String × α} {key : String}
    {val : α} (h : entry ∈ entries) (hkey : entry.1 = key → entry = (key, val)) :
    entry ∈ putEntry entries key val := by
  unfold putEntry
  split
  · refine mem_map.mpr ⟨entry, h, ?_⟩
    split
    · exact (hkey (eq_of_beq ‹(entry.1 == key) = true›)).symm
    · rfl
  · exact mem_append_left _ h

theorem Tidy.addCopy (hw : w.Tidy) (ht : w.transaction? = some t) {tv : TableVar}
    (hadd : w.catalog.addObject (.tableVar (tv.copyOf (t.privateName tv.name))) = .ok c') :
    let w' := w.setTransaction { t with tables := t.tables.set tv.name (t.privateName tv.name) } c'
    w'.Tidy ∧ w.Extends w' ∧ w'.Grants (.tableVar (tv.copyOf (t.privateName tv.name))) := by
  intro w'
  have hevolves : w.catalog.Evolves .any c' := Catalog.evolves_addObject hadd rfl
  have ht' : w'.transaction? = some { t with tables := t.tables.set tv.name (t.privateName tv.name) } :=
    transaction?_setTransaction ht _ c'
  obtain ⟨hfree, rfl⟩ : w.catalog.object? (t.privateName tv.name) = none ∧ c' = w.catalog.append
      [(t.privateName tv.name, .tableVar (tv.copyOf (t.privateName tv.name)))] :=
    Catalog.eq_of_addObject hadd
  have hcopy : w'.catalog.object? (t.privateName tv.name) =
      some (.tableVar (tv.copyOf (t.privateName tv.name))) := by
    simp [w', setTransaction, Catalog.object?_append, hfree]
  have howned : w'.owned = t.tables.set tv.name (t.privateName tv.name) := owned_of_transaction? ht'
  have howns := (hw.owns t ht).mono hevolves.spares
  refine ⟨⟨?_, ?_, ?_⟩, ⟨?_, hevolves.spares, ?_, ?_, ?_, ?_⟩, ?_⟩
  · exact hw.catalog.append (tv.copyOf (t.privateName tv.name)) hfree
      (fun _ => t.isReserved_privateName tv.name) rfl fun _ h => h
  · intro s' hs'
    obtain ⟨s, hs, rfl⟩ := Option.map_eq_some_iff.mp hs'
    exact hw.aliases s hs
  · intro _ hsome
    obtain rfl := Option.some.inj (ht'.symm.trans hsome)
    intro entry hentry
    obtain rfl | hentry := mem_putEntry hentry
    · exact ⟨rfl, tv, rfl, hcopy⟩
    · exact howns entry hentry
  · exact fun _ => hevolves.object?_eq_none
  · simp [w', setTransaction]
  · have hactive : t.isActive =
        { t with tables := t.tables.set tv.name (t.privateName tv.name) }.isActive := rfl
    rw [activeTransaction?, ht', activeTransaction?, ht, Option.filter_some, Option.filter_some, hactive]
    split <;> rfl
  · rw [howned, owned_of_transaction? ht]
    refine fun entry hentry => mem_putEntry_of_mem hentry fun hkey => ?_
    exact Prod.ext hkey (hkey ▸ (hw.owns t ht entry hentry).1)
  · rw [howned, owned_of_transaction? ht]
    intro entry hentry
    obtain rfl | hentry := mem_putEntry hentry
    · exact .inr hfree
    · exact .inl hentry
  · refine ⟨(tv.name, t.privateName tv.name), ?_, hcopy⟩
    rw [howned]
    exact mem_of_lookup ((lookup_putEntry _ _ _ _).trans (if_pos rfl))

/-- Each single change keeps a workspace tidy. -/
theorem Step.tidy (h : Step w w') (hw : w.Tidy) : w'.Tidy ∧ w.Extends w' := by
  cases h with
  | remember h =>
    have hcat : w'.catalog = w.catalog := (congrArg Workspace.catalog h :)
    exact hw.change_catalog (congrArg Workspace.session h :) (hcat ▸ hw.catalog)
      (fun _ _ h _ _ => hcat ▸ h) fun _ h => hcat ▸ h
  | reconcile dev name =>
    have happly := w.withoutCaches_apply (w.catalog.reconcile dev name)
    have hcat : (w.apply (w.catalog.reconcile dev name)).catalog =
        (w.catalog.reconcile dev name).catalog := (congrArg Workspace.catalog happly :)
    have hevolves := w.catalog.evolves_reconcile (F := .any) dev name
    refine hw.change_catalog (congrArg Workspace.session happly :) ?_ ?_ ?_
    all_goals rw [hcat]
    · exact hw.catalog.reconcile dev name
    · exact hevolves.spares
    · exact fun _ => hevolves.object?_eq_none
  | copy ht hobj h =>
    have ht := transaction?_of_active ht
    obtain ⟨rfl, rfl, -⟩ | ⟨tv, -, hadd, rfl, -⟩ := Transaction.ensureMapped_cases h
    · rw [setTransaction_self ht]
      exact ⟨hw, .refl w⟩
    · obtain ⟨htidy, hext, -⟩ := hw.addCopy ht hadd
      exact ⟨htidy, hext⟩
  | bind op body => exact hw.change_catalog rfl hw.catalog (fun _ _ h _ _ => h) fun _ h => h
  | @note name tv refs h hderived =>
    have hlookup : ∀ key, (w.noteReferences name refs).catalog.object? key = _ :=
      fun key => w.catalog.object?_updateTableVar name key _
    refine hw.change_catalog rfl (hw.catalog.updateTableVar name refs)
      (fun key other hother _ hstored => ?_) fun key hnone => ?_
    · have hkey : key ≠ name := by
        rintro rfl
        cases h.symm.trans hother
        simp [hderived] at hstored
      rw [hlookup, if_neg hkey, hother]
      rfl
    · rw [hlookup, Option.map_eq_none_iff] at hnone
      exact hnone

/-- Changes keep a workspace tidy. -/
theorem Tidy.steps (hw : w.Tidy) (h : Relation.ReflTransGen Step w w') : w'.Tidy ∧ w.Extends w' := by
  induction h with
  | refl => exact ⟨hw, .refl w⟩
  | tail _ hstep ih =>
    obtain ⟨htidy, hext⟩ := hstep.tidy ih.1
    exact ⟨htidy, ih.2.trans hext⟩

end Workspace

/-! ### Lookups -/

theorem Transaction.exists_mem_of_tableName? {global : String} (h : t.tableName? name = some global) :
    ∃ entry ∈ t.tables, entry.2 = global := by
  unfold tableName? designated? at h
  split at h
  · cases h
    exact ⟨_, mem_of_lookup ‹_›, rfl⟩
  · split at h
    · rename_i hfilter
      cases h
      exact ⟨_, (mem_filter.mp (hfilter ▸ mem_singleton_self _)).1, rfl⟩
    · cases h

/-- Resolutions that lead from tidy workspaces by single changes. -/
def Contract.tidy : Contract where
  Holds w := w.Tidy
  Leads := Relation.ReflTransGen Workspace.Step
  refl _ := .refl
  trans := .trans
  keeps h hw := (hw.steps h).1

namespace Workspace

variable {w' : Workspace}

theorem Tidy.eq_of_resolveName (hw : w.Tidy) (ht : w.transaction? = some t) (hentry : entry ∈ t.tables)
    (hfound : w.catalog.resolveName entry.2 [] = .one obj) :
    w.Grants obj ∧ ∃ src : TableVar, obj = .tableVar (src.copyOf entry.2) := by
  obtain ⟨-, src, -, hcopy⟩ := hw.owns t ht entry hentry
  have hobj : obj = .tableVar (src.copyOf entry.2) := by
    rw [Catalog.resolveName, findDesignated, hcopy] at hfound
    exact (Found.one.inj hfound).symm
  exact ⟨⟨entry, mem_owned.mpr ⟨t, ht, hentry⟩, hobj ▸ hcopy⟩, src, hobj⟩

theorem finds_tidy {opts : ResolutionOptions} {scope : PlanScope}
    (hspace : Name.isReserved opts.space = false)
    (hscope : ∀ entry ∈ scope.objects, Name.isReserved entry.2 = false) :
    Contract.tidy.Finds opts scope (fun name => Name.isReserved name = false) fun obj w =>
      obj.Stands w ∧ (obj.isTransactional → w.Grants obj) where
  plain hw hname hfound := by
    refine ⟨hw.catalog.keyed.object?_of_resolveName hfound, fun hown => ?_⟩
    simp [hw.catalog.isTransactional_of_resolveName hname hfound] at hown
  qualified hw hname hfound := by
    refine ⟨hw.catalog.keyed.object?_of_resolveName hfound, fun hown => ?_⟩
    simp [hw.catalog.isTransactional_of_resolveName (Name.isReserved_qualified hspace hname) hfound]
      at hown
  hidden hw hprivate hfound := by
    obtain ⟨t, ht, hglobal⟩ := Option.bind_eq_some_iff.mp hprivate
    obtain ⟨entry, hentry, rfl⟩ := Transaction.exists_mem_of_tableName? hglobal
    exact ⟨hw.catalog.keyed.object?_of_resolveName hfound, fun _ =>
      (hw.eq_of_resolveName (transaction?_of_active ht) hentry hfound).1⟩
  followed {w name global} hw _ halias := by
    unfold findAlias at halias
    split at halias
    · cases halias
      exact hscope _ (mem_of_lookup ‹_›)
    · obtain ⟨s, hs, hglobal⟩ := Option.bind_eq_some_iff.mp halias
      exact hw.aliases s hs _ (mem_of_lookup hglobal)
  reconciled {w name} _ _ := .single (.reconcile w _ name)

/-- What is answered: if it belongs to a transaction, then to the innermost one; and while that is active,
it is nothing of which there should be a copy. -/
def HandsOut (w : Workspace) (object : CatalogObject) : Prop :=
  (object.isTransactional → w.Grants object) ∧ (w.activeTransaction?.isSome → object.isCopied = false)

theorem handsOut_copyObject (hw : w.Tidy) (hobj : obj.isTransactional → w.Grants obj) :
    Contract.tidy.MetAt w (copyObject obj) fun copy w' => w'.HandsOut copy := by
  refine .copyObject (fun hsame => ⟨hobj, fun hactive => ?_⟩) fun ht hown hmapped => ?_
  · obtain hinactive | hown := hsame
    · simp [hinactive] at hactive
    · cases obj with
      | scalarType => rfl
      | tableVar tv => simp_all [CatalogObject.isCopied, CatalogObject.isTransactional]
  · refine ⟨.single (.copy ht hown hmapped), ?_⟩
    have ht := transaction?_of_active ht
    have hcopied : ∀ (src : TableVar) (name : String),
        (CatalogObject.tableVar (src.copyOf name)).isCopied = false := by
      simp [CatalogObject.isCopied, TableVar.copyOf]
    obtain ⟨rfl, rfl, ⟨rfl, hkept⟩ | ⟨tv, global, -, hglobal, hfound⟩⟩ | ⟨tv, -, hadd, rfl, rfl⟩ :=
      Transaction.ensureMapped_cases hmapped
    · rw [setTransaction_self ht]
      exact ⟨hobj, fun _ => hkept⟩
    · obtain ⟨hgrants, src, rfl⟩ := hw.eq_of_resolveName ht (mem_of_lookup hglobal) hfound
      rw [setTransaction_self ht]
      exact ⟨fun _ => hgrants, fun _ => hcopied src _⟩
    · exact ⟨fun _ => (hw.addCopy ht hadd).2.2, fun _ => hcopied tv _⟩

end Workspace

theorem exists_of_resolve_ok {act : Resolving α} {val : α}
    (h : (MonadResolving.resolve act : Compiling α) b = (.ok val, b')) :
    ∃ w', act b.workspace = (.ok val, w') ∧ b' = { b with workspace := w' } := by
  obtain ⟨hval, rfl⟩ := Prod.mk.inj h
  exact ⟨_, Prod.ext hval rfl, rfl⟩

theorem exists_of_lookUp_ok {e : Environment}
    (h : lookUp e binding pos name b = (.ok (some (.object obj)), b')) :
    ∃ found w₁, findObject e.options.resolution b.scope name b.workspace = (.ok (some found), w₁) ∧
      bindObject e.infer found { b with workspace := w₁ } = (.ok obj, b') := by
  change at_ pos (resolveName _ b.scope (some b.stack) e.infer binding name) b = _ at h
  have hname : resolveName e.options.resolution b.scope (some b.stack) e.infer binding name b =
      (.ok (some (.object obj)), b') := by
    unfold at_ at h
    split at h
    · rename_i hok
      rw [hok, h]
    · cases h
  obtain ⟨sym, b₁, hsym, hnext⟩ := exists_of_bind_ok hname
  obtain ⟨w₁, hfound, rfl⟩ := exists_of_resolve_ok hsym
  -- symbols come first, and nothing is changed to look for them
  obtain ⟨hsame, hsyms, -⟩ := Contract.findSymbol (C := .still fun _ => True) b.stack binding name
    b.workspace trivial
  rw [hfound] at hsame hsyms
  obtain rfl : w₁ = b.workspace := hsame
  split at hnext
  · obtain ⟨_, _, _, rfl, -⟩ := hsyms _ rfl _ rfl
    cases hnext
  · cases hnext
  · obtain ⟨found, b₂, hobj, hnext⟩ := exists_of_bind_ok hnext
    obtain ⟨w₂, hfound, rfl⟩ := exists_of_resolve_ok hobj
    cases found with
    | none => cases hnext
    | some found =>
      obtain ⟨_, _, hbind, hpure⟩ := exists_of_bind_ok hnext
      cases hpure
      exact ⟨found, w₂, hfound, hbind⟩

namespace Workspace

theorem answers_of_lookUp {c : Compiler} {depth : Nat} (hb : b.workspace.Tidy)
    (hname : Name.isReserved name = false) (hspace : Name.isReserved c.options.resolution.space = false)
    (hscope : ∀ entry ∈ b.scope.objects, Name.isReserved entry.2 = false)
    (h : lookUp (c.environment depth) binding pos name b = (.ok (some (.object obj)), b')) :
    b'.workspace.HandsOut obj := by
  obtain ⟨found, w₁, hfind, hbind⟩ := exists_of_lookUp_ok h
  rw [c.options_environment] at hfind
  obtain ⟨hsteps, hval, -⟩ := (finds_tidy hspace hscope).findObject hname b.workspace hb
  rw [hfind] at hsteps hval
  obtain ⟨hstands, hgrants⟩ := hval _ rfl found rfl
  obtain ⟨hw₁, -⟩ := hb.steps hsteps
  have hcopied : ∀ {obj₁ : CatalogObject} {b₁ : Builder}, b₁.workspace.Tidy →
      (obj₁.isTransactional → b₁.workspace.Grants obj₁) →
      (MonadResolving.resolve (copyObject obj₁) : Compiling CatalogObject) b₁ = (.ok obj, b') →
        b'.workspace.HandsOut obj := by
    intro obj₁ b₁ hb₁ hobj₁ hcopy
    obtain ⟨w', hrun, rfl⟩ := exists_of_resolve_ok hcopy
    have hhands := (handsOut_copyObject hb₁ hobj₁).value obj
    rw [hrun] at hhands
    exact hhands rfl
  unfold bindObject at hbind
  cases hstale : staleTableVar? found with
  | none =>
    rw [hstale] at hbind
    exact hcopied hw₁ hgrants hbind
  | some tv =>
    rw [hstale] at hbind
    obtain ⟨rfl, hderived, hstale⟩ := eq_of_staleTableVar? hstale
    obtain ⟨_, b₂, hinfer, hnext⟩ := exists_of_bind_ok hbind
    obtain ⟨obj₂, b₃, hrefreshed, hcopy⟩ := exists_of_bind_ok hnext
    cases hrefreshed
    have hturns := (c.settles_environment depth).infer tv { b with workspace := w₁ } hw₁.catalog.keyed
      hstands hderived hstale
    rw [hinfer] at hturns
    refine hcopied (hw₁.steps hturns.steps).1 (fun hown => ?_) hcopy
    -- a derived table variable is no copy, also once it is known what it reads
    obtain ⟨_, hobj, hsettles⟩ := hturns.evolves.catalog.objects _ _ hstands
    obtain ⟨tv', rfl, hlater⟩ := hsettles.tableVar
    have hsame : tv'.isTransactional = tv.isTransactional := by
      obtain rfl | ⟨-, -, _, -, rfl⟩ := hlater <;> rfl
    rw [show b₂.workspace.catalog.object? (CatalogObject.tableVar tv).name = _ from hobj] at hown
    obtain ⟨t, -, src, hcopy, -⟩ := hw₁.exists_of_grants (hgrants (hsame.symm.trans hown))
    cases hcopy
    cases hderived

end Workspace

/-! ### Sessions side by side -/

/-- A workspace that sessions share. -/
structure Sharing (ι : Type) where
  workspace : Workspace
  sessions : ι → Session

/-- What is asked for: a name at a position of a program, by the compiler of the program in its state. -/
structure Request where
  compiler : Compiler
  depth : Nat
  builder : Builder
  binding : Binding
  position : Position
  name : String

namespace Request

/-- What is answered, and the state of the program after it, where a workspace is the one of the program. -/
def answer (r : Request) (w : Workspace) : Except Abort (Option ResolvedName) × Builder :=
  lookUp (r.compiler.environment r.depth) r.binding r.position r.name { r.builder with workspace := w }

/-- Neither the name, nor the namespace, nor what an alias of the program stands for is reserved. -/
structure IsPlain (r : Request) : Prop where
  name : Name.isReserved r.name = false
  space : Name.isReserved r.compiler.options.resolution.space = false
  aliases : ∀ entry ∈ r.builder.scope.objects, Name.isReserved entry.2 = false

end Request

/-- What was answered to sessions so far. -/
abbrev Answered (ι : Type) := List (ι × Except Abort (Option ResolvedName))

/-- A table variable was answered to a session. -/
def Answered.Has {ι : Type} (answers : Answered ι) (i : ι) (tv : TableVar) : Prop :=
  (i, .ok (some (.object (.tableVar tv)))) ∈ answers

namespace Sharing

variable {ι : Type} [DecidableEq ι]

/-- The workspace as a session sees it. -/
def view (s : Sharing ι) (i : ι) : Workspace :=
  { s.workspace with session := some (s.sessions i) }

/-- The shared workspace once a request of a session is answered. -/
def resolve (s : Sharing ι) (i : ι) (r : Request) : Sharing ι where
  workspace := (r.answer (s.view i)).2.workspace
  sessions := Function.update s.sessions i ((r.answer (s.view i)).2.workspace.session.getD {})

/-- What becomes of a shared workspace while plain requests of its sessions are answered, one at a time and
in any order. In between the workspace may change in any way that leaves the catalog tidy and spares the
copies. -/
inductive Run (s : Sharing ι) : Answered ι → Sharing ι → Prop where
  | start : Run s [] s
  | resolve {answers s'} (h : Run s answers s') (i : ι) {r : Request}
      (hr : r.IsPlain) : Run s (answers ++ [(i, (r.answer (s'.view i)).1)]) (s'.resolve i r)
  | alter {answers s'} (h : Run s answers s') {w : Workspace}
      (htidy : w.catalog.Tidy) (hspares : s'.workspace.catalog.Spares w.catalog) :
      Run s answers { s' with workspace := w }

/-- A workspace that sessions begin to share: the catalog is tidy, no alias stands for a reserved name, and
no transaction has copies yet. -/
structure Begins (s : Sharing ι) : Prop where
  catalog : s.workspace.catalog.Tidy
  aliases : ∀ i, ∀ entry ∈ (s.sessions i).objects, Name.isReserved entry.2 = false
  empty : ∀ i, ∀ t ∈ (s.sessions i).transaction?, t.tables = []

/-- What holds after any requests: each session has a tidy view, no two of them own a copy of one name, and
what was answered to a session is its own. -/
structure Sound (s : Sharing ι) (answers : Answered ι) (s' : Sharing ι) : Prop where
  tidy : ∀ i, (s'.view i).Tidy
  apart : ∀ i j, i ≠ j → ∀ entry ∈ (s'.view i).owned, ∀ entry' ∈ (s'.view j).owned, entry.2 ≠ entry'.2
  active : ∀ i, (s'.view i).activeTransaction?.isSome = (s.view i).activeTransaction?.isSome
  own : ∀ i tv, answers.Has i tv → tv.isTransactional → (s'.view i).Grants (.tableVar tv)
  copied : ∀ i tv, answers.Has i tv → (s.view i).activeTransaction?.isSome →
    (CatalogObject.tableVar tv).isCopied = false

variable {s s' : Sharing ι} {answers : Answered ι}

omit [DecidableEq ι] in
theorem Begins.sound (h : s.Begins) : s.Sound [] s where
  tidy i := by
    refine ⟨h.catalog, ?_, fun t ht entry hentry => ?_⟩
    · rintro _ ⟨⟩
      exact h.aliases i
    · rw [h.empty i t ht] at hentry
      cases hentry
  apart i j _ entry hentry := by
    obtain ⟨t, ht, hmem⟩ := Workspace.mem_owned.mp hentry
    rw [h.empty i t ht] at hmem
    cases hmem
  active _ := rfl
  own _ _ hanswer := absurd hanswer not_mem_nil
  copied _ _ hanswer := absurd hanswer not_mem_nil

theorem steps_answer (r : Request) (hw : w.Tidy) :
    Relation.ReflTransGen Workspace.Step w (r.answer w).2.workspace :=
  ((r.compiler.settles_environment r.depth).lookUp r.binding r.position r.name _ _
    ⟨rfl, .start hw.catalog.keyed rfl⟩).related.holds.turns.steps

section Requests

variable (i : ι) (r : Request)

theorem view_resolve_self (hw : (s.view i).Tidy) :
    (s.resolve i r).view i = (r.answer (s.view i)).2.workspace := by
  obtain ⟨session, hsome⟩ := Option.isSome_iff_exists.mp (hw.steps (steps_answer r hw)).2.session
  have hsess : (s.resolve i r).sessions i = (r.answer (s.view i)).2.workspace.session.getD {} :=
    Function.update_self _ _ _
  change ({ (r.answer (s.view i)).2.workspace with session := some ((s.resolve i r).sessions i) } :
    Workspace) = _
  rw [hsess, hsome, Option.getD_some, ← hsome]

theorem view_resolve_of_ne {j : ι} (hj : j ≠ i) : (s.resolve i r).view j =
    { (r.answer (s.view i)).2.workspace with session := some (s.sessions j) } := by
  have hsess : (s.resolve i r).sessions j = s.sessions j := Function.update_of_ne hj _ _
  change ({ (r.answer (s.view i)).2.workspace with session := some ((s.resolve i r).sessions j) } :
    Workspace) = _
  rw [hsess]

theorem tidy_view_resolve (h : ∀ j, (s.view j).Tidy) (j : ι) :
    ((s.resolve i r).view j).Tidy ∧ (s.view j).Extends ((s.resolve i r).view j) := by
  have hi := (h i).steps (steps_answer r (h i))
  by_cases hj : j = i
  · rw [hj, view_resolve_self i r (h i)]
    exact hi
  · rw [view_resolve_of_ne i r hj]
    exact (h j).change_catalog rfl hi.1.catalog hi.2.spares hi.2.names

theorem ne_of_owned_resolve (h : s.Sound answers s') {j : ι} (hj : j ≠ i) {entry' : String × String}
    (hentry : entry ∈ ((s'.resolve i r).view i).owned) (hentry' : entry' ∈ (s'.view j).owned) :
    entry.2 ≠ entry'.2 := by
  obtain hold | hfree := (tidy_view_resolve i r h.tidy i).2.free entry hentry
  · exact h.apart i j hj.symm entry hold entry' hentry'
  · intro hsame
    obtain ⟨t, ht, hmem⟩ := Workspace.mem_owned.mp hentry'
    obtain ⟨-, _, -, htaken⟩ := (h.tidy j).owns t ht entry' hmem
    rw [← hsame] at htaken
    exact absurd (hfree.symm.trans htaken) (by simp)

theorem Sound.resolve (h : s.Sound answers s') {r : Request} (hr : r.IsPlain) :
    s.Sound (answers ++ [(i, (r.answer (s'.view i)).1)]) (s'.resolve i r) := by
  have hviews := tidy_view_resolve i r h.tidy
  have howned : ∀ j, j ≠ i → ((s'.resolve i r).view j).owned = (s'.view j).owned := by
    intro j hj
    rw [view_resolve_of_ne i r hj]
    rfl
  have hnew : ∀ j tv, (j, .ok (some (.object (.tableVar tv)))) = (i, (r.answer (s'.view i)).1) →
      j = i ∧ ((s'.resolve i r).view i).HandsOut (.tableVar tv) := by
    intro j tv hanswer
    obtain ⟨rfl, hval⟩ := Prod.mk.inj hanswer
    rw [view_resolve_self j r (h.tidy j)]
    exact ⟨rfl, Workspace.answers_of_lookUp (b := { r.builder with workspace := s'.view j }) (h.tidy j)
      hr.name hr.space hr.aliases (Prod.ext hval.symm rfl)⟩
  refine ⟨fun j => (hviews j).1, fun j k hjk entry hentry entry' hentry' => ?_,
    fun j => (hviews j).2.active.trans (h.active j), fun j tv hanswer hown => ?_,
    fun j tv hanswer hactive => ?_⟩
  · by_cases hj : j = i
    · subst hj
      exact ne_of_owned_resolve j r h hjk.symm hentry (howned k hjk.symm ▸ hentry')
    · rw [howned j hj] at hentry
      by_cases hk : k = i
      · subst hk
        exact (ne_of_owned_resolve k r h hjk hentry' hentry).symm
      · exact h.apart j k hjk entry hentry entry' (howned k hk ▸ hentry')
  · obtain hold | hlast := mem_append.mp hanswer
    · exact (h.own j tv hold hown).mono (h.tidy j) (hviews j).2
    · obtain ⟨rfl, hhands⟩ := hnew j tv (mem_singleton.mp hlast)
      exact hhands.1 hown
  · obtain hold | hlast := mem_append.mp hanswer
    · exact h.copied j tv hold hactive
    · obtain ⟨rfl, hhands⟩ := hnew j tv (mem_singleton.mp hlast)
      exact hhands.2 (((hviews j).2.active.trans (h.active j)).trans hactive)

end Requests

omit [DecidableEq ι] in
theorem Sound.alter (h : s.Sound answers s') (htidy : w.catalog.Tidy)
    (hspares : s'.workspace.catalog.Spares w.catalog) : s.Sound answers { s' with workspace := w } where
  tidy i := ⟨htidy, (h.tidy i).aliases, fun t ht => ((h.tidy i).owns t ht).mono hspares⟩
  apart := h.apart
  active := h.active
  own i tv hanswer hown := by
    obtain ⟨_, -, src, heq, hentry, hobj⟩ := (h.tidy i).exists_of_grants (h.own i tv hanswer hown)
    rw [heq] at hobj ⊢
    exact ⟨_, hentry, hspares _ _ hobj rfl rfl⟩
  copied := h.copied

theorem Run.sound (h : s.Run answers s') (hs : s.Begins) : s.Sound answers s' := by
  induction h with
  | start => exact hs.sound
  | resolve _ i hr ih => exact ih.resolve i hr
  | alter _ htidy hspares ih => exact ih.alter htidy hspares

/-- Transactions do not see each other's copies, whatever sessions ask for, in any order, and whatever the
identifiers of their transactions are. What belongs to a transaction is answered to one session only. Of the
table variables of a name there is one copy in a transaction. While a transaction is active, its copies are
answered in place of what is stored. -/
theorem Run.copies_apart (h : s.Run answers s') (hs : s.Begins) :
    (∀ i j tv tv', answers.Has i tv → answers.Has j tv' → tv.isTransactional → tv'.isTransactional →
      i ≠ j → tv.name ≠ tv'.name) ∧
    (∀ i tv tv', answers.Has i tv → answers.Has i tv' → tv.isTransactional → tv'.isTransactional →
      tv.sourceName = tv'.sourceName → tv = tv') ∧
    ∀ i tv, answers.Has i tv → (s.view i).activeTransaction?.isSome →
      tv.isDerived ∨ tv.isSession ∨ tv.isTransactional := by
  have hsound := h.sound hs
  refine ⟨fun i j tv tv' htv htv' hown hown' hij => ?_, fun i tv tv' htv htv' hown hown' hsame => ?_,
    fun i tv htv hactive => ?_⟩
  · obtain ⟨t, -, source, heq, hentry, -⟩ := (hsound.tidy i).exists_of_grants (hsound.own i tv htv hown)
    obtain ⟨t', -, source', heq', hentry', -⟩ :=
      (hsound.tidy j).exists_of_grants (hsound.own j tv' htv' hown')
    cases heq
    cases heq'
    exact hsound.apart i j hij _ hentry _ hentry'
  · obtain ⟨t, ht, source, heq, -, hobject⟩ := (hsound.tidy i).exists_of_grants (hsound.own i tv htv hown)
    obtain ⟨t', ht', source', heq', -, hobject'⟩ :=
      (hsound.tidy i).exists_of_grants (hsound.own i tv' htv' hown')
    obtain rfl := Option.some.inj (ht.symm.trans ht')
    have hsource : source.name = source'.name := by
      rw [CatalogObject.tableVar.inj heq, CatalogObject.tableVar.inj heq'] at hsame
      exact hsame
    rw [hsource] at hobject
    exact CatalogObject.tableVar.inj (Option.some.inj (hobject.symm.trans hobject'))
  · have hcopied := hsound.copied i tv htv hactive
    simp only [CatalogObject.isCopied, Bool.not_eq_false', Bool.or_eq_true] at hcopied
    tauto

/-- Two sessions with transactions of their own, and a table `T`. -/
def twoSessions : Sharing Bool where
  workspace := { catalog := { objects := [("T", .tableVar (.base "T" (some []) "" []))] } }
  sessions second := { transactions := [{ identifier := if second then "22222222" else "11111111" }] }

/-- A request for the table. -/
def requestTable : Request where
  compiler := {}
  depth := 0
  builder := .start {} {}
  binding := .objects
  position := .none
  name := "T"

/-- Each session is answered a copy of its own, the first session the same one twice. -/
theorem Run.copies_apart_twoSessions :
    let tv := TableVar.base "T" (some []) "" []
    twoSessions.Begins ∧ ∃ answers s', twoSessions.Run answers s' ∧ answers.map Prod.fst =
        [false, true, false] ∧
      answers.Has false (tv.copyOf "AT_11111111.T") ∧ answers.Has true (tv.copyOf "AT_22222222.T") ∧
        ∀ tv', answers.Has false tv' → tv'.isTransactional → tv'.sourceName = "T" →
          tv' = tv.copyOf "AT_11111111.T" := by
  intro tv
  have hplain : requestTable.IsPlain := ⟨rfl, rfl, fun _ hentry => absurd hentry List.not_mem_nil⟩
  have hbegins : twoSessions.Begins := by
    refine ⟨⟨?_, List.nodup_singleton _, ?_, ?_⟩, fun _ _ hentry => absurd hentry List.not_mem_nil, ?_⟩
    · rintro _ (_ | ⟨_, ⟨⟩⟩)
      rfl
    · rintro _ (_ | ⟨_, ⟨⟩⟩) ⟨⟩
    · rintro _ ⟨_, ⟨⟩, _⟩
    · rintro i _ ⟨⟩
      rfl
  have hrun := ((Run.start.resolve (s := twoSessions) false hplain).resolve true hplain).resolve false hplain
  have hfirst : (requestTable.answer (twoSessions.view false)).1 =
      .ok (some (.object (.tableVar (tv.copyOf "AT_11111111.T")))) := rfl
  have hsecond : (requestTable.answer ((twoSessions.resolve false requestTable).view true)).1 =
      .ok (some (.object (.tableVar (tv.copyOf "AT_22222222.T")))) := rfl
  rw [hfirst, hsecond] at hrun
  refine ⟨hbegins, _, _, hrun, rfl, by simp [Answered.Has], by simp [Answered.Has], ?_⟩
  intro tv' htv' hown hsource
  exact (hrun.copies_apart hbegins).2.1 false tv' _ htv' (by simp [Answered.Has]) hown rfl hsource

end Sharing

end Relational
