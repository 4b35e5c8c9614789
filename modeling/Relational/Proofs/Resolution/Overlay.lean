import Relational.Proofs.Resolution.Copies

/-!
# Names inside a transaction

A transaction copies a stored table variable when a name is first resolved to it. From then on, the names
that designate the table variable lead to the copy without a look at the catalog.

So a name may lead elsewhere than outside the transaction: it may be ambiguous in the catalog, or the path
or the namespace may prefer another table variable, but of the copied ones it designates just one. Whether
a name leads to where it leads outside, whatever was resolved before, is decided by the catalog alone.
-/

namespace Relational

/-! ### Inside a transaction -/

/-- What a name designates besides symbols. -/
def resolveGlobal (options : ResolutionOptions) (path : ResolutionPath)
    (infer : TableVar → Resolving Unit) (name : String) : Resolving (Option ResolvedName) :=
  resolveName options { path } none infer .all name

namespace Workspace

/-- A workspace after a transaction was begun. -/
def begin (w : Workspace) (identifier : String) : Workspace :=
  { w with session := w.session.map (·.begin identifier) }

/-- A workspace inside a transaction in which some table variables were copied. -/
def within (w : Workspace) (session : Session) (t : Transaction) (touched : List TableVar) : Workspace :=
  { w with
    catalog := w.catalog.append (t.copies touched)
    session := some { session with transactions := t.touching touched :: session.transactions } }

/-- A workspace in which a transaction can be begun: there is a session without aliases for objects and
without an active transaction, objects stand under their names, none under a name that the transaction
makes up, and finding out what a stale table variable reads changes nothing. -/
structure Opens (w : Workspace) (session : Session) (t : Transaction)
    (infer : TableVar → Resolving Unit) : Prop where
  session_eq : w.session = some session
  objects_eq : session.objects = []
  inactive : w.activeTransaction? = none
  isActive : t.isActive = true
  isKeyed : w.catalog.IsKeyed
  fresh : ∀ name, w.catalog.object? (t.privateName name) = none
  infers : ∀ name object tv, w.catalog.object? name = some object → staleTableVar? object = some tv →
    ∃ outcome, ∀ w', infer tv w' = (outcome, w')

/-- Table variables of the catalog that a transaction copies. -/
def Touches (w : Workspace) (touched : List TableVar) : Prop :=
  ∀ tv ∈ touched, w.catalog.object? tv.name = some (.tableVar tv) ∧
    (CatalogObject.tableVar tv).isCopied = true

section Within

variable {w w' w'' : Workspace} {session : Session} {t : Transaction} {infer : TableVar → Resolving Unit}
  {touched : List TableVar} {path : ResolutionPath} {options : ResolutionOptions} {name : String}
  {obj : CatalogObject} {tv : TableVar}

theorem within_nil (hsess : w.session = some session) (identifier : String) :
    w.within session { identifier } [] = w.begin identifier := by
  simp [within, begin, hsess, Catalog.append, Transaction.copies, Transaction.touching, Session.begin]

theorem activeTransaction?_within (h : t.isActive = true) :
    (w.within session t touched).activeTransaction? = some (t.touching touched) := by
  simp [activeTransaction?, transaction?, within, Session.transaction?, Transaction.touching,
    Transaction.isActive, Transaction.isGlobal, Transaction.isLookup] at h ⊢
  exact h

/-! ### Finding and copying objects -/

theorem findPrivate_of_some {global : String}
    (h : w.activeTransaction?.bind (·.tableName? name) = some global) :
    findPrivate name w = ((w.catalog.resolveName global []).outcome name, w) := by
  rw [findPrivate, get_bind_apply, h]
  exact unambiguous_eq name _ w

theorem findObject_eq (hdevice : options.device = "") (hprivate : findPrivate name w = (.ok none, w))
    (halias : w.session.map Session.objects = some []) :
    findObject options { path } name w = (w.catalog.declared options path name, w) := by
  have hnone : findAlias [] Session.objects w name = none := by
    obtain ⟨session, hsess, hobjs⟩ := Option.map_eq_some_iff.mp halias
    simp [findAlias, Aliases.find?, hsess, hobjs]
  unfold findObject findObjectWithin
  rw [bind_apply, hprivate]
  dsimp only
  rw [get_bind_apply, hnone]
  dsimp only
  rw [findCataloged, bind_apply, findDeclared_eq]
  rcases w.catalog.declared options path name with _ | _ | _
  · rfl
  · simp only [hdevice]
    rfl
  · rfl

theorem findObject_of_private (hprivate : findPrivate name w = (.ok (some obj), w)) :
    findObject options { path } name w = (.ok (some obj), w) := by
  unfold findObject findObjectWithin
  rw [bind_apply, hprivate]
  rfl

theorem Touches.eq_of_name (htouched : w.Touches touched) {tv' : TableVar}
    (hobj : w.catalog.object? tv.name = some (.tableVar tv)) (htv' : tv' ∈ touched)
    (hname : tv'.name = tv.name) : tv' = tv := by
  have hobj' := (htouched tv' htv').1
  rw [hname, hobj] at hobj'
  exact (CatalogObject.tableVar.inj (Option.some.inj hobj')).symm

theorem copyObject_of_isTransactional (h : obj.isTransactional = true) : copyObject obj w = (.ok obj, w) := by
  rw [copyObject, get_bind_apply]
  cases w.activeTransaction? with
  | none => rfl
  | some t =>
    dsimp only
    rw [if_pos h]
    rfl

theorem bindObject_of_stale {out : Except Abort Unit}
    (hstale : staleTableVar? obj = some tv) (hinfer : infer tv w = (out, w))
    (hobj : w.catalog.object? obj.name = some obj) (hcopy : copyObject obj w = (.ok obj, w)) :
    bindObject infer obj w = (out.map fun _ => obj, w) := by
  have hrefreshed : refreshed obj w = (.ok obj, w) := by
    have heq : refreshed obj w = (.ok ((w.catalog.object? obj.name).getD obj), w) := rfl
    rw [heq, hobj]
    rfl
  rw [bindObject, hstale]
  dsimp only
  rw [bind_apply, hinfer]
  cases out with
  | error abort => rfl
  | ok _ =>
    dsimp only [MonadResolving.resolve, id]
    rw [bind_apply, hrefreshed]
    exact hcopy

theorem bindObject_of_isTransactional (hown : tv.isTransactional = true)
    (hderived : tv.isDerived = false) : bindObject infer (.tableVar tv) w = (.ok (.tableVar tv), w) := by
  have hstale : staleTableVar? (.tableVar tv) = none := by
    simp [staleTableVar?, hderived]
  rw [bindObject, hstale]
  exact copyObject_of_isTransactional hown

/-! ### Resolving names -/

/-- The table variables that are copied once a name was resolved. -/
def touchedBy (outcome : Except Abort (Option ResolvedName)) (touched : List TableVar) : List TableVar :=
  match outcome with
  | .ok (some (.object object)) => object.touch touched
  | _ => touched

theorem resolveGlobal_apply : resolveGlobal options path infer name w =
    (findObject options { path } name >>= fun found => found.elim (pure none) fun obj => do
      return some (.object (← bindObject infer obj))) w := by
  have hsym : (MonadResolving.resolve (findSymbol none .all name) : Resolving _) w = (.ok none, w) := rfl
  rw [resolveGlobal, resolveName, bind_apply, hsym]
  dsimp only [MonadResolving.resolve, id]
  rw [bind_apply, bind_apply]
  rcases findObject options { path } name w with ⟨_ | _ | _, _⟩ <;> rfl

theorem resolveGlobal_of_error {abort : Abort} (h : findObject options { path } name w = (.error abort, w')) :
    resolveGlobal options path infer name w = (.error abort, w') := by
  rw [resolveGlobal_apply, bind_apply, h]

theorem resolveGlobal_of_none (h : findObject options { path } name w = (.ok none, w')) :
    resolveGlobal options path infer name w = (.ok none, w') := by
  rw [resolveGlobal_apply, bind_apply, h]
  rfl

theorem resolveGlobal_of_some {out : Except Abort CatalogObject}
    (h : findObject options { path } name w = (.ok (some obj), w'))
    (hbind : bindObject infer obj w' = (out, w'')) :
    resolveGlobal options path infer name w = (out.map fun found => some (.object found), w'') := by
  rw [resolveGlobal_apply, bind_apply, h]
  dsimp only [Option.elim_some]
  rw [bind_apply, hbind]
  cases out <;> rfl

theorem mem_touchedBy {out : Except Abort (Option ResolvedName)}
    (h : tv ∈ touchedBy out touched) : tv ∈ touched ∨
      out = .ok (some (.object (.tableVar tv))) ∧ (CatalogObject.tableVar tv).isCopied = true := by
  unfold touchedBy at h
  split at h
  · obtain h | ⟨rfl, hcopied⟩ := mem_touch h
    · exact .inl h
    · exact .inr ⟨rfl, hcopied⟩
  · exact .inl h

/-- Table variables of the catalog that a transaction copies, each of which a name is resolved to. -/
structure Reaches (options : ResolutionOptions) (path : ResolutionPath)
    (infer : TableVar → Resolving Unit) (w : Workspace) (touched : List TableVar) : Prop where
  touches : w.Touches touched
  found : ∀ tv ∈ touched, ∃ name,
    (resolveGlobal options path infer name w).1 = .ok (some (.object (.tableVar tv)))

namespace Opens

variable (h : w.Opens session t infer)

include h

theorem resolveName_within (touched : List TableVar) (name : String) (path : ResolutionPath) :
    (w.within session t touched).catalog.resolveName name path = w.catalog.resolveName name path ∨
      ∃ tv ∈ touched, t.privateName tv.name = name ∧
        (w.within session t touched).catalog.resolveName name path = .one (.tableVar (t.copy tv)) := by
  obtain ⟨hnone, -⟩ | ⟨tv, htv, rfl, hsome⟩ := lookup_map_cases name (fun tv => t.privateName tv.name)
    (fun tv => CatalogObject.tableVar (t.copy tv)) touched
  · exact .inl (Catalog.resolveName_append_of_none t.isPrivate_of_mem_copies hnone path)
  · exact .inr ⟨tv, htv, rfl, Catalog.resolveName_append_of_some (h.fresh tv.name) hsome path⟩

theorem exists_copy (htv : tv ∈ touched) (path : ResolutionPath) : ∃ tv' ∈ touched, tv'.name = tv.name ∧
      (w.within session t touched).catalog.resolveName (t.privateName tv.name) path =
        .one (.tableVar (t.copy tv')) := by
  obtain ⟨-, habsent⟩ | ⟨tv', htv', hname, hsome⟩ := lookup_map_cases (t.privateName tv.name)
    (fun tv => t.privateName tv.name) (fun tv => CatalogObject.tableVar (t.copy tv)) touched
  · exact absurd rfl (habsent tv htv)
  · exact ⟨tv', htv', t.privateName_inj hname,
      Catalog.resolveName_append_of_some (h.fresh tv.name) hsome path⟩

/-- A name is found in the catalog as outside, or is the name of a copy with or without the namespace. -/
theorem declared_within (touched : List TableVar) (name : String) :
    (w.within session t touched).catalog.declared options path name =
        w.catalog.declared options path name ∨ ∃ tv ∈ touched,
        (t.privateName tv.name = name ∨ t.privateName tv.name = Name.qualified options.space name) ∧
          (w.within session t touched).catalog.declared options path name =
            .ok (some (.tableVar (t.copy tv))) := by
  unfold Catalog.declared
  obtain hplain | ⟨tv, htv, hname, hplain⟩ := h.resolveName_within touched name path <;>
    obtain hqualified | ⟨tv', htv', hname', hqualified⟩ :=
      h.resolveName_within touched (Name.qualified options.space name) path <;>
    rw [hplain, hqualified] <;> cases options.isQualifying name
  · exact .inl rfl
  · exact .inl rfl
  · exact .inl rfl
  · exact .inr ⟨tv', htv', .inr hname', rfl⟩
  · exact .inr ⟨tv, htv, .inl hname, rfl⟩
  · rcases (w.catalog.resolveName (Name.qualified options.space name) path).outcome name with _ | _ | _
    · exact .inl rfl
    · exact .inr ⟨tv, htv, .inl hname, rfl⟩
    · exact .inl rfl
  · exact .inr ⟨tv, htv, .inl hname, rfl⟩
  · exact .inr ⟨tv', htv', .inr hname', rfl⟩

theorem addCopy_within (habsent : ∀ other ∈ touched, other.name ≠ tv.name) :
    (t.touching touched).addCopy (w.catalog.append (t.copies touched)) tv.name tv =
      .ok (t.touching (touched ++ [tv]), w.catalog.append (t.copies (touched ++ [tv])), t.copy tv) := by
  have hfree : (w.catalog.append (t.copies touched)).object? (t.privateName tv.name) = none := by
    rw [Catalog.object?_append, h.fresh, Option.none_or]
    obtain ⟨hnone, -⟩ | ⟨other, hother, hname, -⟩ := lookup_map_cases (t.privateName tv.name)
      (fun tv => t.privateName tv.name) (fun tv => CatalogObject.tableVar (t.copy tv)) touched
    · exact hnone
    · exact absurd (t.privateName_inj hname) (habsent other hother)
  have hcopy : (CatalogObject.tableVar (t.copy tv)).name = t.privateName tv.name := rfl
  have hadd : (w.catalog.append (t.copies touched)).addObject (.tableVar (t.copy tv)) =
      .ok (w.catalog.append (t.copies (touched ++ [tv]))) := by
    unfold Catalog.addObject
    rw [hcopy, hfree]
    simp [Catalog.append, Transaction.copies]
  have hset : (t.touching touched).tables.set tv.name (t.privateName tv.name) =
      (t.touching (touched ++ [tv])).tables := by
    have hnone : ((t.touching touched).tables.any (·.1 == tv.name)) = false := by
      simpa [Transaction.touching] using habsent
    unfold Aliases.set putEntry
    rw [hnone]
    simp [Transaction.touching]
  have hcopied : tv.copyOf ((t.touching touched).privateName tv.name) = t.copy tv := rfl
  unfold Transaction.addCopy Catalog.addTableVar
  dsimp only
  rw [hcopied, hadd]
  have hname' : (t.copy tv).name = t.privateName tv.name := rfl
  rw [hname', hset]
  rfl

theorem ensureMapped_within (htouched : w.Touches touched)
    (hobj : w.catalog.object? obj.name = some obj) (hown : obj.isTransactional = false) :
    (t.touching touched).ensureMapped (w.catalog.append (t.copies touched)) obj =
      .ok (t.touching (obj.touch touched), w.catalog.append (t.copies (obj.touch touched)),
        t.seen obj) := by
  cases obj with
  | scalarType type => rfl
  | tableVar tv =>
    unfold Transaction.ensureMapped
    dsimp only
    split
    · rename_i hkept
      have hcopied : (CatalogObject.tableVar tv).isCopied = false := by
        simp [CatalogObject.isCopied, hkept]
      rw [touch_of_not_isCopied hcopied, seen_of_not_isCopied hcopied]
    · rename_i hkept
      have hcopied : (CatalogObject.tableVar tv).isCopied = true := by
        simp_all [CatalogObject.isCopied, CatalogObject.isTransactional]
      obtain ⟨hnone, habsent⟩ | ⟨tv', htv', hname, hsome⟩ :=
        lookup_map_cases tv.name TableVar.name (fun tv => t.privateName tv.name) touched
      · have hfind : (t.touching touched).tables.find? tv.name = none := hnone
        rw [hfind, Option.bind_none]
        rw [h.addCopy_within habsent, touch_of_absent hcopied habsent, seen_of_isCopied hcopied]
        rfl
      · obtain rfl := htouched.eq_of_name hobj htv' hname
        have hfind : (t.touching touched).tables.find? tv'.name = some (t.privateName tv'.name) := hsome
        obtain ⟨other, hother, hname, hfound⟩ := h.exists_copy htv' []
        obtain rfl := htouched.eq_of_name hobj hother hname
        have hcopy : (w.catalog.append (t.copies touched)).resolveName (t.privateName other.name) [] =
          .one (.tableVar (t.copy other)) := hfound
        rw [hfind, Option.bind_some, hcopy]
        rw [touch_of_mem hother, seen_of_isCopied hcopied]

theorem copyObject_within (htouched : w.Touches touched) (hobj : w.catalog.object? obj.name = some obj) :
    copyObject obj (w.within session t touched) =
      (.ok (t.seen obj), w.within session t (obj.touch touched)) := by
  cases hown : obj.isTransactional with
  | true =>
    have hcopied : obj.isCopied = false := by
      cases obj with
      | scalarType type => rfl
      | tableVar tv => simp_all [CatalogObject.isCopied, CatalogObject.isTransactional]
    rw [copyObject_of_isTransactional hown, seen_of_not_isCopied hcopied, touch_of_not_isCopied hcopied]
  | false =>
    have hmapped : (t.touching touched).ensureMapped (w.within session t touched).catalog obj = _ :=
      h.ensureMapped_within htouched hobj hown
    rw [copyObject, get_bind_apply, activeTransaction?_within h.isActive]
    dsimp only
    rw [hown, hmapped]
    rfl

theorem bindObject_within (hobj : w.catalog.object? obj.name = some obj) :
    ∃ out : Except Abort Unit, (obj.isCopied = true → out = .ok ()) ∧
      bindObject infer obj w = (out.map fun _ => obj, w) ∧
      ∀ touched, w.Touches touched → bindObject infer obj (w.within session t touched) =
        (out.map fun _ => t.seen obj, w.within session t (obj.touch touched)) := by
  cases hstale : staleTableVar? obj with
  | none =>
    refine ⟨.ok (), fun _ => rfl, ?_, fun touched htouched => ?_⟩
    · rw [bindObject, hstale]
      exact copyObject_outside h.inactive obj
    · rw [bindObject, hstale]
      exact h.copyObject_within htouched hobj
  | some tv =>
    obtain ⟨out, hinfer⟩ := h.infers _ _ _ hobj hstale
    have hcopied : obj.isCopied = false := by
      cases obj with
      | scalarType type => rfl
      | tableVar other =>
        simp only [staleTableVar?] at hstale
        split at hstale
        · simp_all [CatalogObject.isCopied]
        · cases hstale
    refine ⟨out, by simp [hcopied], ?_, fun touched htouched => ?_⟩
    · exact bindObject_of_stale hstale (hinfer w) hobj (copyObject_outside h.inactive obj)
    · -- A derived table variable is not copied, so that the transaction stays as it is.
      have hcopy := h.copyObject_within htouched hobj
      rw [seen_of_not_isCopied hcopied, touch_of_not_isCopied hcopied] at hcopy ⊢
      refine bindObject_of_stale hstale (hinfer _) ?_ hcopy
      exact Catalog.object?_append.trans (by rw [hobj, Option.some_or])

/-- Once a table variable is copied and no other, every name that designates it leads to the copy. -/
theorem resolveGlobal_within_singleton (hdesignated : Name.isDesignatedBy tv.name name = true) :
    resolveGlobal options path infer name (w.within session t [tv]) =
      (.ok (some (.object (.tableVar (t.copy tv)))), w.within session t [tv]) := by
  have hactive : ((w.within session t [tv]).activeTransaction?.bind (·.tableName? name)) =
      some (t.privateName tv.name) := by
    rw [activeTransaction?_within h.isActive, Option.bind_some,
      t.tableName?_touching_singleton hdesignated]
  obtain ⟨other, hother, -, hfound⟩ := h.exists_copy (List.mem_singleton_self tv) []
  obtain rfl := List.mem_singleton.mp hother
  have hprivate := findPrivate_of_some hactive
  rw [hfound] at hprivate
  exact resolveGlobal_of_some (findObject_of_private hprivate) (bindObject_of_isTransactional rfl rfl)

theorem eq_of_seen (hobj : w.catalog.object? obj.name = some obj)
    (hseen : t.seen obj = .tableVar (t.copy tv)) : obj = .tableVar tv := by
  cases hcopied : obj.isCopied with
  | false =>
    rw [seen_of_not_isCopied hcopied] at hseen
    subst hseen
    have hfresh := h.fresh tv.name
    exact absurd (hfresh.symm.trans hobj) (by simp)
  | true =>
    cases obj with
    | scalarType type => cases hcopied
    | tableVar other =>
      rw [seen_of_isCopied hcopied] at hseen
      have hsrc := congrArg TableVar.source (CatalogObject.tableVar.inj hseen)
      exact congrArg CatalogObject.tableVar (Option.some.inj hsrc)

variable (hdevice : options.device = "")

include hdevice

theorem findObject_outside (path : ResolutionPath) (name : String) :
    findObject options { path } name w = (w.catalog.declared options path name, w) := by
  refine findObject_eq hdevice ?_ ?_
  · refine findPrivate_of_none ?_
    rw [h.inactive, Option.bind_none]
  · rw [h.session_eq, ← h.objects_eq]
    rfl

theorem findObject_within (path : ResolutionPath) (touched : List TableVar) (name : String) :
    findObject options { path } name (w.within session t touched) =
        (w.catalog.declared options path name, w.within session t touched) ∨
      ∃ tv ∈ touched, t.Leads options tv name ∧
        findObject options { path } name (w.within session t touched) =
          (.ok (some (.tableVar (t.copy tv))), w.within session t touched) := by
  have hactive : ((w.within session t touched).activeTransaction?.bind (·.tableName? name)) =
      (t.touching touched).tableName? name := by
    rw [activeTransaction?_within h.isActive, Option.bind_some]
  obtain hnone | ⟨tv, htv, hname, hsome⟩ := t.tableName?_touching touched name
  · have halias : (w.within session t touched).session.map Session.objects = some [] := by
      rw [← h.objects_eq]
      rfl
    rw [findObject_eq hdevice (findPrivate_of_none (hactive.trans hnone)) halias]
    obtain hdecl | ⟨tv, htv, hname, hdecl⟩ :=
      h.declared_within touched name
    · rw [hdecl]
      exact .inl rfl
    · rw [hdecl]
      exact .inr ⟨tv, htv, .inr hname, rfl⟩
  · obtain ⟨tv', htv', hname', hfound⟩ := h.exists_copy htv []
    refine .inr ⟨tv', htv', .inl (hname' ▸ hname), findObject_of_private ?_⟩
    rw [findPrivate_of_some (hactive.trans hsome), hfound]
    rfl

theorem resolveGlobal_within (path : ResolutionPath) (htouched : w.Touches touched) (name : String) :
    resolveGlobal options path infer name (w.within session t touched) =
        ((resolveGlobal options path infer name w).1.map (Option.map (·.seen t)),
          w.within session t (touchedBy (resolveGlobal options path infer name w).1 touched)) ∨
      ∃ tv ∈ touched, t.Leads options tv name ∧
        resolveGlobal options path infer name (w.within session t touched) =
          (.ok (some (.object (.tableVar (t.copy tv)))), w.within session t touched) := by
  have houtside := h.findObject_outside hdevice path name
  obtain hinside | ⟨tv, htv, hleads, hinside⟩ := h.findObject_within hdevice path touched name
  · left
    rcases hdecl : w.catalog.declared options path name with abort | _ | object <;>
      rw [hdecl] at houtside hinside
    · rw [resolveGlobal_of_error houtside, resolveGlobal_of_error hinside]
      rfl
    · rw [resolveGlobal_of_none houtside, resolveGlobal_of_none hinside]
      rfl
    · have hobj := h.isKeyed.object?_of_declared hdecl
      obtain ⟨out, hcopied, hbind, hbind'⟩ := h.bindObject_within hobj
      rw [resolveGlobal_of_some houtside hbind, resolveGlobal_of_some hinside (hbind' touched htouched)]
      cases out with
      | error abort =>
        rw [touch_of_not_isCopied (by simpa using hcopied)]
        rfl
      | ok _ => rfl
  · right
    exact ⟨tv, htv, hleads, resolveGlobal_of_some hinside (bindObject_of_isTransactional rfl rfl)⟩

theorem object?_of_resolveGlobal
    (hfound : (resolveGlobal options path infer name w).1 = .ok (some (.object obj))) :
    w.catalog.object? obj.name = some obj := by
  have houtside := h.findObject_outside hdevice path name
  rcases hdecl : w.catalog.declared options path name with abort | _ | other <;>
    rw [hdecl] at houtside
  · rw [resolveGlobal_of_error houtside] at hfound
    cases hfound
  · rw [resolveGlobal_of_none houtside] at hfound
    cases hfound
  · have hobj := h.isKeyed.object?_of_declared hdecl
    obtain ⟨out, -, hbind, -⟩ := h.bindObject_within hobj
    rw [resolveGlobal_of_some houtside hbind] at hfound
    cases out <;> cases hfound
    exact hobj

/-- One more name leaves the workspace inside the transaction, with the copies of table variables that
names are resolved to. -/
theorem exists_within_step (hreaches : Reaches options path infer w touched) (name : String) :
    ∃ touched', Reaches options path infer w touched' ∧
      (resolveGlobal options path infer name (w.within session t touched)).2 =
        w.within session t touched' := by
  obtain hstep | ⟨tv, -, -, hstep⟩ := h.resolveGlobal_within hdevice path hreaches.touches name
  · refine ⟨touchedBy (resolveGlobal options path infer name w).1 touched, ⟨?_, ?_⟩, by rw [hstep]⟩
    · intro tv htv
      obtain htv | ⟨hfound, hcopied⟩ := mem_touchedBy htv
      · exact hreaches.touches tv htv
      · exact ⟨h.object?_of_resolveGlobal hdevice hfound, hcopied⟩
    · intro tv htv
      obtain htv | ⟨hfound, -⟩ := mem_touchedBy htv
      · exact hreaches.found tv htv
      · exact ⟨name, hfound⟩
  · exact ⟨touched, hreaches, by rw [hstep]⟩

end Opens

end Within

end Workspace

/-- A workspace after names were resolved one after the other. -/
def resolveGlobals (options : ResolutionOptions) (path : ResolutionPath)
    (infer : TableVar → Resolving Unit) (names : List String) (w : Workspace) : Workspace :=
  names.foldl (fun w name => (resolveGlobal options path infer name w).2) w

section Transparent

variable {w : Workspace} {session : Session} {t : Transaction} {infer : TableVar → Resolving Unit}
  {touched : List TableVar} {path : ResolutionPath} {options : ResolutionOptions}

/-- Any names leave the workspace inside the transaction, with the copies of table variables that names
are resolved to. -/
theorem Workspace.Opens.exists_within (h : w.Opens session t infer) (hdevice : options.device = "")
    (hreaches : Workspace.Reaches options path infer w touched) (names : List String) :
    ∃ touched', Workspace.Reaches options path infer w touched' ∧
      resolveGlobals options path infer names (w.within session t touched) =
        w.within session t touched' := by
  induction names generalizing touched with
  | nil => exact ⟨touched, hreaches, rfl⟩
  | cons name names ih =>
    obtain ⟨touched', hreaches', hstep⟩ := h.exists_within_step hdevice hreaches name
    obtain ⟨touched'', hreaches'', hrest⟩ := ih hreaches'
    refine ⟨touched'', hreaches'', ?_⟩
    rw [resolveGlobals, List.foldl_cons, hstep]
    exact hrest

/-- A name is resolved as outside after any names, up to copies whose sources are what is found outside, if
and only if every table variable that a transaction copies, that some name is resolved to outside and that
the name designates is what the name is resolved to outside. -/
theorem resolveGlobal_transparent_iff {identifier : String} (h : w.Opens session { identifier } infer)
    (hdevice : options.device = "") {name : String}
    (hname : ∀ other, Transaction.privateName { identifier } other ≠ name ∧
      Transaction.privateName { identifier } other ≠ Name.qualified options.space name) :
    (∀ names, (resolveGlobal options path infer name
        (resolveGlobals options path infer names (w.begin identifier))).1 =
      (resolveGlobal options path infer name w).1.map (Option.map (·.seen { identifier }))) ↔
    ∀ tv other, (resolveGlobal options path infer other w).1 = .ok (some (.object (.tableVar tv))) →
      (CatalogObject.tableVar tv).isCopied = true → Name.isDesignatedBy tv.name name = true →
      (resolveGlobal options path infer name w).1 = .ok (some (.object (.tableVar tv))) := by
  have hbegin := Workspace.within_nil h.session_eq identifier
  have hnone : Workspace.Reaches options path infer w [] := ⟨by simp [Workspace.Touches], by simp⟩
  constructor
  · intro htransparent tv other hother hcopied hdesignated
    have hrun := htransparent [other]
    have hstate : resolveGlobals options path infer [other] (w.begin identifier) =
        w.within session { identifier } [tv] := by
      obtain hstep | ⟨_, hmem, -⟩ := h.resolveGlobal_within hdevice path hnone.touches other
      · rw [← hbegin, resolveGlobals, List.foldl_cons, hstep, hother]
        exact congrArg (w.within session { identifier }) (touch_of_absent hcopied (by simp))
      · cases hmem
    rw [hstate, h.resolveGlobal_within_singleton hdesignated] at hrun
    generalize houtside : (resolveGlobal options path infer name w).1 = outside at hrun ⊢
    rcases outside with _ | _ | found
    · cases hrun
    · cases hrun
    · cases found with
      | symbol => cases hrun
      | object object =>
        have hseen := ResolvedName.object.inj (Option.some.inj (Except.ok.inj hrun))
        rw [h.eq_of_seen (h.object?_of_resolveGlobal hdevice houtside) hseen.symm]
  · intro hfound names
    obtain ⟨touched, hreaches, hrun⟩ := h.exists_within hdevice hnone names
    rw [← hbegin, hrun]
    obtain hstep | ⟨tv, htv, hleads, hstep⟩ :=
      h.resolveGlobal_within hdevice path hreaches.touches name
    · rw [hstep]
    · have hdesignated := hleads.resolve_right fun hprivate => hprivate.elim (hname _).1 (hname _).2
      obtain ⟨other, hother⟩ := hreaches.found tv htv
      have hcopied := (hreaches.touches tv htv).2
      rw [hstep, hfound tv other hother hcopied hdesignated]
      have hseen := seen_of_isCopied (t := { identifier }) hcopied
      exact congrArg (fun object => Except.ok (some (ResolvedName.object object))) hseen.symm

end Transparent

/-! ### Two tables of the same name -/

/-- A table variable for samples. -/
def sampleTable (name : String) : TableVar :=
  .base name none "" []

/-- A workspace with tables of the same name in two libraries. -/
def homonymWorkspace : Workspace where
  catalog := { objects := ["A.T", "B.T"].map fun name => (name, .tableVar (sampleTable name)) }
  session := some {}

theorem privateName_ne (t : Transaction) (name : String) {other : String}
    (h : other.toList.take 3 ≠ "AT_".toList) : t.privateName name ≠ other := by
  rintro rfl
  simp [Transaction.privateName] at h

theorem opens_homonymWorkspace (infer : TableVar → Resolving Unit) :
    homonymWorkspace.Opens {} { identifier := "" } infer where
  session_eq := rfl
  objects_eq := rfl
  inactive := rfl
  isActive := rfl
  isKeyed := by
    intro entry hentry
    obtain ⟨name, -, rfl⟩ := List.mem_map.mp hentry
    rfl
  fresh name := by
    refine List.lookup_eq_none_iff.mpr fun entry hentry => ?_
    have hkeys : ∀ entry ∈ homonymWorkspace.catalog.objects, entry.1.toList.take 3 ≠ "AT_".toList := by
      decide
    exact bne_iff_ne.mpr (privateName_ne _ name (hkeys entry hentry))
  infers name obj tv hobj hstale := by
    obtain ⟨key, -, hentry⟩ := List.mem_map.mp (mem_of_lookup hobj)
    cases hentry
    cases hstale

theorem resolveGlobal_transparent_homonym :
    (resolveGlobal {} ["B"] (fun _ => pure ()) "A.T" (resolveGlobals {} ["B"] (fun _ => pure ())
        ["T", "A.T", "C.T"] (homonymWorkspace.begin ""))).1 =
      .ok (some (.object (.tableVar (Transaction.copy { identifier := "" } (sampleTable "A.T"))))) := by
  have hfound : (resolveGlobal {} ["B"] (fun _ => pure ()) "A.T" homonymWorkspace).1 =
    .ok (some (.object (.tableVar (sampleTable "A.T")))) := rfl
  have hopens := opens_homonymWorkspace fun _ => pure ()
  have hprivate : ∀ other, Transaction.privateName { identifier := "" } other ≠ "A.T" ∧
      Transaction.privateName { identifier := "" } other ≠ Name.qualified "" "A.T" :=
    fun other => ⟨privateName_ne _ other (by decide), privateName_ne _ other (by decide)⟩
  refine ((resolveGlobal_transparent_iff hopens rfl hprivate).mpr ?_ _).trans (by rw [hfound]; rfl)
  intro tv other hother _ hdesignated
  have hobject := hopens.object?_of_resolveGlobal rfl hother
  obtain ⟨key, hkey, hentry⟩ := List.mem_map.mp (mem_of_lookup hobject)
  obtain rfl := CatalogObject.tableVar.inj (Prod.mk.inj hentry).2
  obtain rfl | hkey := List.mem_cons.mp hkey
  · exact hfound
  · obtain rfl := List.mem_singleton.mp hkey
    exact absurd hdesignated (by decide)

theorem resolveName_homonym : homonymWorkspace.catalog.resolveName "T" [] = .ambiguous ["A.T", "B.T"] := by
  have hnone : homonymWorkspace.catalog.object? "T" = none := rfl
  have hvis : (homonymWorkspace.catalog.objects.filter fun entry => !entry.2.isPrivate).map Prod.fst =
    ["A.T", "B.T"] := rfl
  have hsorted : sortNames ["A.T", "B.T"] = ["A.T", "B.T"] :=
    List.mergeSort_of_pairwise (by decide)
  have hdesignate : designate ["A.T", "B.T"] "T" [] = .several ["A.T", "B.T"] := by
    have hfilter : ["A.T", "B.T"].filter (Name.isDesignatedBy · "T") = ["A.T", "B.T"] := by decide
    rw [designate, hfilter, hsorted]
    rfl
  rw [Catalog.resolveName, findDesignated, hnone, hvis, hdesignate]

/-- A name that is ambiguous outside a transaction may lead to a copy inside it, once one of the table
variables that it designates was used. -/
theorem exists_resolveGlobal_ne :
    ∃ (w : Workspace) (session : Session) (identifier name : String) (names : List String) (tv : TableVar)
      (infer : TableVar → Resolving Unit), w.Opens session { identifier } infer ∧
      (∀ other, Transaction.privateName { identifier } other ≠ name) ∧
      (resolveGlobal {} [] infer name w).1 = .error (.ofCause (.ambiguousIdentifier name ["A.T", "B.T"])) ∧
      (resolveGlobal {} [] infer name (resolveGlobals {} [] infer names (w.begin identifier))).1 =
        .ok (some (.object (.tableVar (Transaction.copy { identifier } tv)))) := by
  refine ⟨homonymWorkspace, {}, "", "T", ["A.T"], sampleTable "A.T", fun _ => pure (),
    opens_homonymWorkspace _, fun other => privateName_ne _ other (by decide), ?_, rfl⟩
  have hdeclared : homonymWorkspace.catalog.declared {} [] "T" =
      .error (.ofCause (.ambiguousIdentifier "T" ["A.T", "B.T"])) := by
    have hqualifying : ResolutionOptions.isQualifying {} "T" = false := rfl
    rw [Catalog.declared, hqualifying, resolveName_homonym]
    rfl
  have houtside := (opens_homonymWorkspace fun _ => pure ()).findObject_outside
    (rfl : ({} : ResolutionOptions).device = "") [] "T"
  rw [hdeclared] at houtside
  rw [Workspace.resolveGlobal_of_error houtside]

end Relational
