import Relational.Proofs.Compile.Recompilation

/-!
# What table variables are known to read

Compilations find out what stale derived table variables read, and note it in the catalog. A catalog in
which this is known of some table variables is the catalog before with their readings put in. Names
designate the same objects in both, up to these readings, and nothing else about the catalog differs.
-/

namespace Relational

open List

/-- For some table variables, by name, the names of the table variables that they read. -/
@[ext] structure Readings where
  of : String → Option (List String)

namespace Readings

/-- Nothing is known. -/
def nothing : Readings :=
  ⟨fun _ => none⟩

/-- What is known, with what one more table variable reads. -/
def note (known : Readings) (name : String) (references : List String) : Readings :=
  ⟨fun other => if other = name then some references else known.of other⟩

/-- Whatever is known on the left is known on the right. -/
instance : LE Readings :=
  ⟨fun known known' => ∀ name references, known.of name = some references →
    known'.of name = some references⟩

/-- Nothing is known differently. -/
def Compatible (known known' : Readings) : Prop :=
  ∀ name references references', known.of name = some references → known'.of name = some references' →
    references = references'

/-- Nothing is known that is in neither of two. -/
def Among (known first second : Readings) : Prop :=
  ∀ name references, known.of name = some references →
    first.of name = some references ∨ second.of name = some references

variable {known known' known'' : Readings} (refs : List String) {name : String}

theorem refl (known : Readings) : known ≤ known :=
  fun _ _ h => h

theorem trans (h : known ≤ known') (h' : known' ≤ known'') : known ≤ known'' :=
  fun name refs hknown => h' name refs (h name refs hknown)

@[simp] theorem note_self (known : Readings) (name : String) (refs : List String) :
    (known.note name refs).of name = some refs :=
  if_pos rfl

theorem note_of_ne {other : String} (h : other ≠ name) : (known.note name refs).of other = known.of other :=
  if_neg h

theorem le_note (h : known.of name = none) : known ≤ known.note name refs := by
  intro other read hother
  have hne : other ≠ name := by
    rintro rfl
    exact absurd (hother.symm.trans h) (by simp)
  rw [note_of_ne refs hne]
  exact hother

theorem note_le_note (h : known ≤ known') (name : String) (refs : List String) :
    known.note name refs ≤ known'.note name refs := by
  intro other read hother
  by_cases hname : other = name
  · subst hname
    rwa [note_self] at hother ⊢
  · rw [note_of_ne _ hname] at hother ⊢
    exact h other read hother

theorem Compatible.mono_right (h : known.Compatible known'') (hle : known' ≤ known'') :
    known.Compatible known' :=
  fun name refs refs' hknown hknown' =>
    h name refs refs' hknown (hle name refs' hknown')

theorem Compatible.of_among {first : Readings} (h : first.Compatible known')
    (hamong : known.Among first known') : known.Compatible known' := by
  intro name refs refs' hknown hknown'
  rcases hamong name refs hknown with hfirst | hsecond
  · exact h name refs refs' hfirst hknown'
  · exact Option.some.inj (hsecond.symm.trans hknown')

end Readings

/-! ### Objects and catalogs -/

/-- A table variable with what it is known to read, if that had to be found out. -/
def TableVar.settle (known : Readings) (tv : TableVar) : TableVar :=
  if tv.isDerived && tv.isStale then (known.of tv.name).elim tv tv.setReferences else tv

/-- An object with what is known of it. -/
def CatalogObject.settle (known : Readings) : CatalogObject → CatalogObject :=
  CatalogObject.mapTableVar (TableVar.settle known)

/-- An object without what it reads. -/
def CatalogObject.outline : CatalogObject → CatalogObject :=
  CatalogObject.mapTableVar (·.setReferences [])

variable {refs : List String}

section Objects

variable {known : Readings} {obj : CatalogObject} {tv : TableVar}

theorem TableVar.settle_cases (known : Readings) (tv : TableVar) :
    tv.settle known = tv ∨ ∃ refs, known.of tv.name = some refs ∧
      tv.settle known = tv.setReferences refs := by
  rw [settle]
  split
  · cases hknown : known.of tv.name with
    | none => exact .inl rfl
    | some refs => exact .inr ⟨refs, rfl, rfl⟩
  · exact .inl rfl

namespace CatalogObject

@[simp] theorem settle_nothing (obj : CatalogObject) : obj.settle .nothing = obj := by
  cases obj with
  | scalarType type => rfl
  | tableVar tv =>
    obtain htv | ⟨_, hknown, -⟩ := tv.settle_cases .nothing
    · exact congrArg tableVar htv
    · cases hknown

theorem name_outline (obj : CatalogObject) : obj.outline.name = obj.name := by
  cases obj <;> rfl

theorem isPrivate_outline (obj : CatalogObject) : obj.outline.isPrivate = obj.isPrivate := by
  cases obj <;> rfl

theorem settle_of_none (known : Readings) (h : staleTableVar? obj = none) : obj.settle known = obj := by
  cases obj with
  | scalarType => rfl
  | tableVar tv =>
    rw [staleTableVar?] at h
    have hstale : ¬ (tv.isDerived && tv.isStale) := by
      intro hstale
      rw [if_pos hstale] at h
      cases h
    exact congrArg tableVar (if_neg hstale)

theorem settle_of_unknown (h : staleTableVar? obj = some tv) (hknown : known.of tv.name = none) :
    obj.settle known = obj := by
  obtain ⟨rfl, hderived, hstale⟩ := eq_of_staleTableVar? h
  obtain htv | ⟨_, hsome, -⟩ := tv.settle_cases known
  · exact congrArg tableVar htv
  · exact absurd (hsome.symm.trans hknown) (by simp)

theorem settle_of_known (h : staleTableVar? obj = some tv) (hknown : known.of tv.name = some refs) :
    obj.settle known = .tableVar (tv.setReferences refs) := by
  obtain ⟨rfl, hderived, hstale⟩ := eq_of_staleTableVar? h
  refine congrArg tableVar ?_
  rw [TableVar.settle, hderived, hstale, hknown]
  rfl

end CatalogObject

theorem staleTableVar?_settle_of_known (h : staleTableVar? obj = some tv)
    (hknown : known.of tv.name = some refs) : staleTableVar? (obj.settle known) = none := by
  rw [CatalogObject.settle_of_known h hknown, staleTableVar?, if_neg]
  simp [TableVar.setReferences]

end Objects

/-- What is found under a name, changed. -/
def Found.map {α β : Type} (f : α → β) : Found α → Found β
  | .nothing => .nothing
  | .one value => .one (f value)
  | .ambiguous names => .ambiguous names

namespace Catalog

variable {base c : Catalog} {known : Readings}

/-- A catalog that differs from another one by what is known of its table variables. -/
structure Settles (base : Catalog) (known : Readings) (c : Catalog) : Prop where
  operators : c.operators = base.operators
  conversions : c.conversions = base.conversions
  devices : c.devices = base.devices
  outlines : c.objects.map (Prod.map id CatalogObject.outline) =
    base.objects.map (Prod.map id CatalogObject.outline)
  objects : ∀ name, c.object? name = (base.object? name).map (CatalogObject.settle known)

/-- A derived table variable of a catalog for which it has to be found out what it reads. -/
structure HasStale (c : Catalog) (tv : TableVar) : Prop where
  stands : c.object? tv.name = some (.tableVar tv)
  stale : staleTableVar? (.tableVar tv) = some tv

theorem settles_nothing (base : Catalog) : base.Settles .nothing base :=
  ⟨rfl, rfl, rfl, rfl, fun name => by
    rw [funext CatalogObject.settle_nothing, Option.map_id']⟩

theorem outlines_updateTableVar (c : Catalog) (name : String) (refs : List String) :
    (c.updateTableVar name (·.setReferences refs)).objects.map (Prod.map id CatalogObject.outline) =
      c.objects.map (Prod.map id CatalogObject.outline) := by
  rw [updateTableVar, map_map]
  refine map_congr_left fun entry _ => ?_
  obtain ⟨key, type | tv⟩ := entry
  · rfl
  · dsimp only [Function.comp]
    split <;> rfl

theorem Settles.noteReferences (h : base.Settles known c) (hkeyed : base.IsKeyed) {tv : TableVar}
    (htv : base.HasStale tv) (refs : List String) : base.Settles (known.note tv.name refs)
      (c.updateTableVar tv.name (·.setReferences refs)) where
  operators := h.operators
  conversions := h.conversions
  devices := h.devices
  outlines := (c.outlines_updateTableVar tv.name refs).trans h.outlines
  objects name := by
    rw [object?_updateTableVar, h.objects, Option.map_map]
    by_cases hname : name = tv.name
    · subst hname
      rw [if_pos rfl, htv.stands, Option.map_some, Option.map_some,
        CatalogObject.settle_of_known htv.stale (known.note_self _ _)]
      change some (CatalogObject.tableVar ((tv.settle known).setReferences refs)) = _
      obtain hsettle | ⟨_, -, hsettle⟩ := tv.settle_cases known
      · rw [hsettle]
      · rw [hsettle]
        rfl
    · rw [if_neg hname]
      cases hobj : base.object? name with
      | none => rfl
      | some obj =>
        -- objects stand under their names, so that this one is not the one that is noted
        have hother : obj.name ≠ tv.name := by
          rw [hkeyed _ (mem_of_lookup hobj)]
          exact hname
        refine congrArg some ?_
        cases obj with
        | scalarType => rfl
        | tableVar other =>
          change other.name ≠ tv.name at hother
          refine congrArg CatalogObject.tableVar ?_
          rw [TableVar.settle, TableVar.settle, Readings.note_of_ne refs hother]

/-- What a catalog knows of the table variables that are stale in another one. -/
def readings (base c : Catalog) : Readings where
  of name :=
    match (base.object? name).bind staleTableVar?, c.object? name with
    | some _, some (.tableVar tv) => if tv.isStale then none else some tv.references
    | _, _ => none

theorem exists_hasStale_of_readings (hkeyed : base.IsKeyed) {name : String}
    (h : (base.readings c).of name = some refs) : ∃ tv, tv.name = name ∧ base.HasStale tv := by
  cases hobj : base.object? name with
  | none =>
    rw [readings] at h
    simp [hobj] at h
  | some obj =>
    cases hstale : staleTableVar? obj with
    | none =>
      rw [readings] at h
      simp [hobj, hstale] at h
    | some tv =>
      obtain ⟨rfl, -, -⟩ := eq_of_staleTableVar? hstale
      obtain rfl : tv.name = name := hkeyed _ (mem_of_lookup hobj)
      exact ⟨tv, rfl, hobj, hstale⟩

namespace Settles

variable (h : base.Settles known c)

include h

theorem readings_eq (hkeyed : base.IsKeyed) (hknown : ∀ name refs, known.of name = some refs →
      ∃ tv, tv.name = name ∧ base.HasStale tv) : base.readings c = known := by
  refine Readings.ext (funext fun name => ?_)
  by_cases hstale : ∃ tv, tv.name = name ∧ base.HasStale tv
  · obtain ⟨tv, rfl, htv⟩ := hstale
    have hobj := h.objects tv.name
    obtain ⟨-, -, hisStale⟩ := eq_of_staleTableVar? htv.stale
    rw [htv.stands, Option.map_some] at hobj
    cases hread : known.of tv.name with
    | none =>
      rw [CatalogObject.settle_of_unknown htv.stale hread] at hobj
      simp [readings, htv.stands, htv.stale, hobj, hisStale]
    | some refs =>
      rw [CatalogObject.settle_of_known htv.stale hread] at hobj
      simp [readings, htv.stands, htv.stale, hobj, TableVar.setReferences]
  · cases hread : known.of name with
    | some refs => exact absurd (hknown name refs hread) hstale
    | none =>
      cases hread : (base.readings c).of name with
      | none => rfl
      | some refs => exact absurd (exists_hasStale_of_readings hkeyed hread) hstale

theorem keys_eq : c.objects.map Prod.fst = base.objects.map Prod.fst := by
  have hkeys := congrArg (map Prod.fst) h.outlines
  rwa [map_map, map_map] at hkeys

theorem objectNames_eq : c.objectNames = base.objectNames := by
  rw [objectNames, objectNames, h.keys_eq]

theorem isKeyed (hkeyed : base.IsKeyed) : c.IsKeyed := by
  intro entry hentry
  have hmem : Prod.map id CatalogObject.outline entry ∈
      base.objects.map (Prod.map id CatalogObject.outline) :=
    h.outlines ▸ mem_map_of_mem hentry
  obtain ⟨entry', hentry', heq⟩ := mem_map.mp hmem
  have hkey : entry'.1 = entry.1 := (congrArg Prod.fst heq :)
  have hname : entry'.2.outline.name = entry.2.outline.name := (congrArg (·.2.name) heq :)
  rw [CatalogObject.name_outline, CatalogObject.name_outline] at hname
  rw [← hname, ← hkey]
  exact hkeyed entry' hentry'

theorem visible_eq : (c.objects.filter fun entry => !entry.2.isPrivate).map Prod.fst =
      (base.objects.filter fun entry => !entry.2.isPrivate).map Prod.fst := by
  have hvis : ∀ c : Catalog, (c.objects.filter fun entry => !entry.2.isPrivate).map Prod.fst =
      ((c.objects.map (Prod.map id CatalogObject.outline)).filter fun entry =>
        !entry.2.isPrivate).map Prod.fst := by
    intro c
    rw [filter_map, map_map]
    congr 1
    refine filter_congr fun entry _ => ?_
    simp [CatalogObject.isPrivate_outline]
  rw [hvis, hvis, h.outlines]

theorem resolveName (name : String) (path : ResolutionPath) :
    c.resolveName name path = (base.resolveName name path).map (CatalogObject.settle known) := by
  rw [Catalog.resolveName, Catalog.resolveName, findDesignated, findDesignated, h.objects name]
  cases hobj : base.object? name with
  | some obj => rfl
  | none =>
    dsimp only [Option.map_none]
    rw [h.visible_eq]
    split
    · rfl
    · rfl
    · rename_i found _
      rw [h.objects found]
      cases base.object? found with
      | none => rfl
      | some obj => rfl

end Settles

end Catalog

/-! ### Names -/

section Names

variable {base w : Workspace} {known : Readings} {opts : ResolutionOptions}

theorem unambiguous_map {α β : Type} (name : String) (f : α → β) (found : Found α) (w w' : Workspace) :
    Resolving.unambiguous name (found.map f) w =
      (((Resolving.unambiguous name found w').1).map (Option.map f), w) := by
  cases found <;> rfl

theorem findDeclared_of_settles (h : base.catalog.Settles known w.catalog) (path : ResolutionPath)
    (name : String) : findDeclared opts path name w =
      ((findDeclared opts path name base).1.map (Option.map (CatalogObject.settle known)), w) := by
  have hplain := h.resolveName name path
  have hqualified := h.resolveName (Name.qualified opts.space name) path
  rw [findDeclared, get_bind_apply, get_bind_apply]
  dsimp only
  split
  · rw [hqualified, bind_apply, bind_apply]
    cases base.catalog.resolveName (Name.qualified opts.space name) path with
    | one obj => rfl
    | ambiguous names => rfl
    | nothing =>
      rw [hplain]
      exact unambiguous_map name _ _ w base
  · rw [hplain]
    exact unambiguous_map name _ _ w base

theorem findCataloged_of_settles (h : base.catalog.Settles known w.catalog)
    (hdev : opts.device = "") (scope : PlanScope) (name : String) : findCataloged opts scope name w =
      ((findCataloged opts scope name base).1.map (Option.map (CatalogObject.settle known)), w) := by
  -- without a device, a name that is not declared is unknown
  have hcataloged : ∀ w : Workspace, findCataloged opts scope name w =
      ((findDeclared opts scope.path name w).1, (findDeclared opts scope.path name w).2) := by
    intro w
    rw [findCataloged, bind_apply]
    rcases findDeclared opts scope.path name w with ⟨_ | _ | _, _⟩
    · rfl
    · simp only [hdev]
      rfl
    · rfl
  rw [hcataloged, hcataloged, findDeclared_of_settles h]

theorem activeTransaction?_eq (hsess : w.session = base.session) :
    w.activeTransaction? = base.activeTransaction? := by
  rw [Workspace.activeTransaction?, Workspace.transaction?, hsess]
  rfl

theorem findObjectWithin_of_settles (h : base.catalog.Settles known w.catalog)
    (hsess : w.session = base.session) (hinactive : base.activeTransaction? = none)
    (hdev : opts.device = "") (scope : PlanScope) (fuel : Nat) (name : String) :
    findObjectWithin opts scope fuel name w = ((findObjectWithin opts scope fuel name base).1.map
        (Option.map (CatalogObject.settle known)), w) := by
  induction fuel generalizing name with
  | zero => rfl
  | succ fuel ih =>
    -- in both workspaces an alias is followed, or the name is looked for in the catalog
    have hstep : ∀ w : Workspace, w.session = base.session →
        findObjectWithin opts scope (fuel + 1) name w =
          (findAlias scope.objects Session.objects base name).elim (findCataloged opts scope name)
            (findObjectWithin opts scope fuel) w := by
      intro w hw
      have halias : findAlias scope.objects Session.objects w name =
          findAlias scope.objects Session.objects base name := by
        rw [findAlias, findAlias, hw]
      rw [findObjectWithin, bind_apply, Workspace.findPrivate_of_none
        (by rw [activeTransaction?_eq hw, hinactive, Option.bind_none])]
      dsimp only
      rw [get_bind_apply, halias]
      cases findAlias scope.objects Session.objects base name with
      | some global => rfl
      | none => rfl
    rw [hstep w hsess, hstep base rfl]
    cases findAlias scope.objects Session.objects base name with
    | some global => exact ih global
    | none => exact findCataloged_of_settles h hdev scope name

end Names

end Relational
