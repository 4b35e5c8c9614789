import Relational.Proofs.Conversion.Dependence
import Relational.Proofs.Recent
import Relational.Proofs.Type

/-!
# Changes of the declared conversions

A change of the catalog announces the types that it concerns. For what is remembered of earlier searches
this has to be enough: a search that met none of the announced types must go the same way after the
change. Removing a type also removes the conversions to it from other types, which are not announced; a
search that looked at one of them has met the removed type.
-/

namespace Relational

open List

/-! ### Declared objects -/

namespace Catalog

theorem eq_of_addObject {c c' : Catalog} {object : CatalogObject} (h : c.addObject object = .ok c') :
    c.object? object.name = none ∧ c' = { c with objects := c.objects ++ [(object.name, object)] } := by
  unfold addObject at h
  split at h
  · cases h
  · exact ⟨‹_›, (Except.ok.inj h).symm⟩

/-- Nothing changes, or a device gives up a table variable, which is declared unless its name is taken. -/
theorem reconcile_cases (c : Catalog) (dev name : String) :
    c.reconcile dev name = { catalog := c, result := .ok false } ∨
    ∃ d tv, c.device? dev = some d ∧ d.pending? name = some tv ∧ ((∃ names, c.reconcile dev name =
          { catalog := c.addDevice (d.forget tv), result := .error (.duplicateIdentifier tv.name names) }) ∨
        c.object? tv.name = none ∧ c.reconcile dev name = { catalog := { c.addDevice (d.forget tv) with
              objects := c.objects ++ [(tv.name, .tableVar tv)] }, result := .ok true }) := by
  unfold reconcile
  cases hd : c.device? dev with
  | none => exact .inl rfl
  | some d =>
    cases htv : d.pending? name with
    | none => exact .inl (by simp [htv])
    | some tv =>
      have hsame : (c.addDevice (d.forget tv)).object? (CatalogObject.tableVar tv).name =
          c.object? tv.name := rfl
      refine .inr ⟨d, tv, rfl, htv, ?_⟩
      simp only [htv, addObject, hsame]
      cases c.object? tv.name with
      | some existing => exact .inl ⟨_, rfl⟩
      | none => exact .inr ⟨rfl, rfl⟩

end Catalog

namespace ConversionGraph

variable {g : ConversionGraph}

theorem outgoing_putEntry (g : ConversionGraph) (key : String) (convs : List Conversion)
    (type : ScalarType) : outgoing (putEntry g key convs) type =
      if type.name = key then convs else g.outgoing type := by
  rw [outgoing, lookup_putEntry]
  split <;> rfl

theorem WellFormed.putEntry (hg : g.WellFormed) {key : String} {convs : List Conversion}
    (hsrc : ∀ c ∈ convs, c.source.name = key) (hnodup : convs.Nodup) : WellFormed (putEntry g key convs) where
  source_name entry hentry := by
    rcases mem_putEntry hentry with rfl | hentry
    · exact hsrc
    · exact hg.source_name entry hentry
  nodup entry hentry := by
    rcases mem_putEntry hentry with rfl | hentry
    · exact hnodup
    · exact hg.nodup entry hentry

end ConversionGraph

/-- Scalar types of one name are one type, and so are those with one serial number. -/
def Identified (types : List ScalarType) : Prop :=
  ∀ s ∈ types, ∀ t ∈ types, s.name = t.name ∨ s.serial = t.serial → s = t

variable {conv : Conversion} {type : ScalarType}

namespace Catalog

/-- Objects are kept under their names, and conversions under the names of their sources. -/
structure WellKept (c : Catalog) : Prop where
  objects : ∀ entry ∈ c.objects, entry.2.name = entry.1
  conversions : ConversionGraph.WellFormed c.conversions

/-- The scalar types that are declared or that conversions lead to. -/
def scalarTypes (c : Catalog) : List ScalarType :=
  (c.objects.filterMap fun
    | (_, .scalarType type) => some type
    | _ => none) ++ (c.conversions.flatMap Prod.snd).map (·.target)

variable {c : Catalog} {types : List ScalarType}

theorem mem_scalarTypes_of_object {key : String} (h : (key, .scalarType type) ∈ c.objects) :
    type ∈ c.scalarTypes :=
  mem_append_left _ (mem_filterMap.mpr ⟨_, h, rfl⟩)

theorem mem_scalarTypes_of_conversion {entry : String × List Conversion}
    (hentry : entry ∈ c.conversions) (h : conv ∈ entry.2) : conv.target ∈ c.scalarTypes :=
  mem_append_right _ (mem_map_of_mem (mem_flatMap.mpr ⟨entry, hentry, h⟩))

/-- All scalar types of a catalog are among others if its declared types and the targets of its
conversions are. -/
theorem scalarTypes_subset (hobjs : ∀ key type, (key, .scalarType type) ∈ c.objects → type ∈ types)
    (hconvs : ∀ entry ∈ c.conversions, ∀ conv ∈ entry.2, conv.target ∈ types) : c.scalarTypes ⊆ types := by
  intro type htype
  rcases mem_append.mp htype with h | h
  · obtain ⟨⟨key, obj⟩, hentry, hobj⟩ := mem_filterMap.mp h
    cases obj with
    | scalarType other =>
      obtain rfl : other = type := by simpa using hobj
      exact hobjs key other hentry
    | tableVar _ => simp at hobj
  · obtain ⟨conv, hmem, rfl⟩ := mem_map.mp h
    obtain ⟨entry, hentry, hconv⟩ := mem_flatMap.mp hmem
    exact hconvs entry hentry conv hconv

end Catalog

/-- A change that keeps the catalog well kept and its types among the given ones, and that changes no
conversion within types that it does not announce. -/
structure Change.IsAnnounced {α : Type} (types : List ScalarType) (c : Catalog)
    (change : Change α) : Prop where
  wellKept : change.catalog.WellKept
  scalarTypes : change.catalog.scalarTypes ⊆ types
  sameWithin : ∀ names, (∀ event ∈ change.events, ∀ name ∈ event.typeName?, name ∉ names) →
    PathSearch.SameWithin names c.conversions change.catalog.conversions

namespace Catalog

variable {c : Catalog} {types : List ScalarType}

theorem isAnnounced_of_eq {α : Type} {change : Change α} (hc : c.WellKept)
    (htypes : c.scalarTypes ⊆ types) (hobjs : change.catalog.objects = c.objects)
    (hconvs : change.catalog.conversions = c.conversions) : change.IsAnnounced types c where
  wellKept := ⟨hobjs ▸ hc.objects, hconvs ▸ hc.conversions⟩
  scalarTypes := by
    rw [scalarTypes, hobjs, hconvs]
    exact htypes
  sameWithin _ _ _ _ _ := by rw [hconvs]

theorem isAnnounced_of_putEntry {α : Type} {change : Change α} (hc : c.WellKept)
    (htypes : c.scalarTypes ⊆ types) (src : String) {convs : List Conversion}
    (hobjs : change.catalog.objects = c.objects)
    (hconvs : change.catalog.conversions = putEntry c.conversions src convs)
    (hsrc : ∀ conv ∈ convs, conv.source.name = src)
    (hnodup : convs.Nodup) (htgt : ∀ conv ∈ convs, conv.target ∈ types)
    (hevent : ∃ event ∈ change.events, event.typeName? = some src) : change.IsAnnounced types c where
  wellKept := ⟨hobjs ▸ hc.objects, hconvs ▸ hc.conversions.putEntry hsrc hnodup⟩
  scalarTypes := by
    refine scalarTypes_subset (fun key type h => ?_) fun entry hentry => ?_
    · exact htypes (mem_scalarTypes_of_object (hobjs ▸ h))
    · rw [hconvs] at hentry
      rcases mem_putEntry hentry with rfl | hentry
      · exact htgt
      · exact fun conv h => htypes (mem_scalarTypes_of_conversion hentry h)
  sameWithin names hnames type htype _ := by
    obtain ⟨event, hmem, hname⟩ := hevent
    have hne : type.name ≠ src := fun heq => hnames event hmem src hname (heq ▸ htype)
    rw [hconvs, ConversionGraph.outgoing_putEntry, if_neg hne]

theorem mem_conversionsFrom {src : ScalarType} (h : conv ∈ c.conversionsFrom src) :
    (src.name, c.conversionsFrom src) ∈ c.conversions :=
  ConversionGraph.mem_of_mem_outgoing h

theorem addConversionOperator_catalog (c : Catalog) (conv : Conversion) :
    (c.addConversionOperator conv).catalog.objects = c.objects ∧
      (c.addConversionOperator conv).catalog.conversions = c.conversions := by
  unfold addConversionOperator addOperator
  split
  · exact ⟨rfl, rfl⟩
  · dsimp only
    split <;> exact ⟨rfl, rfl⟩

theorem isAnnounced_addConversion (hc : c.WellKept) (htypes : c.scalarTypes ⊆ types)
    (htgt : conv.target ∈ types) : (c.addConversion conv).IsAnnounced types c := by
  obtain ⟨hobjs, hconvs⟩ := c.addConversionOperator_catalog conv
  unfold addConversion
  generalize c.addConversionOperator conv = change at hobjs hconvs
  obtain ⟨catalog, events, res⟩ := change
  dsimp only at hobjs hconvs ⊢
  have hexisting : catalog.conversionsFrom conv.source =
      c.conversionsFrom conv.source := by
    rw [conversionsFrom, conversionsFrom, hconvs]
  rw [hexisting]
  split
  · exact isAnnounced_of_eq hc htypes hobjs hconvs
  · rename_i hnone
    refine isAnnounced_of_putEntry hc htypes conv.source.name hobjs
      (by rw [hconvs]) ?_ ?_ ?_ ⟨.conversionChanged conv, by simp, rfl⟩
    · intro other hother
      rcases mem_append.mp hother with hother | hother
      · exact hc.conversions.source_name_of_mem_outgoing hother
      · rw [mem_singleton.mp hother]
    · rw [← concat_eq_append]
      refine (hc.conversions.nodup_outgoing _).concat fun hmem => ?_
      simpa using find?_eq_none.mp hnone conv hmem
    · intro other hother
      rcases mem_append.mp hother with hother | hother
      · exact htypes (mem_scalarTypes_of_conversion (mem_conversionsFrom hother) hother)
      · rwa [mem_singleton.mp hother]

theorem isAnnounced_removeConversion (hc : c.WellKept) (htypes : c.scalarTypes ⊆ types)
    (src tgt : ScalarType) : (c.removeConversion src tgt).IsAnnounced types c := by
  unfold removeConversion
  dsimp only
  split
  · exact isAnnounced_of_eq hc htypes rfl rfl
  · rename_i removed hremoved
    have hmem : removed ∈ c.conversionsFrom src := mem_of_find?_eq_some hremoved
    have hsub : ((c.conversionsFrom src).eraseP (·.target.name == tgt.name)).Sublist
        (c.conversionsFrom src) := eraseP_sublist
    refine isAnnounced_of_putEntry hc htypes src.name rfl rfl ?_ ?_ ?_
      ⟨.conversionChanged removed, by simp, ?_⟩
    · exact fun other hother => hc.conversions.source_name_of_mem_outgoing (hsub.subset hother)
    · exact (hc.conversions.nodup_outgoing src).sublist hsub
    · intro other hother
      have hother' := hsub.subset hother
      exact htypes (mem_scalarTypes_of_conversion (mem_conversionsFrom hother') hother')
    · exact congrArg some (hc.conversions.source_name_of_mem_outgoing hmem)

theorem isAnnounced_addScalarType (hc : c.WellKept) (htypes : c.scalarTypes ⊆ types)
    (htype : type ∈ types) : (c.addScalarType type).IsAnnounced types c := by
  unfold addScalarType addObject
  cases c.object? (CatalogObject.scalarType type).name with
  | some existing => exact isAnnounced_of_eq hc htypes rfl rfl
  | none =>
    refine ⟨⟨fun entry hentry => ?_, hc.conversions⟩, ?_, fun _ _ _ _ _ => rfl⟩
    · rcases mem_append.mp hentry with hentry | hentry
      · exact hc.objects entry hentry
      · rw [mem_singleton.mp hentry]
    · refine scalarTypes_subset (fun key other h => ?_) fun entry hentry conv h => ?_
      · rcases mem_append.mp h with h | h
        · exact htypes (mem_scalarTypes_of_object h)
        · obtain ⟨-, heq⟩ := Prod.mk.inj (mem_singleton.mp h)
          exact CatalogObject.scalarType.inj heq ▸ htype
      · exact htypes (mem_scalarTypes_of_conversion hentry h)

theorem outgoing_conversionsWithout (c : Catalog) (name : String) (removed type : ScalarType) :
    ConversionGraph.outgoing (c.conversionsWithout name removed) type = if type.name = name then []
      else (c.conversionsFrom type).filter fun conv => !conv.target.isSame removed := by
  rw [ConversionGraph.outgoing, conversionsWithout, conversionsFrom]
  rw [lookup_map_values _ type.name fun _ (convs : List Conversion) =>
    convs.filter fun conv => !conv.target.isSame removed, lookup_filter_ne]
  split
  · rfl
  · cases c.conversions.lookup type.name with
    | none => rfl
    | some _ => rfl

theorem mem_conversionsWithout {name : String} {removed : ScalarType}
    {entry : String × List Conversion} (h : entry ∈ c.conversionsWithout name removed) :
    ∃ old ∈ c.conversions, entry.1 = old.1 ∧ entry.2.Sublist old.2 := by
  obtain ⟨old, hold, rfl⟩ := mem_map.mp h
  exact ⟨old, mem_of_mem_filter hold, rfl, filter_sublist⟩

/-- Removing a type removes conversions from types that are not announced. Each of them leads to the
removed type, so that a search that looked at it has met an announced type. -/
theorem isAnnounced_dropScalarType (hc : c.WellKept) (hid : Identified types)
    (htypes : c.scalarTypes ⊆ types) (name : String) : (c.dropScalarType name).IsAnnounced types c := by
  unfold dropScalarType
  cases hobj : c.object? name with
  | none => exact isAnnounced_of_eq hc htypes rfl rfl
  | some obj =>
  cases obj with
  | tableVar _ => exact isAnnounced_of_eq hc htypes rfl rfl
  | scalarType removed =>
  have hentry : (name, .scalarType removed) ∈ c.objects := by
    obtain ⟨before, after, heq, -⟩ := lookup_eq_some_iff.mp hobj
    rw [heq]
    simp
  have hname : removed.name = name := hc.objects _ hentry
  have hremoved : removed ∈ types := htypes (mem_scalarTypes_of_object hentry)
  refine ⟨⟨fun entry h => hc.objects entry (mem_of_mem_filter h), ?_, ?_⟩, ?_, ?_⟩
  · intro entry h conv hconv
    obtain ⟨old, hold, hkey, hsub⟩ := mem_conversionsWithout h
    exact hkey ▸ hc.conversions.source_name old hold conv (hsub.subset hconv)
  · intro entry h
    obtain ⟨old, hold, -, hsub⟩ := mem_conversionsWithout h
    exact (hc.conversions.nodup old hold).sublist hsub
  · refine scalarTypes_subset (fun key type h => ?_) fun entry h conv hconv => ?_
    · exact htypes (mem_scalarTypes_of_object (mem_of_mem_filter h))
    · obtain ⟨old, hold, -, hsub⟩ := mem_conversionsWithout h
      exact htypes (mem_scalarTypes_of_conversion hold (hsub.subset hconv))
  · intro names hnames type htype hclosed
    have hannounced : name ∉ names :=
      hnames (.typeChanged removed) mem_cons_self name (congrArg some hname)
    have hother : type.name ≠ name := fun heq => hannounced (heq ▸ htype)
    rw [outgoing_conversionsWithout, if_neg hother]
    refine filter_eq_self.mpr fun conv hconv => ?_
    have htgt : conv.target ∈ types :=
      htypes (mem_scalarTypes_of_conversion (mem_conversionsFrom hconv) hconv)
    have hserial : conv.target.serial ≠ removed.serial := by
      intro hserial
      obtain heq := hid _ htgt _ hremoved (Or.inr hserial)
      exact hannounced (hname ▸ heq ▸ hclosed conv hconv)
    simpa [ScalarType.isSame] using hserial

end Catalog

end Relational
