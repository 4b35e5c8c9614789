import Relational.Proofs.Conversion.Cache

/-!
# Changes of the declared operators

A reference designates an operator by the segments at the end of its name, so that both have the same
last segment. A change of the operators of a name announces that name. It can change what a reference
designates only if the last segments agree, whether overloads are added or removed, a new name is
declared, or the operators of a name become visible because they no longer all belong to sessions.
-/

namespace Relational

open List

variable {reference : String} {names names' : List String}

namespace Name

theorem unqualified_append (space name : String) : unqualified (space ++ "." ++ name) = unqualified name := by
  have hdot : ".".toList = ['.'] := rfl
  rw [unqualified, unqualified, String.toList_append, String.toList_append, hdot]
  rw [reverse_append, takeWhile_append]
  split
  · rename_i hall
    have hname := (List.takeWhile_prefix (· ≠ '.')).eq_of_length hall
    rw [hname]
    simp
  · rfl

theorem unqualified_qualified (space name : String) :
    unqualified (qualified space name) = unqualified name := by
  rw [qualified]
  split
  · rfl
  · exact unqualified_append space name

theorem unqualified_of_isDesignatedBy {obj : String} (h : isDesignatedBy obj reference) :
    unqualified obj = unqualified reference := by
  rcases Bool.or_eq_true_iff.mp h with h | h
  · rw [eq_of_beq h]
  · obtain ⟨space, hspace⟩ := isSuffixOf_iff_suffix.mp h
    have hobj : obj = String.ofList space ++ "." ++ reference := by
      rw [← String.toList_inj, ← hspace]
      simp
    rw [hobj, unqualified_append]

end Name

theorem designate_congr (h : names.filter (Name.isDesignatedBy · reference) =
      names'.filter (Name.isDesignatedBy · reference)) (path : ResolutionPath) :
    designate names reference path = designate names' reference path := by
  rw [designate, h, designate]

variable {path : ResolutionPath} {op : Operator} {name : String} {overloads : Overloads}

theorem mem_of_designateAlong {designated : List String}
    (h : designateAlong designated path = .one name) : name ∈ designated := by
  induction path with
  | nil => cases h
  | cons library path ih =>
    rw [designateAlong] at h
    split at h
    · exact ih h
    · rename_i found hlevel
      obtain rfl := Designation.one.inj h
      exact mem_of_mem_filter (hlevel ▸ mem_singleton_self found)
    · cases h

theorem mem_of_designate (h : designate names reference path = .one name) :
    name ∈ names.filter (Name.isDesignatedBy · reference) := by
  have hmem : ∀ other ∈ sortNames (names.filter (Name.isDesignatedBy · reference)),
      other ∈ names.filter (Name.isDesignatedBy · reference) := by
    intro other hother
    rwa [sortNames, mem_mergeSort] at hother
  rw [designate] at h
  split at h
  · cases h
  · rename_i found hsorted
    obtain rfl := Designation.one.inj h
    exact hmem found (hsorted ▸ mem_singleton_self found)
  · exact hmem name (mem_of_designateAlong h)

theorem exists_of_findDesignated {α : Type} {lookup : String → Option α} {val : α}
    (h : findDesignated lookup names reference path = .one val) : ∃ key, lookup key = some val ∧
      (key = reference ∨ designate names reference path = .one key) := by
  unfold findDesignated at h
  split at h
  · cases h
    exact ⟨reference, ‹_›, .inl rfl⟩
  · split at h
    · cases h
    · cases h
    · rename_i key hkey
      cases hval : lookup key <;> rw [hval] at h <;> cases h
      exact ⟨key, hval, .inr hkey⟩

/-! ### What references designate -/

/-- The scalar types of the parameters of an operator. -/
def Operator.scalars (op : Operator) : List ScalarType :=
  op.signature.flatMap (·.type.scalars)

/-- The scalar types of the parameters of operators that are kept by name. -/
def overloadScalars (operators : List (String × Overloads)) : List ScalarType :=
  operators.flatMap fun entry => entry.2.operators.flatMap Operator.scalars

theorem scalars_subset_overloadScalars {operators : List (String × Overloads)}
    {entry : String × Overloads} (hentry : entry ∈ operators) (hop : op ∈ entry.2.operators) :
    op.scalars ⊆ overloadScalars operators :=
  fun _ htype => mem_flatMap.mpr ⟨entry, hentry, mem_flatMap.mpr ⟨op, hop, htype⟩⟩

namespace Catalog

/-- Operators are kept under their names, and their parameters are of given types. -/
structure OperatorsAmong (types : List ScalarType) (c : Catalog) : Prop where
  named : ∀ entry ∈ c.operators, entry.2.name = entry.1
  scalars : overloadScalars c.operators ⊆ types

variable {c : Catalog} {types : List ScalarType}

theorem mem_of_resolveOperatorName (h : c.resolveOperatorName reference path = .one overloads) :
    ∃ name, (name, overloads) ∈ c.operators ∧ Name.isDesignatedBy name reference := by
  obtain ⟨name, hlookup, hname⟩ := exists_of_findDesignated h
  refine ⟨name, mem_of_lookup hlookup, ?_⟩
  rcases hname with rfl | hname
  · simp [Name.isDesignatedBy]
  · exact (mem_filter.mp (mem_of_designate hname)).2

theorem OperatorsAmong.unqualified_eq (hc : c.OperatorsAmong types)
    (h : c.resolveOperatorName reference path = .one overloads) :
    Name.unqualified overloads.name = Name.unqualified reference := by
  obtain ⟨name, hmem, hname⟩ := mem_of_resolveOperatorName h
  rw [hc.named _ hmem]
  exact Name.unqualified_of_isDesignatedBy hname

theorem scalars_of_resolveOperatorName (hc : overloadScalars c.operators ⊆ types)
    (h : c.resolveOperatorName reference path = .one overloads) :
    ∀ op ∈ overloads.operators, op.scalars ⊆ types := by
  obtain ⟨name, hmem, -⟩ := mem_of_resolveOperatorName h
  exact fun op hop type htype => hc (scalars_subset_overloadScalars hmem hop htype)

/-- A reference designates what it did when the operators of a name are changed that it does not
designate. -/
theorem resolveOperatorName_putEntry {c' : Catalog} {key : String}
    (hput : c'.operators = putEntry c.operators key overloads)
    (hkey : Name.isDesignatedBy key reference = false) (path : ResolutionPath) :
    c'.resolveOperatorName reference path = c.resolveOperatorName reference path := by
  have hlookup : ∀ name, Name.isDesignatedBy name reference →
      c'.operators.lookup name = c.operators.lookup name := by
    intro name hname
    rw [hput, lookup_putEntry, if_neg fun heq => by simp [heq, hkey] at hname]
  have hvis : designate ((c'.operators.filter fun entry => !entry.2.isPrivate).map Prod.fst)
      reference path = designate ((c.operators.filter fun entry => !entry.2.isPrivate).map Prod.fst)
        reference path := by
    refine designate_congr ?_ path
    rw [filter_map, filter_map, filter_filter, filter_filter, hput]
    exact congrArg _ (filter_putEntry _ _ (fun val => by simp [hkey]) _)
  have hself : Name.isDesignatedBy reference reference := by simp [Name.isDesignatedBy]
  simp only [resolveOperatorName, findDesignated, hlookup reference hself, hvis]
  split
  · rfl
  · split
    · rfl
    · rfl
    · rename_i found hfound
      rw [hlookup found (mem_filter.mp (mem_of_designate hfound)).2]

end Catalog

/-! ### Announced changes -/

theorem Overloads.eq_of_add {o added : Overloads} (h : o.add op = .ok added) :
    added = { o with operators := o.operators ++ [op] } := by
  rw [add] at h
  split at h
  · cases h
  · exact (Except.ok.inj h).symm

/-- The name whose operators an event concerns. -/
def CatalogEvent.operatorName? : CatalogEvent → Option String
  | operatorChanged name => some name
  | typeChanged _ => none
  | conversionChanged _ => none

/-- A change that keeps operators under their names and their parameters of given types, and that
announces every name of operators by whose last segment references may designate something else. -/
structure Change.AnnouncesOperators {α : Type} (types : List ScalarType) (c : Catalog)
    (change : Change α) : Prop where
  among : change.catalog.OperatorsAmong types
  resolves : ∀ reference, (∀ event ∈ change.events, ∀ name ∈ event.operatorName?,
      Name.unqualified name ≠ Name.unqualified reference) → ∀ path,
    change.catalog.resolveOperatorName reference path = c.resolveOperatorName reference path

namespace Catalog

variable {c : Catalog} {types : List ScalarType}

section

variable (hc : c.OperatorsAmong types)

include hc

theorem announcesOperators_of_eq {α : Type} {change : Change α}
    (h : change.catalog.operators = c.operators) : change.AnnouncesOperators types c where
  among := ⟨h ▸ hc.named, h ▸ hc.scalars⟩
  resolves reference _ path := by rw [resolveOperatorName, h, resolveOperatorName]

theorem announcesOperators_of_putEntry {α : Type} {change : Change α}
    (hscalars : ∀ op ∈ overloads.operators, op.scalars ⊆ types)
    (hput : change.catalog.operators = putEntry c.operators overloads.name overloads)
    (hevent : .operatorChanged overloads.name ∈ change.events) : change.AnnouncesOperators types c where
  among := by
    constructor
    · intro entry hentry
      rw [hput] at hentry
      rcases mem_putEntry hentry with rfl | hentry
      · rfl
      · exact hc.named entry hentry
    · intro type htype
      obtain ⟨entry, hentry, hop⟩ := mem_flatMap.mp htype
      rw [hput] at hentry
      rcases mem_putEntry hentry with rfl | hentry
      · obtain ⟨op, hop, htype⟩ := mem_flatMap.mp hop
        exact hscalars op hop htype
      · exact hc.scalars (mem_flatMap.mpr ⟨entry, hentry, hop⟩)
  resolves reference hnames path := resolveOperatorName_putEntry hput (Bool.eq_false_iff.mpr
    fun hname => hnames _ hevent _ rfl (Name.unqualified_of_isDesignatedBy hname)) path

theorem OperatorsAmong.lookup (h : c.operators.lookup name = some overloads) :
    overloads.name = name ∧ ∀ op ∈ overloads.operators, op.scalars ⊆ types :=
  ⟨hc.named _ (mem_of_lookup h), fun _ hop _ htype =>
    hc.scalars (scalars_subset_overloadScalars (mem_of_lookup h) hop htype)⟩

theorem OperatorsAmong.lookup_getD (name : String) :
    ((c.operators.lookup name).getD { name }).name = name ∧
      ∀ op ∈ ((c.operators.lookup name).getD { name }).operators, op.scalars ⊆ types := by
  cases hlookup : c.operators.lookup name with
  | none => simp
  | some overloads => exact hc.lookup hlookup

theorem announcesOperators_addOperator (hop : op.scalars ⊆ types) :
    (c.addOperator op).AnnouncesOperators types c := by
  obtain ⟨hname, hscalars⟩ := hc.lookup_getD op.name
  rw [addOperator]
  split
  · exact announcesOperators_of_eq hc rfl
  · rename_i overloads hadd
    have hoverloads := Overloads.eq_of_add hadd
    have hsame : overloads.name = op.name := by rw [hoverloads, hname]
    refine announcesOperators_of_putEntry hc (fun other hother => ?_) (by rw [hsame]) (by simp [hsame])
    rw [hoverloads] at hother
    rcases mem_append.mp hother with hother | hother
    · exact hscalars other hother
    · rwa [mem_singleton.mp hother]

end

theorem isAnnounced_addOperator (hc : c.WellKept) (htypes : c.scalarTypes ⊆ types) (op : Operator) :
    (c.addOperator op).IsAnnounced types c := by
  rw [addOperator]
  split <;> exact isAnnounced_of_eq hc htypes rfl rfl

theorem announcesOperators_removeOperator (hc : c.OperatorsAmong types) (op : Operator) :
    (c.removeOperator op).AnnouncesOperators types c := by
  rw [removeOperator]
  split
  · exact announcesOperators_of_eq hc rfl
  · rename_i overloads hlookup
    obtain ⟨hname, hscalars⟩ := hc.lookup hlookup
    have hrest : (overloads.remove op).name = op.name := hname
    split
    · refine announcesOperators_of_putEntry hc (fun other hother => ?_) (by rw [hrest]) (by simp [hrest])
      exact hscalars other (eraseP_subset hother)
    · exact announcesOperators_of_eq hc rfl

theorem isAnnounced_removeOperator (hc : c.WellKept) (htypes : c.scalarTypes ⊆ types)
    (op : Operator) : (c.removeOperator op).IsAnnounced types c := by
  rw [removeOperator]
  split
  · exact isAnnounced_of_eq hc htypes rfl rfl
  · split <;> exact isAnnounced_of_eq hc htypes rfl rfl

theorem announcesOperators_addConversion (hc : c.OperatorsAmong types) {conv : Conversion}
    (hop : ∀ op ∈ conv.operator, op.scalars ⊆ types) : (c.addConversion conv).AnnouncesOperators types c := by
  have hadded : (c.addConversionOperator conv).AnnouncesOperators types c := by
    rw [addConversionOperator]
    split
    · exact announcesOperators_of_eq hc rfl
    · rename_i op hsome
      exact ⟨(announcesOperators_addOperator hc (hop op hsome)).among,
        (announcesOperators_addOperator hc (hop op hsome)).resolves⟩
  rw [addConversion]
  dsimp only
  split
  · exact ⟨hadded.among, hadded.resolves⟩
  · refine ⟨⟨hadded.among.named, hadded.among.scalars⟩, fun reference hnames path => ?_⟩
    exact hadded.resolves reference (fun event hevent => hnames event (mem_append_left _ hevent)) path

theorem operators_removeConversion (c : Catalog) (src tgt : ScalarType) :
    (c.removeConversion src tgt).catalog.operators = c.operators := by
  rw [removeConversion]
  split <;> rfl

theorem operators_addScalarType (c : Catalog) (type : ScalarType) :
    (c.addScalarType type).catalog.operators = c.operators := by
  rw [addScalarType, addObject]
  cases c.object? (CatalogObject.scalarType type).name <;> rfl

theorem operators_dropScalarType (c : Catalog) (name : String) :
    (c.dropScalarType name).catalog.operators = c.operators := by
  rw [dropScalarType]
  split <;> rfl

end Catalog

end Relational
