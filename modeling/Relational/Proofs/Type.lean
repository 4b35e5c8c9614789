import Mathlib.Data.List.Perm.Subperm
import Relational.Conversion.Find
import Relational.Proofs.Entries

/-!
# Equality and subtyping

Types are compared by the names of scalar types and the names of columns. Where a name stands for one
scalar type, and no two columns of a row share a name, equality is an equivalence that subtyping does not
see through, and every type is a subtype of itself.

Subtyping is not transitive. Rows with any columns count as rows without columns, since neither show a
column, and every row counts as a row with any columns; but a row with columns is no row without columns.
This is the only way in which a chain of two subtypes breaks.
-/

namespace Relational

open List

namespace ScalarType

variable {s t u : ScalarType} {known : String → ScalarType}

/-- A scalar type that is the one its name stands for, as are all those it inherits from. -/
inductive Known (known : String → ScalarType) : ScalarType → Prop
  | intro {s : ScalarType} (hname : known s.name = s) (hparents : ∀ parent ∈ s.parents, Known known parent) :
    Known known s

theorem Known.eq_of_name (hs : s.Known known) (ht : t.Known known) (h : s.name = t.name) : s = t := by
  cases hs with
  | intro hs =>
    cases ht with
    | intro ht => rw [← hs, ← ht, h]

theorem isA_iff : s.isA t ↔ t.generic ∨ s.name = t.name ∨ ∃ parent ∈ s.parents, parent.isA t := by
  obtain ⟨serial, name, native, generic, parents⟩ := s
  have hany : ∀ ps, anyIsA ps t ↔ ∃ parent ∈ ps, parent.isA t := by
    intro ps
    induction ps with
    | nil => simp [anyIsA]
    | cons parent ps ih => simp [anyIsA, ih]
  simp [isA, hany, or_assoc]

/-- Inheritance can be chained, if generic scalar types do not inherit. -/
theorem isA_trans (hgeneric : ∀ name, (known name).generic → (known name).parents = [])
    (hs : s.Known known) (ht : t.Known known) (hu : u.Known known) (hst : s.isA t) (htu : t.isA u) :
    s.isA u := by
  induction hs with
  | @intro s hname hparents ih =>
    obtain hall | hsame | ⟨parent, hparent, hisA⟩ := isA_iff.mp hst
    · -- the type in the middle inherits from nothing, so the last one is generic as well
      obtain hu' | hsame | ⟨parent, hparent, -⟩ := isA_iff.mp htu
      · exact isA_iff.mpr (.inl hu')
      · rw [← ht.eq_of_name hu hsame]
        exact isA_iff.mpr (.inl hall)
      · obtain ⟨htname, -⟩ := ht
        rw [← htname] at hall hparent
        simp [hgeneric _ hall] at hparent
    · rwa [Known.eq_of_name (.intro hname hparents) ht hsame]
    · exact isA_iff.mpr (.inr (.inr ⟨parent, hparent, ih parent hparent hisA⟩))

end ScalarType

theorem Columns.has_iff {cols : Columns} {name : String} : cols.has name ↔ name ∈ cols.names := by
  simp [has, names]

theorem Columns.has_eq_isSome_type? (cols : Columns) (name : String) :
    cols.has name = (cols.type? name).isSome :=
  any_key_eq cols name

mutual

/-- The scalar types in a type. -/
def Ty.scalars : Ty → List ScalarType
  | .scalar type => [type]
  | .rows _ columns => columnScalars columns
  | .list element => element.scalars
  | _ => []

/-- The scalar types in columns. -/
def columnScalars : List (String × Ty) → List ScalarType
  | [] => []
  | (_, type) :: rest => type.scalars ++ columnScalars rest

end

theorem mem_columnScalars {cols : Columns} {s : ScalarType} :
    s ∈ columnScalars cols ↔ ∃ col ∈ cols, s ∈ col.2.scalars := by
  induction cols with
  | nil => simp [columnScalars]
  | cons col rest ih => simp [columnScalars, ih]

namespace Ty

variable {cols cols' others : Columns} {t u v : Ty}

/-! ### Columns -/

/-- Each column of the first list has a column of the same name in the second, with related types. -/
def ColumnsMatch (R : Ty → Ty → Prop) (columns others : Columns) : Prop :=
  ∀ column ∈ columns, ∃ other, others.lookup column.1 = some other ∧ R column.2 other

theorem columnsEqual_iff : columnsEqual cols others ↔ ColumnsMatch (equals · ·) cols others := by
  induction cols with
  | nil => simp [columnsEqual, ColumnsMatch]
  | cons col rest ih =>
    rw [columnsEqual, Bool.and_eq_true, ih, ColumnsMatch, ColumnsMatch, forall_mem_cons]
    cases others.lookup col.1 <;> simp

theorem columnsAre_iff : columnsAre cols others ↔ ColumnsMatch (isA · ·) cols others := by
  induction cols with
  | nil => simp [columnsAre, ColumnsMatch]
  | cons col rest ih =>
    rw [columnsAre, Bool.and_eq_true, ih, ColumnsMatch, ColumnsMatch, forall_mem_cons]
    cases others.lookup col.1 <;> simp

namespace ColumnsMatch

variable {R S T : Ty → Ty → Prop}

theorem trans (h : ColumnsMatch R cols cols') (h' : ColumnsMatch S cols' others)
    (hT : ∀ col ∈ cols, ∀ u v, cols'.lookup col.1 = some u →
      others.lookup col.1 = some v → R col.2 u → S u v → T col.2 v) : ColumnsMatch T cols others := by
  intro col hcol
  obtain ⟨u, hu, hR⟩ := h col hcol
  obtain ⟨v, hv, hS⟩ := h' _ (mem_of_lookup hu)
  exact ⟨v, hv, hT col hcol u v hu hv hR hS⟩

variable (h : ColumnsMatch R cols others)

include h

theorem names_subset : cols.names ⊆ others.names := by
  intro name hname
  obtain ⟨col, hcol, rfl⟩ := mem_map.mp hname
  obtain ⟨other, hother, -⟩ := h col hcol
  exact mem_map.mpr ⟨_, mem_of_lookup hother, rfl⟩

/-- Columns without repeated names have the same names as as many columns that they match. -/
theorem names_perm (hnames : cols.names.Nodup) (hlen : cols.length = others.length) :
    cols.names.Perm others.names :=
  (subperm_of_subset hnames h.names_subset).perm_of_length_le (by simp [Columns.names, hlen])

theorem symm (hnames : cols.names.Nodup) (hlen : cols.length = others.length)
    (hR : ∀ col ∈ cols, ∀ other, R col.2 other → S other col.2) : ColumnsMatch S others cols := by
  have hperm := h.names_perm hnames hlen
  intro other hother
  obtain ⟨⟨name, type⟩, hcol, rfl⟩ := mem_map.mp (hperm.symm.subset (mem_map_of_mem hother))
  obtain ⟨type', hlookup, hrelated⟩ := h _ hcol
  rw [(lookup_eq_some_iff_mem (hperm.nodup_iff.mp hnames)).mpr hother] at hlookup
  cases hlookup
  exact ⟨type, (lookup_eq_some_iff_mem hnames).mpr hcol, hR _ hcol _ hrelated⟩

end ColumnsMatch

/-! ### Well-formed types -/

mutual

/-- Whether no two columns of a type have the same name, nor of a type in it. -/
def hasUniqueNames : Ty → Bool
  | .rows _ columns => decide (Columns.names columns).Nodup && columnsHaveUniqueNames columns
  | .list element => element.hasUniqueNames
  | _ => true

/-- Whether the types of columns have unique column names. -/
def columnsHaveUniqueNames : List (String × Ty) → Bool
  | [] => true
  | (_, type) :: rest => type.hasUniqueNames && columnsHaveUniqueNames rest

end

end Ty

/-- No two columns have one name, nor have columns of their types. -/
structure Columns.Unique (columns : Columns) : Prop where
  nodup : columns.names.Nodup
  types : ∀ column ∈ columns, column.2.hasUniqueNames

namespace Ty

variable {form : Form} {cols others : Columns} {known : String → ScalarType} {t u v : Ty}

/-- A type all of whose scalar types are the ones that their names stand for, and no two of whose columns
have the same name on any level. -/
inductive WellFormed (known : String → ScalarType) : Ty → Prop
  | scalar {s : ScalarType} (h : s.Known known) : WellFormed known (.scalar s)
  | rows {form : Form} {columns : Columns} (hnames : columns.names.Nodup)
      (hcolumns : ∀ column ∈ columns, WellFormed known column.2) : WellFormed known (.rows form columns)
  | anyRows (form : Form) : WellFormed known (.anyRows form)
  | list {element : Ty} (h : WellFormed known element) : WellFormed known (.list element)
  | anyList : WellFormed known .anyList
  | any : WellFormed known .any

theorem hasUniqueNames_rows : (rows form cols).hasUniqueNames ↔ cols.Unique := by
  have hall : columnsHaveUniqueNames cols ↔ ∀ col ∈ cols, col.2.hasUniqueNames := by
    induction cols with
    | nil => simp [columnsHaveUniqueNames]
    | cons col rest ih => simp [columnsHaveUniqueNames, ih]
  rw [hasUniqueNames, Bool.and_eq_true, decide_eq_true_eq, hall]
  exact ⟨fun ⟨hnames, htypes⟩ => ⟨hnames, htypes⟩, fun h => ⟨h.nodup, h.types⟩⟩

theorem WellFormed.hasUniqueNames (h : t.WellFormed known) : t.hasUniqueNames := by
  induction h with
  | rows hnames _ ih => exact hasUniqueNames_rows.mpr ⟨hnames, ih⟩
  | list _ ih => exact ih
  | _ => rfl

theorem WellFormed.known_of_mem (h : t.WellFormed known) {s : ScalarType} (hs : s ∈ t.scalars) :
    s.Known known := by
  induction h with
  | scalar h => rwa [mem_singleton.mp hs]
  | rows _ _ ih =>
    obtain ⟨col, hcol, hs⟩ := mem_columnScalars.mp hs
    exact ih col hcol hs
  | list _ ih => exact ih hs
  | anyRows | anyList | any => cases hs

theorem sizeOf_lt_rows {col : String × Ty} (h : col ∈ cols) : sizeOf col.2 < sizeOf (rows form cols) := by
  have hlt := sizeOf_lt_of_mem h
  obtain ⟨name, type⟩ := col
  simp only [rows.sizeOf_spec, Prod.mk.sizeOf_spec] at hlt ⊢
  omega

/-! ### Comparisons -/

/-- How one type compares with another, where scalar types compare by one relation, and the types of
columns and elements by another. In a wide comparison generic types cover the types of their form. -/
inductive Comparison (S : ScalarType → ScalarType → Prop) (R : Ty → Ty → Prop) (wide : Prop) : Ty → Ty → Prop
  | scalar {s s'} (h : S s s') : Comparison S R wide (.scalar s) (.scalar s')
  | rows {form columns others} (hlength : columns.length = others.length)
      (hmatch : ColumnsMatch R columns others) : Comparison S R wide (.rows form columns) (.rows form others)
  | anyRows (form : Form) : Comparison S R wide (.anyRows form) (.anyRows form)
  | list {element other} (h : R element other) : Comparison S R wide (.list element) (.list other)
  | anyList : Comparison S R wide .anyList .anyList
  | any {t : Ty} (h : wide ∨ t = .any) : Comparison S R wide t .any
  | rowsOfAny (h : wide) (form : Form) (columns : Columns) :
      Comparison S R wide (.rows form columns) (.anyRows form)
  | anyRowsOfNone (h : wide) (form : Form) : Comparison S R wide (.anyRows form) (.rows form [])
  | listOfAny (h : wide) (element : Ty) : Comparison S R wide (.list element) .anyList

/-- A relation that compares types by itself on columns and elements. -/
def Compares (S : ScalarType → ScalarType → Prop) (wide : Prop) (R : Ty → Ty → Prop) : Prop :=
  ∀ {t u}, R t u ↔ Comparison S R wide t u

theorem compares_equals : Compares (·.name = ·.name) False (equals · ·) := by
  refine @fun t u => ⟨fun h => ?_, ?_⟩
  · cases t <;> cases u <;> simp only [equals, Bool.false_eq_true, Bool.and_eq_true, beq_iff_eq] at h
    case scalar => exact .scalar h
    case rows => exact h.1.1 ▸ .rows h.1.2 (columnsEqual_iff.mp h.2)
    case anyRows => exact h ▸ .anyRows _
    case list => exact .list h
    case anyList => exact .anyList
    case any => exact .any (.inr rfl)
  · rintro (h | ⟨hlen, hmatch⟩ | _ | h | _ | h | h | h | h)
    · simpa [equals] using h
    · simpa [equals, hlen] using columnsEqual_iff.mpr hmatch
    · simp [equals]
    · exact h
    · rfl
    · rw [h.resolve_left id]
      rfl
    all_goals exact h.elim

theorem compares_isA : Compares (ScalarType.isA · ·) True (isA · ·) := by
  refine @fun t u => ⟨fun h => ?_, ?_⟩
  · cases t <;> cases u <;> simp only [isA, Bool.false_eq_true, Bool.and_eq_true, beq_iff_eq,
      List.isEmpty_iff] at h
    case scalar.scalar => exact .scalar h
    case rows.rows => exact h.1.1 ▸ .rows h.1.2 (columnsAre_iff.mp h.2)
    case rows.anyRows => exact h ▸ .rowsOfAny trivial _ _
    case anyRows.rows => exact h.1 ▸ h.2 ▸ .anyRowsOfNone trivial _
    case anyRows.anyRows => exact h ▸ .anyRows _
    case list.list => exact .list h
    case list.anyList => exact .listOfAny trivial _
    case anyList.anyList => exact .anyList
    all_goals exact .any (.inl trivial)
  · rintro (h | ⟨hlen, hmatch⟩ | _ | h | _ | _ | _ | _ | _)
    · exact h
    · simpa [isA, hlen] using columnsAre_iff.mpr hmatch
    all_goals first | exact h | simp [isA]

/-- A chain of two subtypes that loses columns: somewhere, rows with columns are taken as rows with any
columns, and these as rows without columns. -/
inductive LosesColumns : Ty → Ty → Ty → Prop
  | rows {form columns} (h : columns ≠ []) : LosesColumns (.rows form columns) (.anyRows form) (.rows form [])
  | column {form columns columns' columns'' name t u v}
      (ht : (name, t) ∈ columns) (hu : columns'.lookup name = some u)
      (hv : columns''.lookup name = some v) (h : LosesColumns t u v) :
      LosesColumns (.rows form columns) (.rows form columns') (.rows form columns'')
  | element {t u v : Ty} (h : LosesColumns t u v) : LosesColumns (.list t) (.list u) (.list v)

namespace Compares

variable {S S' S'' : ScalarType → ScalarType → Prop} {wide wide' wide'' : Prop}
  {R R' R'' : Ty → Ty → Prop}

theorem refl (h : Compares S wide R) (hS : ∀ s, S s s) (t : Ty) (ht : t.hasUniqueNames) : R t t := by
  rw [h]
  induction hn : sizeOf t using Nat.strongRecOn generalizing t with
  | _ n ih =>
    subst hn
    cases t with
    | scalar s => exact .scalar (hS s)
    | rows form cols =>
      obtain ⟨hnames, htypes⟩ := hasUniqueNames_rows.mp ht
      exact .rows rfl fun col hcol => ⟨col.2, (lookup_eq_some_iff_mem hnames).mpr hcol,
        h.mpr (ih _ (sizeOf_lt_rows hcol) col.2 (htypes col hcol) rfl)⟩
    | anyRows form => exact .anyRows form
    | list element => exact .list (h.mpr (ih _ (by simp) element ht rfl))
    | anyList => exact .anyList
    | any => exact .any (.inr rfl)

/-- Two comparisons in a row make one, if those of the scalar types do and columns do not get lost. -/
theorem trans (h : Compares S wide R) (h' : Compares S' wide' R') (h'' : Compares S'' wide'' R'')
    (hwide : wide ∨ wide' → wide'')
    (hS : ∀ s ∈ t.scalars, ∀ s' ∈ u.scalars, ∀ s'' ∈ v.scalars, S s s' → S' s' s'' → S'' s s'')
    (htu : R t u) (huv : R' u v) (hkeeps : wide → wide' → ¬ t.LosesColumns u v) : R'' t v := by
  rw [h'']
  induction hn : sizeOf t using Nat.strongRecOn generalizing t u v with
  | _ n ih =>
    subst hn
    cases h'.mp huv with
    | scalar hs' =>
      obtain ⟨hs⟩ := h.mp htu
      exact .scalar (hS _ (by simp [scalars]) _ (by simp [scalars]) _ (by simp [scalars]) hs hs')
    | rows hlen' hmatch' =>
      cases h.mp htu with
      | rows hlen hmatch =>
        refine .rows (hlen.trans hlen') (hmatch.trans hmatch' ?_)
        intro col hcol u v hu hv htu huv
        refine h''.mpr (ih _ (sizeOf_lt_rows hcol) (fun s hs s' hs' s'' hs'' => ?_) htu huv
          (fun hw hw' hloses => hkeeps hw hw' (.column hcol hu hv hloses)) rfl)
        exact hS s (mem_columnScalars.mpr ⟨_, hcol, hs⟩)
          s' (mem_columnScalars.mpr ⟨_, mem_of_lookup hu, hs'⟩)
          s'' (mem_columnScalars.mpr ⟨_, mem_of_lookup hv, hs''⟩)
      | anyRowsOfNone hw =>
        rw [eq_nil_of_length_eq_zero hlen'.symm]
        exact .anyRowsOfNone (hwide (.inl hw)) _
    | anyRows form =>
      cases h.mp htu with
      | rowsOfAny hw => exact .rowsOfAny (hwide (.inl hw)) form _
      | anyRows => exact .anyRows form
    | list he' =>
      obtain _ | _ | _ | he := h.mp htu
      refine .list (h''.mpr (ih _ (by simp) ?_ he he' (fun hw hw' hloses => ?_) rfl))
      · exact hS
      · exact hkeeps hw hw' (.element hloses)
    | anyList =>
      cases h.mp htu with
      | listOfAny hw => exact .listOfAny (hwide (.inl hw)) _
      | anyList => exact .anyList
    | any hany =>
      obtain hw | rfl := hany
      · exact .any (.inl (hwide (.inr hw)))
      · obtain _ | _ | _ | _ | _ | hany := h.mp htu
        exact .any (hany.imp_left fun hw => hwide (.inl hw))
    | rowsOfAny hw form =>
      cases h.mp htu with
      | rows => exact .rowsOfAny (hwide (.inr hw)) form _
      | anyRowsOfNone => exact .anyRows form
    | anyRowsOfNone hw' form =>
      cases h.mp htu with
      | rowsOfAny hw _ cols =>
        by_cases hnone : cols = []
        · subst hnone
          exact .rows rfl (by simp [ColumnsMatch])
        · exact (hkeeps hw hw' (.rows hnone)).elim
      | anyRows => exact .anyRowsOfNone (hwide (.inr hw')) form
    | listOfAny hw =>
      obtain _ | _ | _ | he := h.mp htu
      exact .listOfAny (hwide (.inr hw)) _

end Compares

/-! ### Equality -/

theorem equals_refl (t : Ty) (h : t.hasUniqueNames) : t.equals t :=
  compares_equals.refl (fun _ => rfl) t h

theorem equals_symm (ht : t.hasUniqueNames) (h : t.equals u) : u.equals t := by
  refine compares_equals.mpr ?_
  induction hn : sizeOf t using Nat.strongRecOn generalizing t u with
  | _ n ih =>
    subst hn
    cases compares_equals.mp h with
    | scalar hname => exact .scalar hname.symm
    | rows hlen hmatch =>
      obtain ⟨hnames, htypes⟩ := hasUniqueNames_rows.mp ht
      exact .rows hlen.symm (hmatch.symm hnames hlen fun col hcol _ hequals =>
        compares_equals.mpr (ih _ (sizeOf_lt_rows hcol) (htypes col hcol) hequals rfl))
    | anyRows form => exact .anyRows form
    | list he => exact .list (compares_equals.mpr (ih _ (by simp) ht he rfl))
    | anyList => exact .anyList
    | any hany =>
      rw [hany.resolve_left id]
      exact .any (.inr rfl)
    | rowsOfAny hwide | anyRowsOfNone hwide | listOfAny hwide => exact hwide.elim

theorem equals_trans (h : t.equals u) (h' : u.equals v) : t.equals v :=
  compares_equals.trans compares_equals compares_equals (by simp) (fun _ _ _ _ _ _ => .trans) h h'
    fun hwide => hwide.elim

/-! ### Subtyping -/

theorem isA_refl (t : Ty) (h : t.hasUniqueNames) : t.isA t :=
  compares_isA.refl (fun _ => ScalarType.isA_iff.mpr (.inr (.inl rfl))) t h

theorem WellFormed.isA_of_equals (ht : t.WellFormed known) (hu : u.WellFormed known) (h : t.equals u)
    (h' : u.isA v) : t.isA v := by
  refine compares_equals.trans compares_isA compares_isA (fun _ => trivial) ?_ h h' fun hwide => hwide.elim
  intro s hs s' hs' _ _ hname
  rw [(ht.known_of_mem hs).eq_of_name (hu.known_of_mem hs') hname]
  exact id

theorem WellFormed.isA_of_isA_of_equals (hu : u.WellFormed known) (hv : v.WellFormed known) (h : t.isA u)
    (h' : u.equals v) : t.isA v := by
  refine compares_isA.trans compares_equals compares_isA (fun _ => trivial) ?_ h h' fun _ hwide => hwide.elim
  intro _ _ s hs s' hs' hisA hname
  rwa [← (hu.known_of_mem hs).eq_of_name (hv.known_of_mem hs') hname]

theorem findConversion_self (h : t.hasUniqueNames) (graph : ConversionGraph) (widen : Bool)
    (cache : Option ConversionCache) :
    findConversion graph widen t t cache = ({ source := t, target := t, canConvert := true }, cache) := by
  rw [findConversion.eq_def, isA_refl t h, Bool.or_true, if_pos rfl]
  rfl

/-- On well-formed types equality is an equivalence that subtyping respects on both sides. Every type is a
subtype of itself, so that a conversion to itself is exact and has no steps. -/
theorem equals_congruence (known : String → ScalarType) {t u v : Ty} (ht : t.WellFormed known)
    (hu : u.WellFormed known) :
    t.equals t ∧ (t.equals u → u.equals t) ∧ (t.equals u → u.equals v → t.equals v) ∧
      (t.equals u → t.isA v = u.isA v ∧ v.isA t = v.isA u) ∧ t.isA t ∧
      ∀ graph widen cache, ∃ outcome, findConversion graph widen t t cache = (outcome, cache) ∧
        outcome.source = t ∧ outcome.target = t ∧ outcome.isExact ∧ outcome.length = 0 := by
  refine ⟨t.equals_refl ht.hasUniqueNames, equals_symm ht.hasUniqueNames, equals_trans, fun h => ?_,
    t.isA_refl ht.hasUniqueNames, fun graph widen cache => ?_⟩
  · have hsymm := equals_symm ht.hasUniqueNames h
    constructor <;> refine Bool.eq_iff_iff.mpr ⟨fun hisA => ?_, fun hisA => ?_⟩
    · exact hu.isA_of_equals ht hsymm hisA
    · exact ht.isA_of_equals hu h hisA
    · exact ht.isA_of_isA_of_equals hu hisA h
    · exact hu.isA_of_isA_of_equals ht hisA hsymm
  · exact ⟨_, findConversion_self ht.hasUniqueNames graph widen cache, rfl, rfl, rfl, rfl⟩

/-- Numbers, whole numbers that inherit from them, and nothing else of interest. -/
def sampleScalar (name : String) : ScalarType :=
  if name = "Integer" then { serial := 3, name, parents := [{ serial := 2, name := "Number" }] }
  else { serial := 2, name }

theorem known_sampleScalar (name : String) : (sampleScalar name).Known sampleScalar := by
  have hplain : ∀ name, name ≠ "Integer" → (sampleScalar name).Known sampleScalar := by
    intro name hname
    have heq : sampleScalar name = { serial := 2, name } := if_neg hname
    rw [heq]
    exact .intro heq (by simp)
  by_cases hname : name = "Integer"
  · subst hname
    exact .intro rfl fun parent hparent => by
      rw [mem_singleton.mp hparent]
      exact hplain "Number" (by decide)
  · exact hplain name hname

/-- A table with the named columns, each of the scalar type it is paired with. -/
def sampleTable (columns : List (String × String)) : Ty :=
  .rows .table (columns.map fun column => (column.1, .scalar (sampleScalar column.2)))

theorem wellFormed_sampleTable {cols : List (String × String)} (h : (cols.map Prod.fst).Nodup) :
    (sampleTable cols).WellFormed sampleScalar := by
  refine .rows (by simpa [Columns.names, Function.comp_def] using h) fun col hcol => ?_
  obtain ⟨name, -, rfl⟩ := mem_map.mp hcol
  exact .scalar (known_sampleScalar _)

theorem equals_congruence_reordered :
    let t := sampleTable [("a", "Integer"), ("b", "Text")]
    let u := sampleTable [("b", "Text"), ("a", "Integer")]
    let v := sampleTable [("b", "Text"), ("a", "Number")]
    t.equals u ∧ t.isA v = u.isA v ∧ u.isA v ∧ ¬ v.isA u := by
  intro t u v
  have ht : t.WellFormed sampleScalar := wellFormed_sampleTable (by decide)
  have hu : u.WellFormed sampleScalar := wellFormed_sampleTable (by decide)
  have hequals : t.equals u := by decide +kernel
  obtain ⟨-, -, -, hcongr, -⟩ := equals_congruence sampleScalar (v := v) ht hu
  exact ⟨hequals, (hcongr hequals).1, by decide +kernel, by decide +kernel⟩

/-! ### Chains of subtypes -/

theorem LosesColumns.not_isA (h : t.LosesColumns u v) : ¬ t.isA v := by
  refine mt compares_isA.mp ?_
  induction h with
  | rows hnone =>
    rintro (_ | ⟨hlen, -⟩)
    exact hnone (eq_nil_of_length_eq_zero hlen)
  | column ht hu hv _ ih =>
    rintro (_ | ⟨-, hmatch⟩)
    obtain ⟨v', hv', hisA⟩ := hmatch _ ht
    cases hv'.symm.trans hv
    exact ih (compares_isA.mp hisA)
  | element _ ih =>
    rintro (_ | _ | _ | hisA)
    exact ih (compares_isA.mp hisA)

/-- A subtype of a subtype is a subtype, unless columns get lost on the way. -/
theorem isA_iff_not_losesColumns (known : String → ScalarType)
    (hgeneric : ∀ name, (known name).generic → (known name).parents = []) {t u v : Ty}
    (ht : t.WellFormed known) (hu : u.WellFormed known) (hv : v.WellFormed known) (htu : t.isA u)
    (huv : u.isA v) : t.isA v ↔ ¬ t.LosesColumns u v := by
  refine ⟨fun h hloses => hloses.not_isA h, fun hkeeps => ?_⟩
  refine compares_isA.trans compares_isA compares_isA (fun _ => trivial) ?_ htu huv fun _ _ => hkeeps
  exact fun s hs s' hs' s'' hs'' =>
    ScalarType.isA_trans hgeneric (ht.known_of_mem hs) (hu.known_of_mem hs') (hv.known_of_mem hs'')

theorem isA_iff_not_losesColumns_inherited :
    let t := sampleTable [("a", "Integer")]
    let u := sampleTable [("a", "Number")]
    t.isA u ∧ u.isA (.anyRows .table) ∧ t.isA (.anyRows .table) := by
  have htu : (sampleTable [("a", "Integer")]).isA (sampleTable [("a", "Number")]) := by decide +kernel
  have hgeneric : ∀ name, (sampleScalar name).generic → (sampleScalar name).parents = [] := by
    intro name
    unfold sampleScalar
    split <;> simp
  refine ⟨htu, rfl, ?_⟩
  exact (isA_iff_not_losesColumns sampleScalar hgeneric (wellFormed_sampleTable (by decide))
    (wellFormed_sampleTable (by decide)) (.anyRows .table) htu rfl).mpr (by rintro ⟨⟩)

/-- A row with a column is a row with any columns, which is a row without columns. -/
theorem exists_isA_not_trans : ∃ t u v : Ty, t.WellFormed sampleScalar ∧ u.WellFormed sampleScalar ∧
    v.WellFormed sampleScalar ∧ t.isA u ∧ u.isA v ∧ ¬ t.isA v := by
  refine ⟨sampleTable [("a", "Integer")], .anyRows .table, sampleTable [],
    wellFormed_sampleTable (by decide), .anyRows .table, wellFormed_sampleTable (by decide), rfl, rfl, ?_⟩
  decide +kernel

end Ty

end Relational
