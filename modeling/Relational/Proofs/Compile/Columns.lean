import Mathlib.Data.List.Perm.Lattice
import Relational.Proofs.Compile.Conversion

/-!
# Conversions column by column

A row or table converts to another one if each of its columns is there in the other one with a type that it
converts to, and the other one has no more columns, unless it may. What comes out does not depend on the
order of the columns but in the order of its lists. An outcome that does not convert is reported as
ambiguous if the types are tied, and otherwise by each column that is missing or fails, once.
-/

namespace Relational

/-- Outcomes that differ in the order of lists only. -/
structure ConversionContext.Reordered (c c' : ConversionContext) : Prop where
  canConvert : c.canConvert = c'.canConvert
  path : c.path = c'.path
  candidates : c.candidates = c'.candidates
  columns : c.columns.Perm c'.columns
  element : c.element = c'.element
  missingFromTarget : c.missingFromTarget.Perm c'.missingFromTarget
  missingFromSource : c.missingFromSource.Perm c'.missingFromSource
  visited : c.visited = c'.visited

variable {g : ConversionGraph} {widen : Bool} {form : Form} {source target : Ty}
  {columns columns' others others' : Columns} {heading : Heading} {name : String}

/-- The outcome of a question for a conversion without a memory. -/
def searched (g : ConversionGraph) (widen : Bool) (source target : Ty) : ConversionContext :=
  (findConversion g widen source target none).1

/-- The outcomes for the columns that two lists of columns share. -/
def searchedColumns (g : ConversionGraph) (widen : Bool) (columns columns' : Columns) :
    List (String × ConversionContext) :=
  columns.filterMap fun column => (columns'.type? column.1).map fun type' =>
    (column.1, searched g widen column.2 type')

theorem findColumns_none (g : ConversionGraph) (widen : Bool) (columns columns' : Columns) :
    findColumns g widen columns columns' none = (searchedColumns g widen columns columns', none) := by
  induction columns with
  | nil => rw [findColumns]; rfl
  | cons column rest ih =>
    obtain ⟨name, type⟩ := column
    rw [findColumns, searchedColumns, List.filterMap_cons]
    cases columns'.type? name with
    | none => exact ih
    | some type' =>
      obtain ⟨context, heq, -⟩ := findConversion_converts g widen type type'
      simp only [Option.map_some, searched, heq]
      exact (bind_of_eq heq).trans (bind_of_eq ih)

theorem searched_toTy (hform : form ≠ .cursor)
    (hisA : (heading.toTy form).isA (.rows form columns') = false) :
    searched g widen (heading.toTy form) (.rows form columns') = combineColumns (heading.toTy form)
      (.rows form columns') heading.columns columns' widen
        (searchedColumns g widen heading.columns columns') := by
  have hnil : (heading.toTy form).isNil = false := by cases heading <;> rfl
  rw [searched, findConversion.eq_def, hnil, hisA, if_neg (by simp)]
  cases form with
  | cursor => exact absurd rfl hform
  | row | table =>
    cases heading with
    | none => rfl
    | some columns => exact congrArg Prod.fst (bind_of_eq (findColumns_none g widen columns columns'))

/-! ### The order of columns -/

namespace Columns

variable (hperm : others.Perm columns)

include hperm

theorem filter_has_perm (hperm' : others'.Perm columns') :
    (columns.names.filter fun name => !columns'.has name).Perm
      (others.names.filter fun name => !others'.has name) := by
  simp only [Columns.has, hperm'.any_eq]
  exact ((hperm.map _).filter _).symm

theorem isA_perm (hperm' : others'.Perm columns') (hnames' : columns'.names.Nodup) :
    (Ty.rows form others).isA (.rows form others') = (Ty.rows form columns).isA (.rows form columns') := by
  rw [Bool.eq_iff_iff]
  simp only [Ty.isA, Bool.and_eq_true, Ty.columnsAre_iff, Ty.ColumnsMatch, hperm.length_eq,
    hperm'.length_eq, lookup_perm hperm' hnames', hperm.mem_iff]

end Columns

theorem sortedNames_perm {names names' : List String} (h : names.Perm names') :
    sortedNames names = sortedNames names' := by
  have hdistinct : ∀ names, (sortedNames names).Nodup := fun names =>
    (pairwise_sortedNames names).imp String.ne_of_lt
  refine List.Perm.eq_of_pairwise (fun a b _ _ hab hba => absurd hba (String.lt_asymm hab))
    (pairwise_sortedNames names) (pairwise_sortedNames names')
    ((List.perm_ext_iff_of_nodup (hdistinct _) (hdistinct _)).mpr fun name => ?_)
  rw [mem_sortedNames, mem_sortedNames, h.mem_iff]

theorem searched_reordered (hform : form ≠ .cursor) (hnames' : columns'.names.Nodup)
    (hisA : (heading.toTy form).isA (.rows form columns') = false) (hperm : others.Perm heading.columns)
    (hperm' : others'.Perm columns') : (searched g widen (heading.toTy form) (.rows form columns')).Reordered
      (searched g widen (Heading.toTy (heading.map fun _ => others) form) (.rows form others')) := by
  have hothers : Heading.columns (heading.map fun _ => others) = others := by
    cases heading with
    | none => exact hperm.eq_nil.symm
    | some => rfl
  have hisA' : (Heading.toTy (heading.map fun _ => others) form).isA (.rows form others') = false := by
    cases heading with
    | none => simpa [Heading.toTy, Ty.isA, hperm'.isEmpty_eq] using hisA
    | some => exact (Columns.isA_perm hperm hperm' hnames').trans hisA
  rw [searched_toTy hform hisA, searched_toTy hform hisA', hothers]
  generalize heading.columns = columns at hperm
  have houtcomes : (searchedColumns g widen columns columns').Perm
      (searchedColumns g widen others others') := by
    simp only [searchedColumns, Columns.type?, lookup_perm hperm' hnames']
    exact (hperm.filterMap _).symm
  have htarget := Columns.filter_has_perm hperm hperm'
  have hsource : (if widen then [] else columns'.names.filter fun name => !columns.has name).Perm
      (if widen then [] else others'.names.filter fun name => !others.has name) := by
    cases widen with
    | true => exact .nil
    | false => exact Columns.filter_has_perm hperm' hperm
  refine ⟨?_, rfl, rfl, houtcomes, rfl, htarget, hsource, sortedNames_perm (houtcomes.flatMap_right _)⟩
  simp only [combineColumns]
  rw [houtcomes.all_eq, htarget.isEmpty_eq, hsource.isEmpty_eq]

/-! ### Reports -/

/-- A column that stands in no conversion's way: where the source has it, the target has it with a type that
its type converts to, and where the target has it, so has the source, unless it may lack it. -/
def ColumnConverts (g : ConversionGraph) (widen : Bool) (columns columns' : Columns) (name : String) : Prop :=
  (∀ type, (name, type) ∈ columns →
    ∃ type', (name, type') ∈ columns' ∧ (searched g widen type type').canConvert = true) ∧
  (widen = false → name ∈ columns'.names → name ∈ columns.names)

/-- The columns that stand in the way of a conversion, each with what is wrong with it. -/
def obstacleColumns (g : ConversionGraph) (widen : Bool) (columns columns' : Columns) :
    List (String × String) :=
  ((columns.names.filter fun name => !columns'.has name).map
    (·, "present in the source but missing from the target")) ++
  ((columns'.names.filter fun name => !widen && !columns.has name).map
    (·, "required by the target but missing from the source")) ++
  (searchedColumns g widen columns columns').filterMap fun (name, c) =>
    if c.canConvert then none else some (name, c.text)

theorem obstacles_combineColumns : (combineColumns source target columns columns' widen
    (searchedColumns g widen columns columns')).obstacles =
      (obstacleColumns g widen columns columns').map fun column =>
        (Cause.columnConversion column.1 column.2).message := by
  simp only [ConversionContext.obstacles, combineColumns, obstacleColumns, List.map_append, List.map_map,
    List.map_filterMap, apply_ite, Option.map_none, Option.map_some, List.append_nil]
  cases widen with
  | true => simp
  | false => rfl

theorem mem_searchedColumns {c : ConversionContext} :
    (name, c) ∈ searchedColumns g widen columns columns' ↔ ∃ type type', (name, type) ∈ columns ∧
      columns'.type? name = some type' ∧ c = searched g widen type type' := by
  simp only [searchedColumns, List.mem_filterMap, Option.map_eq_some_iff, Prod.exists, Prod.mk.injEq]
  constructor
  · rintro ⟨_, type, hmem, type', htype', rfl, rfl⟩
    exact ⟨type, type', hmem, htype', rfl⟩
  · rintro ⟨type, type', hmem, htype', rfl⟩
    exact ⟨name, type, hmem, type', htype', rfl, rfl⟩

theorem mem_obstacleColumns (hnames' : columns'.names.Nodup) :
    name ∈ (obstacleColumns g widen columns columns').map Prod.fst ↔
      ¬ ColumnConverts g widen columns columns' name := by
  have hhas : ∀ columns : Columns, columns.has name = false ↔ name ∉ columns.names := fun columns => by
    rw [← Columns.has_iff, Bool.not_eq_true]
  have hmem : name ∈ (obstacleColumns g widen columns columns').map Prod.fst ↔
      (name ∈ columns.names ∧ name ∉ columns'.names) ∨
      (widen = false ∧ name ∈ columns'.names ∧ name ∉ columns.names) ∨
      ∃ c, (name, c) ∈ searchedColumns g widen columns columns' ∧ c.canConvert = false := by
    simp only [obstacleColumns, List.map_append, List.map_map, List.mem_append, or_assoc]
    refine or_congr (by simp [hhas]) (or_congr (by cases widen <;> simp [hhas]) (by simp))
  rw [hmem]
  constructor
  · rintro (⟨hname, hnot⟩ | ⟨hwiden, hname, hnot⟩ | ⟨c, hc, hfails⟩) ⟨hcolumns, hall⟩
    · obtain ⟨⟨_, type⟩, hcolumn, rfl⟩ := List.mem_map.mp hname
      obtain ⟨type', hcolumn', -⟩ := hcolumns type hcolumn
      exact hnot (List.mem_map.mpr ⟨_, hcolumn', rfl⟩)
    · exact hnot (hall hwiden hname)
    · obtain ⟨type, type', hcolumn, htype', rfl⟩ := mem_searchedColumns.mp hc
      obtain ⟨other, hother, hcan⟩ := hcolumns type hcolumn
      rw [← lookup_eq_some_iff_mem hnames', ← Columns.type?, htype'] at hother
      obtain rfl := Option.some.inj hother
      simp [hfails] at hcan
  · intro hnot
    by_contra hclear
    obtain ⟨htarget, hsource, hfails⟩ := by simpa only [not_or, not_and, not_not, not_exists] using hclear
    refine hnot ⟨fun type hcolumn => ?_, hsource⟩
    obtain ⟨⟨_, type'⟩, hcolumn', rfl⟩ := List.mem_map.mp (htarget (List.mem_map_of_mem hcolumn))
    refine ⟨type', hcolumn', ?_⟩
    simpa using hfails _ (mem_searchedColumns.mpr
      ⟨type, type', hcolumn, (lookup_eq_some_iff_mem hnames').mpr hcolumn', rfl⟩)

theorem names_filterMap_sublist {α β : Type} {f : String × α → Option (String × β)}
    (hf : ∀ x y, f x = some y → y.1 = x.1) (items : List (String × α)) :
    ((items.filterMap f).map Prod.fst).Sublist (items.map Prod.fst) := by
  induction items with
  | nil => exact .refl _
  | cons x items ih =>
    rw [List.filterMap_cons]
    cases hx : f x with
    | none => exact ih.cons _
    | some y => simpa [hf x y hx] using ih

theorem nodup_obstacleColumns (hnames : columns.names.Nodup) (hnames' : columns'.names.Nodup) :
    ((obstacleColumns g widen columns columns').map Prod.fst).Nodup := by
  have hshared : ((searchedColumns g widen columns columns').map Prod.fst).Sublist columns.names :=
    names_filterMap_sublist (fun _ _ heq => by obtain ⟨_, -, rfl⟩ := Option.map_eq_some_iff.mp heq; rfl) _
  have hfailing : (((searchedColumns g widen columns columns').filterMap fun (name, c) =>
      if c.canConvert then none else some (name, c.text)).map Prod.fst).Sublist _ :=
    names_filterMap_sublist (fun _ _ heq => Option.some.inj (Option.ite_none_left_eq_some.mp heq).2 ▸ rfl) _
  simp only [obstacleColumns, List.map_append, List.map_map, Function.comp_def, List.map_id']
  refine List.nodup_append.mpr ⟨List.nodup_append.mpr ⟨hnames.filter _, hnames'.filter _, ?_⟩,
    hnames.sublist (hfailing.trans hshared), ?_⟩
  · rintro name hname _ hother rfl
    simp [Columns.has_iff.mpr (List.mem_filter.mp hother).1] at hname
  · rintro name hname _ hother rfl
    obtain ⟨⟨_, c⟩, hc, rfl⟩ := List.mem_map.mp (hfailing.subset hother)
    obtain ⟨type, type', hcolumn, htype', -⟩ := mem_searchedColumns.mp hc
    rcases List.mem_append.mp hname with hname | hname
    · simp [Columns.has_eq_isSome_type?, htype'] at hname
    · simp [Columns.has_iff.mpr (List.mem_map_of_mem hcolumn)] at hname

theorem canConvert_combineColumns : (combineColumns source target columns columns' widen
    (searchedColumns g widen columns columns')).canConvert = (obstacleColumns g widen columns columns').isEmpty := by
  rw [Bool.eq_iff_iff]
  cases widen <;> simp [combineColumns, obstacleColumns, and_assoc]

theorem check_combineColumns {c : ConversionContext} (hc : c = combineColumns source target columns columns' widen
      (searchedColumns g widen columns columns')) (hfails : c.canConvert = false) (hclear : c.isAmbiguous = false) :
    c.check = some (.noConversion source.text target.text (": " ++ "; ".intercalate
      ((obstacleColumns g widen columns columns').map fun column =>
        (Cause.columnConversion column.1 column.2).message))) := by
  rw [ConversionContext.check, hfails, hclear, ConversionContext.details]
  rw [hc, canConvert_combineColumns] at hfails
  rw [hc, obstacles_combineColumns]
  cases hobstacles : obstacleColumns g widen columns columns' with
  | nil => simp [hobstacles] at hfails
  | cons => rfl

/-- Let a row or table type, generic or with unique column names, be none of another one. It converts to the
other one just if each of its columns is there with a type that it converts to and, unless the other one may
have more columns, each column of the other one is there. What comes out is the same for columns in another
order, but for the order of its lists. No outcome that converts is ambiguous. One that does not convert is
reported as ambiguous just if the types are tied, and otherwise each column that is missing or fails is
named once. -/
theorem findConversion_columns {w : Workspace} (hform : form ≠ .cursor) (hnames : heading.columns.names.Nodup)
    (hnames' : columns'.names.Nodup) (hisA : (heading.toTy form).isA (.rows form columns') = false)
    (hmemory : w.RecallsBetween (heading.toTy form) (.rows form columns')) :
    let g := w.catalog.conversions
    let context := (w.findConversion widen (heading.toTy form) (.rows form columns')).1
    let tied := (heading.toTy form).tied g (.rows form columns')
    (context.canConvert = true ↔ ∀ name, ColumnConverts g widen heading.columns columns' name) ∧
    (∀ others others', others.Perm heading.columns → others'.Perm columns' → context.Reordered
      (searched g widen (Heading.toTy (heading.map fun _ => others) form) (.rows form others'))) ∧
    (∀ source target, (searched g widen source target).canConvert = true →
      (searched g widen source target).isAmbiguous = false) ∧
    (context.check = none ↔ context.canConvert = true) ∧
    ((∃ texts, context.check = some (.ambiguousConversion (heading.toTy form).text
        (Ty.rows form columns').text texts)) ↔ context.canConvert = false ∧ tied = true) ∧
    (context.canConvert = false → tied = false → ∃ obstacles : List (String × String),
      (obstacles.map Prod.fst).Nodup ∧
      (∀ name, name ∈ obstacles.map Prod.fst ↔ ¬ ColumnConverts g widen heading.columns columns' name) ∧
      context.check = some (.noConversion (heading.toTy form).text (Ty.rows form columns').text (": " ++
        "; ".intercalate (obstacles.map fun column =>
          (Cause.columnConversion column.1 column.2).message)))) := by
  intro g context tied
  have hcontext : context = searched g widen (heading.toTy form) (.rows form columns') :=
    hmemory.eq_searched widen
  have hcombine := hcontext.trans (searched_toTy hform hisA)
  have hambiguous : context.isAmbiguous = tied := (hmemory.converts widen).isAmbiguous_eq
  refine ⟨?_, ?_, fun source target hcan => ?_, ?_, ?_, fun hfails hclear => ?_⟩
  · rw [hcombine, canConvert_combineColumns, List.isEmpty_iff, ← List.map_eq_nil_iff (f := Prod.fst),
      List.eq_nil_iff_forall_not_mem]
    simp only [mem_obstacleColumns hnames', not_not]
  · rw [hcontext]
    exact fun _ _ => searched_reordered hform hnames' hisA
  · obtain ⟨outcome, heq, hconverts⟩ := findConversion_converts g widen source target
    rw [searched, heq] at hcan ⊢
    exact hconverts.isAmbiguous_eq_false hcan
  · unfold ConversionContext.check
    split_ifs <;> simp_all
  · have htypes : context.source = heading.toTy form ∧ context.target = .rows form columns' := by
      rw [hcombine]
      exact ⟨rfl, rfl⟩
    rw [← hambiguous, ConversionContext.check, htypes.1, htypes.2]
    cases context.canConvert <;> cases context.isAmbiguous <;> simp
  · exact ⟨_, nodup_obstacleColumns hnames hnames', fun _ => mem_obstacleColumns hnames',
      check_combineColumns hcombine hfails (hambiguous.trans hclear)⟩

/-- Of two columns one fails and one is missing. -/
theorem findConversion_columns_missing :
    let int : ScalarType := { serial := 10, name := "Int" }
    let real : ScalarType := { serial := 11, name := "Real" }
    let source := Ty.rows .row [("a", .scalar int), ("b", .scalar int)]
    let target := Ty.rows .row [("b", .scalar real)]
    source.isA target = false ∧ Workspace.RecallsBetween {} source target ∧
      (Workspace.findConversion {} true source target).1.canConvert = false ∧
      (Workspace.findConversion {} true source target).1.Reordered
        (searched [] true (.rows .row [("b", .scalar int), ("a", .scalar int)]) target) := by
  intro int real source target
  have hisA : source.isA target = false := by decide +kernel
  have hmemory : Workspace.RecallsBetween {} source target := fun cache hcache => by simp at hcache
  obtain ⟨-, hreordered, -⟩ := @findConversion_columns true .row [("b", .scalar real)]
    (some [("a", .scalar int), ("b", .scalar int)]) {} (by decide) (by decide +kernel) (by decide +kernel) hisA
    hmemory
  exact ⟨hisA, hmemory, by decide +kernel, hreordered _ _ (.swap _ _ _) (.refl _)⟩

end Relational
