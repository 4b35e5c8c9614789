import Relational.Proofs.Conversion.Cache

/-!
# Types that fit

A value may stand where a type is required although its own type is no subtype of it: the components of
rows and lists may be nil. A type fits another one if nothing has to be done to its values. This is what
exact outcomes of a question for a conversion tell; any other outcome describes a conversion whose result
is of a subtype of the required type. An outcome is ambiguous just if scalar types meet somewhere between
which several paths tie, and then it does not convert.
-/

namespace Relational

variable {src tgt : Ty} {cols' : Columns}

namespace Ty

mutual

/-- Whether a type fits another one: it is the type of nil or a subtype, or both are of one form with the
same columns, or lists, and what they contain fits. With `widen`, the other one may have more columns. -/
def fits (widen : Bool) (source target : Ty) : Bool :=
  source.isNil || source.isA target ||
    match source, target with
    | .rows form columns, .rows form' columns' => form == form' && columnsFit widen columns columns' &&
      (widen || (Columns.names columns').all (Columns.has columns))
    | .anyRows form, .rows form' _ => form == form' && widen
    | .list element, .list element' => element.fits widen element'
    | _, _ => false

/-- Whether each column of the first list has a column in the second that it fits. -/
def columnsFit (widen : Bool) : List (String × Ty) → Columns → Bool
  | [], _ => true
  | (name, type) :: rest, others =>
    (match others.type? name with
      | some other => type.fits widen other
      | none => false) && columnsFit widen rest others

end

mutual

/-- Whether scalar types between which several paths tie have to be converted: the types themselves, or
those of columns of one name or of what lists contain. -/
def tied (g : ConversionGraph) (source target : Ty) : Bool :=
  !(source.isNil || source.isA target) &&
    match source, target with
    | .scalar s, .scalar t => decide (1 < (searchPaths g s t).candidates.length)
    | .rows form columns, .rows form' columns' => form == form' && columnsTied g columns columns'
    | .list element, .list element' => element.tied g element'
    | _, _ => false

/-- Whether a column of the first list and the one of its name in the second are tied. -/
def columnsTied (g : ConversionGraph) : List (String × Ty) → Columns → Bool
  | [], _ => false
  | (name, type) :: rest, others =>
    (match others.type? name with
      | some other => type.tied g other
      | none => false) || columnsTied g rest others

end

variable (g : ConversionGraph) (widen : Bool)

theorem fits_of_isA (h : src.isA tgt) : src.fits widen tgt := by
  rw [fits.eq_def, h, Bool.or_true, Bool.true_or]

theorem fits_rows (form form' : Form) {cols : Columns}
    (h : (Ty.rows form cols).isA (.rows form cols') = false) :
    (Ty.rows form' cols).fits widen (.rows form' cols') =
      (columnsFit widen cols cols' && (widen || cols'.names.all cols.has)) := by
  have hisA : (Ty.rows form' cols).isA (.rows form' cols') = false := by
    simpa [isA] using h
  rw [fits.eq_def, hisA]
  simp [isNil]

theorem tied_rows (form form' : Form) {cols : Columns}
    (h : (Ty.rows form cols).isA (.rows form cols') = false) :
    (Ty.rows form' cols).tied g (.rows form' cols') = columnsTied g cols cols' := by
  have hisA : (Ty.rows form' cols).isA (.rows form' cols') = false := by
    simpa [isA] using h
  rw [tied.eq_def, hisA]
  simp [isNil]

theorem tied_anyRows (form : Form) : (anyRows form).tied g tgt = false := by
  rw [tied.eq_def, Bool.and_false]

theorem fits_anyRows (form form' : Form) (h : (Ty.anyRows form).isA (.rows form cols') = false) :
    (Ty.anyRows form').fits widen (.rows form' cols') = widen := by
  have hisA : (anyRows form').isA (.rows form' cols') = false := by
    simpa [isA] using h
  rw [fits.eq_def, hisA]
  simp [isNil]

end Ty

namespace ConversionContext

/-- An outcome that is exact if the source fits the target, and that otherwise leads to the target, if it
leads anywhere. It is ambiguous if the types are tied, and then does not convert. -/
structure Converts (g : ConversionGraph) (widen : Bool) (source target : Ty)
    (context : ConversionContext) : Prop where
  target_eq : context.target = target
  isExact_eq : context.isExact = source.fits widen target
  isA_of_path : ∀ conversion ∈ context.path.getLast?, (Ty.scalar conversion.target).isA target
  isAmbiguous_eq : context.isAmbiguous = source.tied g target
  isAmbiguous_eq_false : context.canConvert → context.isAmbiguous = false

theorem isExact_eq (ctx : ConversionContext) : ctx.isExact =
    (ctx.canConvert && ctx.path.isEmpty && columnsExact ctx.columns && match ctx.element with
      | some element => element.isExact
      | none => true) := by
  cases ctx
  exact isExact.eq_def _

theorem isAmbiguous_eq (ctx : ConversionContext) : ctx.isAmbiguous =
    (decide (1 < ctx.candidates.length) || columnsAmbiguous ctx.columns || match ctx.element with
      | some element => element.isAmbiguous
      | none => false) := by
  cases ctx
  exact isAmbiguous.eq_def _

theorem canConvert_of_isExact {ctx : ConversionContext} (h : ctx.isExact) : ctx.canConvert := by
  rw [isExact_eq] at h
  simp only [Bool.and_eq_true] at h
  exact h.1.1.1

theorem all_canConvert_of_columnsExact {cols : List (String × ConversionContext)}
    (h : columnsExact cols) : cols.all (·.2.canConvert) := by
  induction cols with
  | nil => rfl
  | cons col cols ih =>
    rw [columnsExact, Bool.and_eq_true] at h
    rw [List.all_cons, canConvert_of_isExact h.1, ih h.2]
    rfl

end ConversionContext

open ConversionContext

variable (g : ConversionGraph)

theorem path_searchScalar {src tgt : ScalarType} (h : (searchScalar g src tgt).canConvert) :
    (searchScalar g src tgt).path ≠ [] ∧
      ∀ conv ∈ (searchScalar g src tgt).path.getLast?, conv.target.isA tgt := by
  have hmem : (searchScalar g src tgt).path ∈ (searchPaths g src tgt).candidates := by
    rw [← candidates_searchScalar, canConvert_searchScalar_iff.mp h]
    exact List.mem_singleton_self _
  obtain ⟨hne, ⟨last, hwalk, hlast⟩, -⟩ := ConversionGraph.mem_simplePaths_iff.mp
    ((searchPaths_bestOf g src tgt).sublist.subset hmem)
  exact ⟨hne, fun conv hconv => hwalk.target_of_mem_getLast? hconv ▸ hlast⟩

theorem path_searchScalar_eq_nil {src tgt : ScalarType}
    (h : (searchScalar g src tgt).canConvert = false) : (searchScalar g src tgt).path = [] := by
  rw [searchScalar] at h ⊢
  split at h
  · simp at h
  · rfl

theorem isAmbiguous_searchScalar (src tgt : ScalarType) : (searchScalar g src tgt).isAmbiguous =
    decide (1 < (searchPaths g src tgt).candidates.length) := by
  rw [isAmbiguous_eq, candidates_searchScalar, searchScalar]
  dsimp only
  split <;> simp [columnsAmbiguous]

theorem searchScalar_converts (widen : Bool) {src tgt : ScalarType} (hnil : (Ty.scalar src).isNil = false)
    (hisA : (Ty.scalar src).isA (.scalar tgt) = false)
    (h : (Ty.scalar src).fits widen (.scalar tgt) = false) :
    Converts g widen (.scalar src) (.scalar tgt) (searchScalar g src tgt) := by
  refine ⟨?_, ?_, fun conv hconv => ?_, ?_, fun hcan => ?_⟩
  · rw [searchScalar]
    split <;> rfl
  · rw [h, isExact_eq]
    cases hcan : (searchScalar g src tgt).canConvert with
    | false => rfl
    | true =>
      have hne := (path_searchScalar g hcan).1
      simp [hne]
  · cases hcan : (searchScalar g src tgt).canConvert with
    | false => simp [path_searchScalar_eq_nil g hcan] at hconv
    | true => simpa [Ty.isA] using (path_searchScalar g hcan).2 conv hconv
  · rw [isAmbiguous_searchScalar, Ty.tied.eq_def, hnil, hisA]
    rfl
  · rw [isAmbiguous_searchScalar, ← candidates_searchScalar, canConvert_searchScalar_iff.mp hcan]
    rfl

/-- Outcomes for the columns that two lists of columns share. -/
structure ColumnsConvert (g : ConversionGraph) (widen : Bool) (cols cols' : Columns)
    (outs : List (String × ConversionContext)) : Prop where
  isExact_eq : (cols.names.all cols'.has && columnsExact outs) = Ty.columnsFit widen cols cols'
  isAmbiguous_eq : columnsAmbiguous outs = Ty.columnsTied g cols cols'
  isAmbiguous_eq_false : outs.all (·.2.canConvert) → columnsAmbiguous outs = false

/-- The outcome for columns is exact if each column fits and the target has no more columns, unless it
may. -/
theorem combineColumns_converts (widen : Bool) {cols : Columns}
    {outs : List (String × ConversionContext)}
    (hfits : src.fits widen tgt = (Ty.columnsFit widen cols cols' && (widen || cols'.names.all cols.has)))
    (houtcomes : ColumnsConvert g widen cols cols' outs) (htied : src.tied g tgt = Ty.columnsTied g cols cols') :
    Converts g widen src tgt (combineColumns src tgt cols cols' widen outs) := by
  have hambiguous : (combineColumns src tgt cols cols' widen outs).isAmbiguous = columnsAmbiguous outs := by
    rw [isAmbiguous_eq]
    simp [combineColumns]
  refine ⟨rfl, ?_, by simp [combineColumns], ?_, fun hcan => ?_⟩
  rotate_left
  · rw [hambiguous, houtcomes.isAmbiguous_eq, htied]
  · rw [hambiguous]
    exact houtcomes.isAmbiguous_eq_false (Bool.and_eq_true_iff.mp hcan).2
  have hmissing : ∀ (names : List String) (others : Columns),
      (names.filter fun name => !others.has name).isEmpty = names.all others.has := by
    intro names others
    rw [Bool.eq_iff_iff]
    simp [List.isEmpty_iff, List.filter_eq_nil_iff]
  have hsrc : (if widen then [] else cols'.names.filter fun name => !cols.has name).isEmpty =
      (widen || cols'.names.all cols.has) := by
    cases widen with
    | true => rfl
    | false => exact hmissing _ _
  rw [hfits, ← houtcomes.isExact_eq, isExact_eq]
  simp only [combineColumns, hmissing, hsrc, List.isEmpty_nil, Bool.and_true]
  cases hexact : columnsExact outs with
  | false => simp
  | true =>
    rw [all_canConvert_of_columnsExact hexact]
    simp

theorem wrapElement_converts (widen : Bool) {src' tgt' : Ty} {element : ConversionContext}
    (helement : Converts g widen src' tgt' element) (hfits : src.fits widen tgt = src'.fits widen tgt')
    (htied : src.tied g tgt = src'.tied g tgt') : Converts g widen src tgt (wrapElement src tgt element) := by
  have hambiguous : (wrapElement src tgt element).isAmbiguous = element.isAmbiguous := by
    rw [isAmbiguous_eq]
    simp [wrapElement, columnsAmbiguous]
  refine ⟨rfl, ?_, by simp [wrapElement], by rw [hambiguous, helement.isAmbiguous_eq, htied],
    fun hcan => hambiguous.trans (helement.isAmbiguous_eq_false hcan)⟩
  rw [hfits, ← helement.isExact_eq, isExact_eq]
  simp only [wrapElement, List.isEmpty_nil, columnsExact, Bool.and_true]
  cases hexact : element.isExact with
  | false => simp
  | true => rw [canConvert_of_isExact hexact]; rfl

theorem columnsConvert_nil (widen : Bool) (cols' : Columns) : ColumnsConvert g widen [] cols' [] :=
  ⟨by simp [Columns.names, columnsExact, Ty.columnsFit], by rw [columnsAmbiguous, Ty.columnsTied],
    fun _ => rfl⟩

theorem combineNothing_converts (widen : Bool) (form form' : Form)
    (h : (Ty.anyRows form).isA (.rows form cols') = false) :
    Converts g widen (.anyRows form') (.rows form' cols')
      (combineColumns (.anyRows form') (.rows form' cols') [] cols' widen []) := by
  refine combineColumns_converts g widen ?_ (columnsConvert_nil g widen cols')
    (by rw [Ty.tied_anyRows, Ty.columnsTied])
  have hne : cols' ≠ [] := by
    rintro rfl
    simp [Ty.isA] at h
  obtain ⟨col, cols', rfl⟩ := List.exists_cons_of_ne_nil hne
  rw [Ty.fits_anyRows widen form form' h]
  simp [Columns.names, Columns.has, Ty.columnsFit]

theorem bind_of_eq {σ α β : Type} {act : StateM σ α} {next : α → StateM σ β} {s s' : σ}
    {val : α} (h : act s = (val, s')) : (act >>= next) s = next val s' :=
  congrArg (fun out : α × σ => next out.1 out.2) h

mutual

/-- Without a memory, a question for a conversion has an exact outcome if the source fits the target, and
otherwise one that leads to the target if it leads anywhere. It is ambiguous if the types are tied. -/
theorem findConversion_converts (widen : Bool) (src tgt : Ty) :
    ∃ ctx, findConversion g widen src tgt none = (ctx, none) ∧ Converts g widen src tgt ctx := by
  rw [findConversion.eq_def]
  have hplain : ∀ canConvert, isAmbiguous { source := src, target := tgt, canConvert } = false := fun _ =>
    isAmbiguous_eq _
  split
  · rename_i hisA
    refine ⟨_, rfl, rfl, ?_, by simp, ?_, fun _ => hplain true⟩
    · rw [Ty.fits.eq_def, hisA, Bool.true_or]
      rfl
    · rw [hplain, Ty.tied.eq_def, hisA, Bool.not_true, Bool.false_and]
  rename_i hisA
  rw [Bool.not_eq_true, Bool.or_eq_false_iff] at hisA
  have hfits := Ty.fits.eq_def widen src tgt
  rw [hisA.1, hisA.2, Bool.false_or, Bool.false_or] at hfits
  have htied := Ty.tied.eq_def g src tgt
  rw [hisA.1, hisA.2, Bool.false_or, Bool.not_false, Bool.true_and] at htied
  split
  · exact ⟨_, rfl, searchScalar_converts g widen hisA.1 hisA.2 hfits⟩
  · rename_i cols cols'
    obtain ⟨outs, heq, houtcomes⟩ := findColumns_converts widen cols cols'
    refine ⟨_, bind_of_eq heq, ?_⟩
    exact combineColumns_converts g widen (Ty.fits_rows widen .row .row hisA.2) houtcomes
      (Ty.tied_rows g .row .row hisA.2)
  · rename_i cols cols'
    obtain ⟨outs, heq, houtcomes⟩ := findColumns_converts widen cols cols'
    refine ⟨_, bind_of_eq heq, ?_⟩
    exact combineColumns_converts g widen (Ty.fits_rows widen .table .table hisA.2) houtcomes
      (Ty.tied_rows g .table .table hisA.2)
  · rename_i cols cols'
    obtain ⟨outs, heq, houtcomes⟩ := findColumns_converts widen cols cols'
    have htable := Ty.fits_rows widen .cursor .table hisA.2
    have htable' := Ty.tied_rows g .cursor .table hisA.2
    refine ⟨_, bind_of_eq heq, ?_⟩
    refine wrapElement_converts g widen (combineColumns_converts g widen htable houtcomes htable') ?_ ?_
    · rw [htable, Ty.fits_rows widen .cursor .cursor hisA.2]
    · rw [htable', Ty.tied_rows g .cursor .cursor hisA.2]
  · exact ⟨_, rfl, combineNothing_converts g widen .row .row hisA.2⟩
  · exact ⟨_, rfl, combineNothing_converts g widen .table .table hisA.2⟩
  · refine ⟨_, rfl, wrapElement_converts g widen (combineNothing_converts g widen .cursor .table hisA.2) ?_ ?_⟩
    · rw [Ty.fits_anyRows widen .cursor .cursor hisA.2, Ty.fits_anyRows widen .cursor .table hisA.2]
    · rw [Ty.tied_anyRows, Ty.tied_anyRows]
  · rename_i element element'
    obtain ⟨ctx, heq, hconverts⟩ := findConversion_converts widen element element'
    exact ⟨_, bind_of_eq heq, wrapElement_converts g widen hconverts hfits htied⟩
  · rename_i hscalar hrow htable hcursor hanyRow hanyTable hanyCursor hlist
    have hforms : ∀ {form cols form' cols'}, src = .rows form cols → tgt = .rows form' cols' →
        form ≠ form' := by
      rintro form cols _ cols' rfl rfl rfl
      cases form
      · exact hrow _ _ rfl rfl
      · exact htable _ _ rfl rfl
      · exact hcursor _ _ rfl rfl
    refine ⟨_, rfl, rfl, ?_, by simp, ?_, fun _ => hplain false⟩
    · have hnot : isExact { source := src, target := tgt } = false := by
        rfl
      rw [hnot, hfits]
      split
      · simp [hforms rfl rfl]
      · rename_i form form' cols'
        have hforms : form ≠ form' := by
          rintro rfl
          cases form
          · exact hanyRow _ rfl rfl
          · exact hanyTable _ rfl rfl
          · exact hanyCursor _ rfl rfl
        simp [hforms]
      · exact (hlist _ _ rfl rfl).elim
      · rfl
    · rw [hplain, htied]
      split
      · exact (hscalar _ _ rfl rfl).elim
      · simp [hforms rfl rfl]
      · exact (hlist _ _ rfl rfl).elim
      · rfl

theorem findColumns_converts (widen : Bool) (cols cols' : Columns) :
    ∃ outs, findColumns g widen cols cols' none = (outs, none) ∧
      ColumnsConvert g widen cols cols' outs := by
  match cols with
  | [] => exact ⟨[], by rw [findColumns]; rfl, columnsConvert_nil g widen cols'⟩
  | (name, type) :: rest =>
    obtain ⟨outs, heq, houtcomes⟩ := findColumns_converts widen rest cols'
    have hhas := cols'.has_eq_isSome_type? name
    rw [findColumns]
    cases hfound : cols'.type? name with
    | none =>
      rw [hfound] at hhas
      refine ⟨_, heq, ?_, ?_, houtcomes.isAmbiguous_eq_false⟩
      · rw [Ty.columnsFit, hfound]
        simp [Columns.names, hhas]
      · rw [houtcomes.isAmbiguous_eq, Ty.columnsTied, hfound, Bool.false_or]
    | some type' =>
      obtain ⟨ctx, hctx, hconverts⟩ := findConversion_converts widen type type'
      rw [hfound] at hhas
      refine ⟨_, (bind_of_eq hctx).trans (bind_of_eq heq), ?_, ?_, fun hcan => ?_⟩
      · rw [columnsExact, hconverts.isExact_eq, Ty.columnsFit, hfound, ← houtcomes.isExact_eq]
        simp [Columns.names, hhas, Bool.and_left_comm]
      · rw [columnsAmbiguous, hconverts.isAmbiguous_eq, houtcomes.isAmbiguous_eq, Ty.columnsTied, hfound]
      · obtain ⟨hfirst, hrest⟩ := Bool.and_eq_true_iff.mp hcan
        rw [columnsAmbiguous, hconverts.isAmbiguous_eq_false hfirst, houtcomes.isAmbiguous_eq_false hrest]
        rfl

end

end Relational
