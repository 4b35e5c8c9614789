import Relational.Compile.Conversion
import Relational.Proofs.Conversion.Fitting
import Relational.Proofs.Resolution.Effects

/-!
# Implicit conversions and the required type

A plan for a value of a required type has a type that fits it: nothing had to be converted, or the last
conversion leads to a subtype, or a conversion of columns or elements leads to the type itself. With one
exception: where rows may be converted to rows with more columns, nothing is converted when only columns
are missing, and the plan still has the type without them.
-/

namespace Relational

open Compiling

/-- The memory of conversions, if there is one, holds outcomes of searches between types that are told
apart by their names, among them the scalar types of two types. -/
def Workspace.RecallsBetween (w : Workspace) (source target : Ty) : Prop :=
  ∀ cache, w.conversionCache = some cache → ∃ types, Identified types ∧ source.scalars ⊆ types ∧
    target.scalars ⊆ types ∧ cache.Coherent types w.catalog.conversions

theorem Workspace.RecallsBetween.eq_searched {w : Workspace} {src tgt : Ty}
    (h : w.RecallsBetween src tgt) (widen : Bool) : (w.findConversion widen src tgt).1 =
      (Relational.findConversion w.catalog.conversions widen src tgt none).1 := by
  unfold findConversion
  cases hcache : w.conversionCache with
  | none => rfl
  | some cache =>
    obtain ⟨types, hid, hsrc, htgt, hcoh⟩ := h cache hcache
    obtain ⟨answer, hanswers⟩ := findConversion_answers hid widen src tgt hsrc htgt
    obtain ⟨cache', -, hremembered⟩ := hanswers.remembering cache hcoh
    rw [hremembered, hanswers.without]

theorem Workspace.RecallsBetween.converts {w : Workspace} {src tgt : Ty}
    (h : w.RecallsBetween src tgt) (widen : Bool) :
    (w.findConversion widen src tgt).1.Converts w.catalog.conversions widen src tgt := by
  obtain ⟨ctx, heq, hconverts⟩ :=
    findConversion_converts w.catalog.conversions widen src tgt
  rw [h.eq_searched, heq]
  exact hconverts

theorem Plan.type_convertAlong (pos : Position) (p : Plan) {path : ConversionPath}
    {conv : Conversion} (h : conv ∈ path.getLast?) :
    (convertAlong pos path p).type = some (.scalar conv.target) := by
  obtain ⟨front, rfl⟩ := List.getLast?_eq_some_iff.mp h
  rw [convertAlong, List.foldl_append]
  rfl

/-- What the plan for a conversion is: the plan itself, one with the type of the last conversion, or one
with the required type. -/
theorem type_applyConversion {pos : Position} {p p' : Plan} {ctx : ConversionContext}
    {b b' : Builder} (h : applyConversion pos p ctx b = (.ok p', b')) :
    ctx.isExact ∧ p' = p ∨ ctx.isExact = false ∧ (p'.type = some ctx.target ∨
      ∃ conv ∈ ctx.path.getLast?, p'.type = some (.scalar conv.target)) := by
  unfold applyConversion at h
  cases hexact : ctx.isExact with
  | true =>
    rw [hexact] at h
    obtain ⟨heq, -⟩ := Prod.mk.inj h
    exact Or.inl ⟨rfl, (Except.ok.inj heq).symm⟩
  | false =>
    refine Or.inr ⟨rfl, ?_⟩
    have hplan : p' = if ctx.path.isEmpty then
        .make (.structuralConvert ctx) (some ctx.target) pos [p]
        else .convertAlong pos ctx.path p := by
      rw [hexact] at h
      -- A warning is recorded or not; the plan is the same.
      cases hnarrowing : ctx.isNarrowing <;> rw [hnarrowing] at h <;>
        cases hempty : ctx.path.isEmpty <;> rw [hempty] at h <;>
        exact (Except.ok.inj (Prod.mk.inj h).1).symm
    cases hpath : ctx.path.getLast? with
    | none =>
      rw [hplan, List.getLast?_eq_none_iff.mp hpath]
      exact Or.inl rfl
    | some conv =>
      have hne : ctx.path.isEmpty = false := by
        rw [List.isEmpty_eq_false_iff]
        rintro hnil
        simp [hnil] at hpath
      rw [hplan, hne]
      exact Or.inr ⟨conv, rfl, Plan.type_convertAlong pos p hpath⟩

/-- A plan whose type fits is taken as it is, any other one is converted to a subtype of the required
type. -/
theorem convert_cases {e : Environment} {pos : Option Position} {p p' : Plan} {tgt : Ty}
    {b b' : Builder} (htgt : tgt.hasUniqueNames)
    (hmemory : ∀ source ∈ p.type, b.workspace.RecallsBetween source tgt)
    (h : convert e pos p tgt b = (.ok p', b')) :
    ∃ source, p.type = some source ∧ (source.fits e.options.widen tgt ∧ p' = p ∨
      source.fits e.options.widen tgt = false ∧ ∃ type, p'.type = some type ∧ type.isA tgt) := by
  unfold convert at h
  cases hsrc : p.type with
  | none =>
    rw [hsrc] at h
    cases pos with
    | none | some => exact absurd (Prod.mk.inj h).1 (by simp)
  | some source =>
    refine ⟨source, rfl, ?_⟩
    rw [hsrc] at h
    dsimp only at h
    cases hisA : source.isNil || source.isA tgt with
    | true =>
      rw [hisA] at h
      have hfits : source.fits e.options.widen tgt := by
        rw [Ty.fits.eq_def, hisA, Bool.true_or]
      exact Or.inl ⟨hfits, (Except.ok.inj (Prod.mk.inj h).1).symm⟩
    | false =>
      have hconverts := (hmemory source hsrc).converts e.options.widen
      rw [hisA, if_neg Bool.false_ne_true, bind_apply] at h
      unfold conversionBetween at h
      dsimp only at h
      generalize (b.workspace.findConversion e.options.widen source tgt).1 = ctx at h hconverts
      cases hcheck : ctx.check with
      | some cause =>
        rw [hcheck] at h
        cases pos with
        | none | some => exact absurd (Prod.mk.inj h).1 (by simp)
      | none =>
        rw [hcheck] at h
        cases pos with
        | none => exact absurd (Prod.mk.inj h).1 (by simp)
        | some pos =>
          rw [← hconverts.isExact_eq]
          refine (type_applyConversion h).imp id fun ⟨hexact, htype⟩ => ⟨hexact, ?_⟩
          rcases htype with htype | ⟨conv, hlast, htype⟩
          · rw [hconverts.target_eq] at htype
            exact ⟨tgt, htype, tgt.isA_refl htgt⟩
          · exact ⟨_, htype, hconverts.isA_of_path conv hlast⟩

/-- The type of a converted plan fits the required type, unless nothing was converted although the
required type has more columns. This is where rows may be converted to rows with more columns. -/
theorem convert_fits_iff (e : Environment) (position : Option Position) (p : Plan) (target : Ty)
    (htarget : target.hasUniqueNames) (b : Builder)
    (hmemory : ∀ source ∈ p.type, b.workspace.RecallsBetween source target) {p' : Plan}
    {b' : Builder} (h : convert e position p target b = (.ok p', b')) :
    ∃ source type, p.type = some source ∧ p'.type = some type ∧
      type.fits e.options.widen target ∧
      (type.fits false target ↔
        ¬ (e.options.widen ∧ source.fits true target ∧ ¬ source.fits false target)) := by
  obtain ⟨source, hsource, ⟨hfits, rfl⟩ | ⟨hfits, type, htype, hisA⟩⟩ :=
    convert_cases htarget hmemory h
  · refine ⟨source, source, hsource, hsource, hfits, ?_⟩
    cases hwiden : e.options.widen with
    | false => simpa [hwiden] using hfits
    | true =>
      rw [hwiden] at hfits
      simp [hfits]
  · refine ⟨source, type, hsource, htype, Ty.fits_of_isA _ hisA, ?_⟩
    refine iff_of_true (Ty.fits_of_isA _ hisA) ?_
    rintro ⟨hwiden, hwidened, -⟩
    rw [hwiden, hwidened] at hfits
    exact Bool.noConfusion hfits

/-- The environment of a compilation that compiles nothing again, with wider rows or without. -/
def Environment.alone (widen : Bool) : Environment :=
  { options := { widen }, recompile := fun _ => pure (), infer := fun _ => pure () }

/-- Columns that have to be converted bring in those that are missing. -/
theorem convert_fits_iff_columns :
    let int : ScalarType := { serial := 10, name := "Int" }
    let real : ScalarType := { serial := 11, name := "Real" }
    let target := Ty.rows .row [("a", .scalar real), ("b", .scalar int)]
    let p := Plan.make (.rowSelector ["a"]) (some (.rows .row [("a", .scalar int)])) .none []
    let b : Builder := { workspace := { catalog := {
      conversions := ConversionGraph.ofEdges [(int, [(real, false)])] } } }
    ∃ p' b', target.hasUniqueNames ∧ (∀ source ∈ p.type, b.workspace.RecallsBetween source target) ∧
      convert (.alone true) (some .none) p target b = (.ok p', b') ∧
      ∃ type, p'.type = some type ∧ type.fits false target := by
  intro int real target p b
  have hunique : target.hasUniqueNames := by decide +kernel
  have hmemory : ∀ source ∈ p.type, b.workspace.RecallsBetween source target :=
    fun _ _ cache hcache => by simp [b] at hcache
  have hok : (convert (.alone true) (some .none) p target b).1.isOk := by decide +kernel
  match h : convert (.alone true) (some .none) p target b with
  | (.error abort, b') => simp [h, Except.isOk, Except.toBool] at hok
  | (.ok p', b') =>
    obtain ⟨source, type, hsource, htype, -, hfits⟩ :=
      convert_fits_iff (.alone true) (some .none) p target hunique b hmemory h
    obtain rfl : Ty.rows .row [("a", .scalar int)] = source := Option.some.inj hsource
    exact ⟨p', b', hunique, hmemory, rfl, type, htype, hfits.mpr (by decide +kernel)⟩

/-- Rows that lack columns only are taken as rows that have them. -/
theorem convert_widened_not_fits :
    let int : ScalarType := { serial := 10, name := "Int" }
    let source := Ty.rows .row [("a", .scalar int)]
    let target := Ty.rows .row [("a", .scalar int), ("b", .scalar int)]
    let p := Plan.make (.rowSelector ["a"]) (some source) .none []
    target.hasUniqueNames ∧
      convert (.alone true) (some .none) p target { workspace := {} } =
        (.ok p, { workspace := {} }) ∧
      source.fits false target = false := by
  refine ⟨by decide +kernel, rfl, by decide +kernel⟩

end Relational
