import Relational.Proofs.Compile.Call
import Relational.Proofs.Compile.Conversion
import Relational.Proofs.Compile.Stepwise

/-!
# Compiled expressions

Compiling an expression leaves the setting as it is, and the plan is an expression of the setting. Each
setting has a vocabulary, which says of plans that they are expressions of it.
-/

namespace Relational

open Compiling List

variable {source target : Ty}

/-! ### Conversions that change nothing -/

theorem Ty.SuitsByName.of_isA (widen : Bool) (h : source.isA target) : source.SuitsByName widen target := by
  cases source with
  | rows form cols =>
    cases target with
    | rows form' cols' =>
      simp only [isA, Bool.and_eq_true, beq_iff_eq] at h
      exact .inr ⟨h.1.1, (columnsAre_iff.mp h.2).names_subset, .inr (.inl h.1.2)⟩
    | scalar | anyRows | list | anyList | any => trivial
  | scalar | anyRows | list | anyList | any => trivial

variable {widen : Bool}

theorem names_subset_of_combineColumns (source target : Ty) {cols cols' : Columns}
    {outs : List (String × ConversionContext)}
    (h : (combineColumns source target cols cols' widen outs).canConvert) :
    cols.names ⊆ cols'.names ∧ (widen ∨ cols'.names ⊆ cols.names) := by
  have hsubset : ∀ {names : List String} {others : Columns},
      (names.filter fun name => !others.has name).isEmpty → names ⊆ others.names := by
    intro names others hempty name hname
    have hhas := filter_eq_nil_iff.mp (isEmpty_iff.mp hempty) name hname
    exact Columns.has_iff.mp (by simpa using hhas)
  simp only [combineColumns, Bool.and_eq_true] at h
  refine ⟨hsubset h.1.1, ?_⟩
  cases widen with
  | true => exact .inl rfl
  | false => exact .inr (hsubset h.1.2)

/-- A conversion that is found to be exact is between types that suit by name, whatever is remembered of
conversions. -/
theorem suitsByName_of_isExact {g : ConversionGraph} {cache : Option ConversionCache}
    (h : (findConversion g widen source target cache).1.isExact) : source.SuitsByName widen target := by
  cases source with
  | rows form cols =>
    cases target with
    | rows form' cols' =>
      rw [findConversion.eq_def] at h
      split at h
      · exact .of_isA widen (by simpa [Ty.isNil] using ‹_›)
      · -- The outcome is about the columns if the forms are the same, and not exact otherwise.
        cases form <;> cases form'
        case row.row | table.table | cursor.cursor =>
          have hcan := ConversionContext.canConvert_of_isExact h
          have hnames := names_subset_of_combineColumns .any .any hcan
          exact .inr ⟨rfl, hnames.imp_right (·.imp_right .inr)⟩
        all_goals exact absurd (ConversionContext.canConvert_of_isExact h) Bool.false_ne_true
    | scalar | anyRows | list | anyList | any => trivial
  | scalar | anyRows | list | anyList | any => trivial

theorem Plan.storedAs_applied {p : Plan} {ctx : ConversionContext} (position : Position)
    (htype : p.type = some source) (h : ctx.isExact → source.SuitsByName widen target) :
    (p.applied position ctx).StoredAs widen target := by
  unfold applied
  split
  · exact .inr fun own hown => Option.some.inj (htype.symm.trans hown) ▸ h ‹_›
  · split
    · exact .inl rfl
    · -- A path is between scalar types, which have no columns.
      refine .inr fun own hown => ?_
      have hne : ctx.path ≠ [] := mt isEmpty_iff.mpr ‹_›
      rw [type_convertAlong position p (getLast?_eq_some_getLast hne)] at hown
      cases hown
      trivial

/-! ### The vocabulary of a setting -/

theorem Operator.Takes.forall_mem {op : Operator} {operands bound : List Plan} {Γ : Setting}
    {opts : CompilerOptions} (h : op.Takes operands bound)
    (hoperands : ∀ p ∈ operands, IsExpression opts Γ p) : ∀ p ∈ bound, IsExpression opts Γ p := by
  intro p hp
  obtain ⟨i, hi⟩ := mem_iff_getElem?.mp hp
  have hlt : i < operands.length := h.length_eq ▸ (List.getElem?_eq_some_iff.mp hi).1
  exact h.adapts i _ p (getElem?_eq_getElem hlt) hi opts Γ (hoperands _ (getElem_mem hlt))

namespace IsExpression

variable {opts : CompilerOptions} {Γ : Setting} {op : Operator} {bound vals : List Plan}
  {position : Position} {heading : Heading} {source : Plan} {type : Option Ty}

variable (hhead : relationHeading? source.type = some heading)

include hhead

theorem of_restrict {cond : Plan} (hsrc : IsExpression opts Γ source)
    (hcond : IsExpression opts (Γ.enter [.ofRow heading]) cond)
    (hfinds : Γ.Finds opts.resolution "iRestrict" op) (htakes : op.Takes [source, cond] bound) :
    IsExpression opts Γ (.make (.restrict op) (bound.head?.bind (·.type)) position bound) := by
  obtain ⟨source', cond', rfl⟩ := length_eq_two.mp htakes.length_eq
  exact .restrict hfinds
    (fun htables => htakes.yieldsRows 0 source source' 1 heading rfl rfl htables (by omega) hhead)
    (htakes.adapts 0 source source' rfl rfl _ _ hsrc) (htakes.adapts 1 cond cond' rfl rfl _ _ hcond)

theorem of_extend {names : List String} (hsrc : IsExpression opts Γ source)
    (hvals : ∀ val ∈ vals, IsExpression opts (Γ.enter [.ofRow heading]) val)
    (hfinds : Γ.Finds opts.resolution "iExtend" op) (htakes : op.Takes [source] bound) :
    IsExpression opts Γ (.make (.extend op names) type position (bound ++ vals)) := by
  obtain ⟨source', rfl⟩ := length_eq_one_iff.mp htakes.length_eq
  exact .extend hfinds
    (fun htables => htakes.yieldsRows 0 source source' 1 heading rfl rfl htables (by omega) hhead)
    (htakes.adapts 0 source source' rfl rfl _ _ hsrc) hvals

theorem of_join {kind : JoinKind} {heading' : Heading} {right : Plan} {cond : Option Plan}
    (hhead' : relationHeading? right.type = some heading') (hsrc : IsExpression opts Γ source)
    (hright : IsExpression opts Γ right)
    (hcond : ∀ p ∈ cond, IsExpression opts (Γ.enter [.ofRow heading, .ofRow heading']) p)
    (hfinds : Γ.Finds opts.resolution (joinOperator kind) op)
    (htakes : op.Takes (source :: right :: cond.toList) bound) :
    IsExpression opts Γ (.make (.join op kind) type position bound) := by
  obtain ⟨source', right', cond', rfl⟩ : ∃ source' right', ∃ cond' : Option Plan,
        bound = source' :: right' :: cond'.toList := by
    have hlen := htakes.length_eq
    cases cond with
    | none =>
      obtain ⟨source', right', rfl⟩ := length_eq_two.mp hlen
      exact ⟨source', right', none, rfl⟩
    | some cond =>
      obtain ⟨source', right', cond', rfl⟩ := length_eq_three.mp hlen
      exact ⟨source', right', some cond', rfl⟩
  have hrows : op.takesTables 2 → source'.YieldsRows heading ∧ right'.YieldsRows heading' :=
    fun htables =>
      ⟨htakes.yieldsRows 0 source source' 2 heading rfl rfl htables (by omega) hhead,
        htakes.yieldsRows 1 right right' 2 heading' rfl rfl htables (by omega) hhead'⟩
  refine .join hfinds hrows (htakes.adapts 0 source source' rfl rfl _ _ hsrc)
    (htakes.adapts 1 right right' rfl rfl _ _ hright) fun p hp => ?_
  obtain rfl := hp
  cases cond with
  | none => simpa using htakes.length_eq
  | some original => exact htakes.adapts 2 original p rfl rfl _ _ (hcond original rfl)

end IsExpression

/-- What is said in a setting: plans are expressions of it, or of a scope in it. -/
def Setting.vocabulary (options : CompilerOptions) (Γ : Setting) : Vocabulary where
  toTypeVocabulary := Vocabulary.all.toTypeVocabulary
  place := Γ.Designates
  plan := IsExpression options Γ
  reference := Plan.WritesAt Γ.visible
  inner symbols := IsExpression options (Γ.enter symbols)
  stored type p := IsExpression options Γ p ∧ p.StoredAs options.widen type
  between source target context := context.isExact → source.SuitsByName options.widen target
  heading type heading := relationHeading? type = some heading
  taken name operands op bound := Γ.Finds options.resolution name op ∧ op.Takes operands bound
  place_type _ _ _ := trivial
  plan_type _ _ _ := trivial
  plan_literal _ := .literal _ _ _
  plan_symbol {location symbol position} hplace hcol := by
    obtain ⟨heq, hname⟩ := hplace.2 hcol
    have hsym : IsExpression options Γ (.make (.stackReference symbol.unmodified.name location.index)
      symbol.unmodified.type position []) := .symbol hplace.1 hname
    rw [heq]
    exact hsym
  plan_column hplace hcol := .column hplace.1 hcol
  plan_plain hplain _ hkids := .plain hplain hkids
  plan_call _ := .call
  plan_table _ hrows := .table (fun row hrow => (hrows row hrow).1) fun row hrow => (hrows row hrow).2
  plan_list _ helements := .list (fun p hp => (helements p hp).1) fun p hp => (helements p hp).2
  plan_restrict hsrc hhead hcond htaken :=
    .of_restrict hhead hsrc hcond htaken.1 htaken.2
  plan_extend hsrc hhead hvals htaken _ :=
    .of_extend hhead hsrc hvals htaken.1 htaken.2
  plan_join hleft hright hhead hhead' hcond htaken _ :=
    .of_join hhead hhead' hleft hright hcond htaken.1 htaken.2
  plan_taken hplain hsrc htaken _ := .plain (htaken.2.length_eq ▸ hplain)
    (htaken.2.forall_mem (forall_mem_singleton.mpr hsrc))
  inner_nil := IsExpression.leave
  inner_type _ _ _ := trivial
  stored_plan h := h.1
  stored_same {source target p} hp htype hsame := by
    refine ⟨hp, .inr fun own hown => ?_⟩
    obtain rfl := Option.some.inj (htype.symm.trans hown)
    cases hnil : source.isNil with
    | true =>
      cases source with
      | scalar => trivial
      | rows | anyRows | list | anyList | any => cases hnil
    | false => exact .of_isA _ (by simpa [hnil] using hsame)
  stored_applied {_ _ p context} position hp htype hbetween _ :=
    ⟨p.adapts_applied position context options Γ hp, p.storedAs_applied position htype hbetween⟩
  between_context _ := trivial
  heading_of _ h := h
  heading_type _ := trivial

/-! ### Expressions -/

namespace Environment.Sound

variable {e : Environment} (he : e.Sound) (Γ : Setting)

include he

theorem types (Γ' : Setting) : IsTypewise (Γ'.vocabulary e.options) e e fun _ [_] act _ =>
    Keeps Γ act (Γ'.vocabulary e.options).Expresses where
  pure := .pure
  bind := .bind
  fault _ := .throw
  raise _ := .raise
  warn position _ _ := (Keeps.warn position _).imp fun _ _ => trivial
  scalarType position name := by
    refine (keeps_lookUp he .objects position name).bind fun found _ => ?_
    split
    · exact Keeps.pure trivial
    · exact .raise
    · exact Keeps.get.bind fun _ _ => Keeps.raise
  conversionBetween _ _ := fun _ hb => ⟨Γ, ⟨hb.setting, hb.frames⟩, rfl, suitsByName_of_isExact⟩

theorem calls : IsCallwise (Γ.vocabulary e.options) e e fun _ [_] act _ =>
    Keeps Γ act (Γ.vocabulary e.options).Expresses where
  toIsTypewise := he.types Γ Γ
  fatal := Keeps.fatal
  at_ := Keeps.at_
  systemType position name := by
    refine Keeps.get.bind fun b _ => ?_
    split
    · exact Keeps.pure trivial
    · exact Keeps.fatal
  unknownName _ _ := Keeps.get.bind fun _ _ => Keeps.raise
  checkReference position arg harg :=
    (keeps_checkReference position arg).imp fun _ hwrites => hwrites _ harg
  lookUp_bind binding position name hnext _ := by
    refine (keeps_lookUp he binding position name).bind fun found hfound => hnext found ?_
    rintro (⟨location, sym, shadowed⟩ | object) hsome
    · exact hfound location sym shadowed hsome
    · trivial
  overloadFor name args _ := (keeps_overloadFor he name args).imp fun _ _ =>
    ⟨trivial, fun _ _ _ _ => trivial, fun _ _ _ _ ctx _ position p hp =>
      p.writesAt_applied position ctx hp⟩

theorem scopes : IsScopewise Setting.enter (Setting.vocabulary e.options) e e fun Γ _ [_] act _ =>
    Keeps Γ act (Γ.vocabulary e.options).Expresses where
  calls := he.calls
  inScope _ h := .inScope (Keeps.extending h)
  compileRelational position name _ _ hoperand := keeps_compileRelational he position name <| by
    obtain ⟨p, hp, heading, hhead⟩ := hoperand
    exact ⟨p, hp, by rw [hhead]; rfl⟩

/-- The plan of an expression is an expression of the setting, which stays as it is. -/
theorem compileExpr (x : Expr) : Keeps Γ (Relational.compileExpr e x) (IsExpression e.options Γ) :=
  he.scopes.compileExpr Γ x

end Environment.Sound

end Relational
