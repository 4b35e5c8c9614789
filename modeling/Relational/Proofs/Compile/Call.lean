import Relational.Proofs.Compile.Judgement

/-!
# Compiled names and calls

Names become references to visible symbols. An argument of a call becomes a plan that can stand wherever
the argument could; an operand that a relational overload takes as a table yields the rows that were in
scope while the rest of the construct was compiled.
-/

namespace Relational

open Compiling List

/-- An environment in which compiling again leaves the setting as it is. -/
structure Environment.Sound (e : Environment) : Prop where
  recompile : ∀ Γ op, Keeps Γ (e.recompile op) fun _ => True
  infer : ∀ Γ tv, Keeps Γ (e.infer tv) fun _ => True

variable {e : Environment} {Γ : Setting} {opts : CompilerOptions} {p : Plan} {sym : Symbol} {b : Builder}
  (pos : Position)

/-! ### Names -/

theorem Keeps.resolve {α : Type} {act : Resolving α} {Q : α → Prop}
    (h : Resolves Γ.operators act Q) : Keeps Γ (MonadResolving.resolve act) Q := by
  intro b hb
  obtain ⟨⟨hview, hover⟩, hval, -⟩ := h b.workspace (by rw [← hb.setting]; rfl)
  have hin : Builder.In Γ { b with workspace := (act b.workspace).2 } := by
    refine ⟨?_, hb.frames⟩
    rw [← hb.setting]
    exact congrArg₂ (fun view flag => { b.setting with operators := view, isReconciling := flag }) hview hover
  change Ends _ _ ((act b.workspace).1, { b with workspace := (act b.workspace).2 })
  cases hres : (act b.workspace).1 with
  | ok val => exact ⟨Γ, hin, rfl, hval val hres⟩
  | error abort => exact ⟨Γ, hin, rfl⟩

/-- A place in a setting: that of a visible symbol, or of a column of one. -/
def Setting.Designates (Γ : Setting) (location : Location) (symbol : Symbol) : Prop :=
  Γ.visible[location.index]? = some symbol.unmodified ∧
    (location.column = none → location.name = symbol.name ∧ symbol.name ≠ "")

theorem Builder.In.designates (h : b.In Γ) {location : Location}
    (hsym : b.stack.Designates location sym) : Γ.Designates location sym := by
  refine ⟨?_, hsym.2⟩
  rw [← h.visible_eq, getElem?_map, hsym.1]
  rfl

section Names

variable (he : e.Sound)

include he

theorem keeps_bindObject (obj : CatalogObject) : Keeps Γ (bindObject e.infer obj) fun _ => True := by
  unfold bindObject
  split
  · refine (he.infer Γ _).bind fun _ _ => ?_
    exact (Keeps.resolve (Q := fun _ => True) (Contract.refreshed fun _ => trivial)).bind fun _ _ =>
      Keeps.resolve (.copyObject _)
  · exact .resolve (.copyObject obj)

theorem keeps_lookUp (binding : Binding) (pos : Position) (name : String) :
    Keeps Γ (lookUp e binding pos name) fun res => ∀ location sym shadowed,
      .symbol location sym shadowed ∈ res → Γ.Designates location sym := by
  refine Keeps.get.bind fun b hb => Keeps.at_ ?_ pos
  refine (Keeps.resolve (Contract.findSymbol b.stack binding name)).bind fun res hres => ?_
  split
  · refine Keeps.pure fun location sym shadowed hfound => ?_
    obtain ⟨_, _, _, heq, hsym⟩ := hres _ hfound
    cases heq
    exact hb.designates hsym
  · exact Keeps.pure (by simp)
  · refine (Keeps.resolve (Resolves.findObject _ _ name)).bind fun obj _ => ?_
    cases obj with
    | none => exact Keeps.pure (by simp)
    | some obj =>
      exact (keeps_bindObject he obj).bind fun _ _ => Keeps.pure (by simp)

end Names

/-! ### Conversions -/

/-- A plan that can stand wherever another one could. -/
def Plan.Adapts (p p' : Plan) : Prop :=
  ∀ options Γ, IsExpression options Γ p → IsExpression options Γ p'

theorem Plan.adapts_applied (ctx : ConversionContext) (p : Plan) : p.Adapts (p.applied pos ctx) := by
  intro opts Γ hp
  refine Vocabulary.all.applied_of (fun hplain _ hq => ?_) hp trivial
  exact .plain hplain (forall_mem_singleton.mpr hq)

theorem Plan.writesAt_applied (ctx : ConversionContext) {visible : List Symbol} (hp : p.WritesAt visible) :
    (p.applied pos ctx).WritesAt visible := by
  refine Vocabulary.all.applied_of (fun hplain _ _ name idx heq => ?_) hp trivial
  cases heq
  cases hplain

theorem keeps_applyConversion (p : Plan) (ctx : ConversionContext) :
    Keeps Γ (applyConversion pos p ctx) (· = p.applied pos ctx) := by
  unfold applyConversion Plan.applied
  split
  · exact Keeps.pure rfl
  · refine Keeps.step_if (Keeps.warn pos _) ?_
    split
    · exact Keeps.pure rfl
    · exact Keeps.pure rfl

/-! ### Calls -/

theorem Builder.In.isVariableAt (hb : b.In Γ) (hp : IsExpression opts Γ p) {name : String}
    {idx : Nat} (hcon : p.construct = .stackReference name idx)
    (hpeek : b.stack.peek idx = some sym) (hconst : sym.isConstant = false) : IsVariableAt Γ.visible idx := by
  cases hp with
  | plain hplain =>
    cases hcon
    cases hplain
  | call | literal | table | list | column | restrict | extend | join => cases hcon
  | @symbol _ _ found _ hfound hname =>
    cases hcon
    refine ⟨found, hfound, hname, ?_⟩
    rw [← hb.visible_eq, getElem?_map, Stack.visible, getElem?_take] at hfound
    split at hfound
    · rw [Stack.peek] at hpeek
      rw [hpeek] at hfound
      exact Option.some.inj hfound ▸ hconst
    · cases hfound

theorem keeps_checkReference (arg : Plan) : Keeps Γ (checkReference pos arg) fun _ =>
      ∀ opts, IsExpression opts Γ arg → arg.WritesAt Γ.visible := by
  unfold checkReference
  split
  · rename_i name idx hcon
    refine Keeps.get.bind fun b hb => ?_
    cases hpeek : b.stack.peek idx with
    | none => exact Keeps.throw
    | some sym =>
      dsimp only
      cases hconst : sym.isConstant with
      | true => exact Keeps.raise
      | false =>
        refine (Keeps.markModified _).imp fun _ _ => ?_
        intro opts harg _ _ hsame
        obtain ⟨-, rfl⟩ := Construct.stackReference.inj (hcon.symm.trans hsame)
        exact hb.isVariableAt harg hcon hpeek hconst
  · exact Keeps.raise

theorem keeps_bindArgument (param : Option Parameter) (fit : Option ArgumentMatch) (arg : Plan) :
    Keeps Γ (bindArgument pos param fit arg) fun bound =>
      arg.Adapts bound ∧ (fit.bind (·.conversion) = none → bound = arg) := by
  unfold bindArgument
  refine .step_if ((keeps_checkReference pos arg).imp fun _ _ => trivial) ?_
  cases fit.bind (·.conversion) with
  | none => exact .pure ⟨fun _ _ hp => hp, fun _ => rfl⟩
  | some ctx =>
    refine (keeps_applyConversion pos arg ctx).imp ?_
    rintro _ rfl
    exact ⟨arg.adapts_applied pos ctx, fun hnone => nomatch hnone⟩

/-- Arguments from an index on as a match takes them. -/
structure OverloadMatch.Binds (found : OverloadMatch) (start : Nat)
    (arguments bound : List Plan) : Prop where
  length_eq : bound.length = arguments.length
  adapts : ∀ (i : Nat) (p p' : Plan), arguments[i]? = some p → bound[i]? = some p' → p.Adapts p'
  unconverted : ∀ (i : Nat) (p p' : Plan) fit, arguments[i]? = some p → bound[i]? = some p' →
    found.arguments[start + i]? = some fit → fit.conversion = none → p' = p

theorem OverloadMatch.Binds.cons {found : OverloadMatch} {start : Nat} {p' : Plan}
    {args bound : List Plan} (hp : p.Adapts p')
    (hfirst : found.arguments[start]?.bind (·.conversion) = none → p' = p)
    (h : found.Binds (start + 1) args bound) : found.Binds start (p :: args) (p' :: bound) := by
  refine ⟨by simp [h.length_eq], fun i q q' hq hq' => ?_, fun i q q' fit hq hq' hfit hnone => ?_⟩
  · cases i with
    | zero =>
      cases hq
      cases hq'
      exact hp
    | succ i => exact h.adapts i q q' hq hq'
  · cases i with
    | zero =>
      cases hq
      cases hq'
      exact hfirst (by rw [Nat.add_zero] at hfit; rw [hfit]; exact hnone)
    | succ i =>
      refine h.unconverted i q q' fit hq hq' ?_ hnone
      rwa [Nat.add_assoc, Nat.add_comm 1 i]

theorem keeps_bindArguments (found : OverloadMatch) (start : Nat) (args : List Plan) :
    Keeps Γ (bindArguments pos found start args) (found.Binds start args) := by
  induction args generalizing start with
  | nil => exact .pure ⟨rfl, by simp, by simp⟩
  | cons arg args ih =>
    refine (keeps_bindArgument pos _ _ arg).bind fun first ⟨hadapts, hsame⟩ => ?_
    exact (ih (start + 1)).bind fun rest hrest => .pure (hrest.cons hadapts hsame)

theorem keeps_bindCall (found : OverloadMatch) (args : List Plan) :
    Keeps Γ (bindCall pos found args) (found.Binds 0 args) := by
  unfold bindCall
  exact .step_if (.warn pos _) (keeps_bindArguments pos found 0 args)

/-- The arguments of a call by the types of their plans. -/
abbrev callOf (arguments : List Plan) : Call :=
  arguments.map fun p => { type := p.type }

theorem keeps_overloadFor (he : e.Sound) (name : String) (args : List Plan) :
    Keeps Γ (overloadFor e name args) fun found => (callOf args).isScalar = false →
      Γ.Finds e.options.resolution name found.operator ∧ found.FitsTables (callOf args) := by
  refine Keeps.get.bind fun b hb => ?_
  have hscope : b.scope = Γ.scope := by
    rw [← hb.setting]
    rfl
  rw [hscope]
  refine (Keeps.resolve (Resolves.selectOperator Γ.scope name _ false _)).bind fun found hfound => ?_
  refine (Keeps.resolve (Contract.isDeferred found.operator)).bind fun deferred _ => ?_
  exact Keeps.step_if (he.recompile Γ found.operator) (Keeps.pure hfound)

/-! ### Operands of relational constructs -/

/-- An operand as it is, or as a table. -/
def Plan.Wraps (position : Position) (p p' : Plan) : Prop :=
  p' = p ∨ asTable? position p = some p'

theorem IsExpression.asTable {type : Ty} (h : IsExpression opts Γ p)
    (hlist : p.construct = .listSelector) (htype : p.type = some (.list type)) (hrow : type.isRow)
    (pos : Position) : IsExpression opts Γ
      (.make .tableSelector (some (.rows .table type.rowColumns)) pos p.children) := by
  cases h with
  | list helements hstored =>
    cases htype
    refine .table helements fun row hmem => ?_
    cases type with
    | rows form cols =>
      cases form with
      | row => exact hstored row hmem
      | table | cursor => cases hrow
    | anyRows form =>
      refine .inr fun own _ => ?_
      cases own with
      | rows => exact .inl rfl
      | scalar | anyRows | list | anyList | any => trivial
    | scalar | list | anyList | any => cases hrow
  | plain hplain _ =>
    cases hlist
    cases hplain
  | call | literal | table | symbol | column | restrict | extend | join => cases hlist

namespace Plan.Wraps

variable {pos : Position} {p' : Plan}

theorem adapts (h : p.Wraps pos p') : p.Adapts p' := by
  intro opts Γ hp
  rcases h with rfl | h
  · exact hp
  unfold asTable? at h
  split at h
  · rename_i htype
    cases h
    exact .table (forall_mem_singleton.mpr hp) (forall_mem_singleton.mpr (.of_type htype))
  · rename_i htype hlist
    split at h
    · cases h
      exact hp.asTable hlist htype ‹_› pos
    · cases h
  · cases h

theorem yieldsRows {heading : Heading} {type : Ty} (h : p.Wraps pos p')
    (hhead : relationHeading? p.type = some heading) (htype : p'.type = some type)
    (htable : type.isNil || type.isA (.anyRows .table)) : p'.YieldsRows heading := by
  have hsame : ∀ {heading'}, p'.heading? = some heading' → heading = heading' →
      p'.YieldsRows heading := by
    rintro heading' hrows rfl
    exact ⟨heading, hrows, .refl _⟩
  rcases h with rfl | h
  · rw [htype] at hhead
    have hrows : p'.heading? = type.heading? := by rw [heading?, htype, Option.bind_some]
    cases type with
    | rows form _ | anyRows form =>
      cases form with
      | table => exact hsame hrows (Option.some.inj hhead).symm
      | row | cursor => cases htable
    | list | anyList => cases htable
    | scalar | any => cases hhead
  unfold asTable? at h
  split at h
  · rename_i cols hrow
    cases h
    rw [hrow] at hhead
    exact hsame rfl (Option.some.inj hhead).symm
  · rename_i element hlist _
    split at h
    · rename_i hrow
      cases h
      rw [hlist] at hhead
      cases element with
      | rows form cols =>
        cases form with
        | row => exact hsame rfl (Option.some.inj hhead).symm
        | table | cursor => cases hrow
      | anyRows form =>
        cases form with
        | row =>
          obtain rfl : none = heading := Option.some.inj hhead
          exact ⟨some [], rfl, rfl, rfl, rfl, fun hname => absurd rfl hname⟩
        | table | cursor => cases hrow
      | scalar | list | anyList | any => cases hrow
    · cases h
  · cases h

theorem not_scalar (h : p.Wraps pos p') (hhead : (relationHeading? p.type).isSome)
    (s : ScalarType) : p'.type ≠ some (.scalar s) := by
  intro hscalar
  rcases h with rfl | h
  · rw [hscalar] at hhead
    cases hhead
  unfold asTable? at h
  split at h
  · cases h
    cases hscalar
  · split at h
    · cases h
      cases hscalar
    · cases h
  · cases h

end Plan.Wraps

/-- Operands as a relational overload takes them: they can stand where they could, and those that it
takes as tables yield the rows that they had. -/
structure Operator.Takes (op : Operator) (operands bound : List Plan) : Prop where
  length_eq : bound.length = operands.length
  adapts : ∀ (i : Nat) (p p' : Plan), operands[i]? = some p → bound[i]? = some p' → p.Adapts p'
  yieldsRows : ∀ (i : Nat) (p p' : Plan) count heading, operands[i]? = some p →
    bound[i]? = some p' → op.takesTables count → i < count →
      relationHeading? p.type = some heading → p'.YieldsRows heading

section Operands

variable {pos : Position} {operands tables taken : List Plan}

theorem forall₂_wraps_refl (operands : List Plan) : List.Forall₂ (Plan.Wraps pos) operands operands :=
  forall₂_same.mpr fun _ _ => .inl rfl

theorem forall₂_wraps_asTables (h : asTables? pos operands = some tables) :
    List.Forall₂ (Plan.Wraps pos) operands tables := by
  unfold asTables? at h
  split at h
  · cases h
    refine forall₂_map_right_iff.mpr (forall₂_same.mpr fun p _ => ?_)
    cases htable : asTable? pos p with
    | none => exact .inl rfl
    | some table => exact .inr htable
  · cases h

theorem isScalar_callOf (h : List.Forall₂ (Plan.Wraps pos) operands taken)
    (hoperand : ∃ p ∈ operands, (relationHeading? p.type).isSome) : (callOf taken).isScalar = false := by
  obtain ⟨p, hp, hhead⟩ := hoperand
  obtain ⟨i, hi⟩ := mem_iff_getElem?.mp hp
  obtain ⟨hlt, rfl⟩ := List.getElem?_eq_some_iff.mp hi
  have hlt' : i < taken.length := h.length_eq ▸ hlt
  have hwraps := h.get hlt hlt'
  have hmem : ({ type := taken[i].type } : Argument) ∈ callOf taken :=
    mem_map_of_mem (getElem_mem hlt')
  by_contra hscalar
  have hall := all_eq_true.mp (Bool.not_eq_false _ ▸ hscalar) _ hmem
  split at hall
  · rename_i s hs
    exact hwraps.not_scalar hhead s hs
  · cases hall

theorem keeps_overloadForTables (he : e.Sound) (name : String)
    (hoperand : ∃ p ∈ operands, (relationHeading? p.type).isSome) :
    Keeps Γ (overloadForTables e pos name operands) fun res =>
      Γ.Finds e.options.resolution name res.1.operator ∧ res.1.FitsTables (callOf res.2) ∧
        List.Forall₂ (Plan.Wraps pos) operands res.2 := by
  have hcall : ∀ taken, List.Forall₂ (Plan.Wraps pos) operands taken →
      Keeps Γ (overloadFor e name taken) fun found =>
        Γ.Finds e.options.resolution name found.operator ∧ found.FitsTables (callOf taken) :=
    fun taken htaken => (keeps_overloadFor he name taken).imp fun _ hfound =>
      hfound (isScalar_callOf htaken hoperand)
  intro b hb
  have hfirst := hcall operands (forall₂_wraps_refl operands) b hb
  unfold overloadForTables
  match overloadFor e name operands b, hfirst with
  | (.ok found, b'), ⟨Γ', hb', hΓ, hfinds, hfits⟩ =>
    exact ⟨Γ', hb', hΓ, hfinds, hfits, forall₂_wraps_refl operands⟩
  | (.error abort, b'), ⟨Γ', hb', hΓ⟩ =>
    dsimp only
    split
    · rename_i tables _ htables
      have hwraps := forall₂_wraps_asTables htables
      have hsecond := hcall tables hwraps b' (hΓ ▸ hb')
      match overloadFor e name tables b', hsecond with
      | (.ok found, b''), ⟨Γ'', hb'', hΓ', hfinds, hfits⟩ =>
        exact ⟨Γ'', hb'', hΓ', hfinds, hfits, hwraps⟩
      | (.error _, b''), hend => exact hend
    · exact ⟨Γ', hb', hΓ⟩

theorem keeps_compileRelational (he : e.Sound) (pos : Position) (name : String)
    (hoperand : ∃ p ∈ operands, (relationHeading? p.type).isSome) :
    Keeps Γ (compileRelational e pos name operands) fun res =>
      Γ.Finds e.options.resolution name res.1 ∧ res.1.Takes operands res.2 := by
  refine (Keeps.at_ (keeps_overloadForTables he name hoperand) pos).bind ?_
  rintro ⟨found, taken⟩ ⟨hfinds, hfits, hwraps⟩
  refine (keeps_bindCall pos found taken).bind fun bound hbound => Keeps.pure ⟨hfinds, ?_⟩
  have hlen : taken.length = operands.length := hwraps.length_eq.symm
  have htaken : ∀ (i : Nat) (p : Plan), operands[i]? = some p →
      ∃ q, taken[i]? = some q ∧ p.Wraps pos q := by
    intro i p hp
    obtain ⟨hlt, rfl⟩ := List.getElem?_eq_some_iff.mp hp
    have hlt' : i < taken.length := hlen ▸ hlt
    exact ⟨taken[i], getElem?_eq_getElem hlt', hwraps.get hlt hlt'⟩
  refine ⟨hbound.length_eq.trans hlen, fun i p p' hp hp' => ?_, ?_⟩
  · obtain ⟨q, hq, hwrap⟩ := htaken i p hp
    exact fun opts Γ h => hbound.adapts i q p' hq hp' opts Γ (hwrap.adapts opts Γ h)
  · intro i p p' count heading hp hp' htables hi hhead
    obtain ⟨q, hq, hwrap⟩ := htaken i p hp
    obtain ⟨fit, hfit, ⟨type, htype, htable⟩, hnone⟩ := hfits count htables i { type := q.type } hi
      (by rw [getElem?_map, hq]; rfl)
    obtain rfl := hbound.unconverted i q p' fit hq hp' (by rwa [Nat.zero_add]) hnone
    exact hwrap.yieldsRows hhead htype htable

end Operands

end Relational
