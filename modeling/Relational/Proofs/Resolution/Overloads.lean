import Mathlib.Data.List.Forall2
import Relational.Proofs.Resolution.Effects

/-!
# The overloads of calls

The overloads of a name depend on nothing but the operators that calls are resolved with. The overload
that is selected for a call is one of them, unless all arguments are scalar: such calls may have been
remembered.

An argument for a parameter that takes tables with any columns is never converted: it is a table itself,
or the call does not match.
-/

namespace Relational

open List

/-- A resolution that reads the operators only. -/
structure Reads {α : Type} (action : Resolving α) : Prop where
  workspace : ∀ w : Workspace, (action w).2 = w
  outcome : ∀ w w' : Workspace, w.operatorView = w'.operatorView → (action w).1 = (action w').1

namespace Reads

variable {α β : Type} {act : Resolving α}

theorem pure (val : α) : Reads (Pure.pure val) :=
  ⟨fun _ => rfl, fun _ _ _ => rfl⟩

theorem throw (abort : Abort) : Reads (throw abort : Resolving α) :=
  ⟨fun _ => rfl, fun _ _ _ => rfl⟩

theorem apply_eq (h : Reads act) (w : Workspace) : act w = ((act w).1, w) :=
  Prod.ext rfl (h.workspace w)

theorem bind {next : α → Resolving β} (h : Reads act) (hnext : ∀ val, Reads (next val)) :
    Reads (act >>= next) := by
  constructor
  · intro w
    rw [bind_apply, h.apply_eq]
    cases (act w).1 with
    | ok val => exact (hnext val).workspace w
    | error abort => rfl
  · intro w w' hview
    rw [bind_apply, bind_apply, h.apply_eq w, h.apply_eq w', h.outcome w w' hview]
    cases (act w').1 with
    | ok val => exact (hnext val).outcome w w' hview
    | error abort => rfl

theorem get_bind {next : Workspace → Resolving α} (hnext : ∀ w, Reads (next w))
    (hcongr : ∀ w w', w.operatorView = w'.operatorView → next w = next w') : Reads (get >>= next) := by
  constructor
  · exact fun w => (hnext w).workspace w
  · intro w w' hview
    change (next w w).1 = (next w' w').1
    rw [hcongr w w' hview]
    exact (hnext w').outcome w w' hview

theorem unambiguous (name : String) (found : Found α) : Reads (Resolving.unambiguous name found) := by
  cases found with
  | nothing | one => exact pure _
  | ambiguous => exact throw _

end Reads

/-! ### The overloads of a name -/

section Names

theorem Catalog.resolveOperatorName_congr {c c' : Catalog} (h : c.operators = c'.operators)
    (name : String) (path : ResolutionPath) :
    c.resolveOperatorName name path = c'.resolveOperatorName name path := by
  unfold resolveOperatorName
  rw [h]

theorem reads_findGlobalOverloads (name : String) (global : Option String) :
    Reads (findGlobalOverloads name global) := by
  cases global with
  | none => exact .pure _
  | some global =>
    refine .get_bind (fun w => (Reads.unambiguous name _).bind fun _ => .pure _) fun w w' h => ?_
    rw [Catalog.resolveOperatorName_congr (congrArg OperatorView.catalog h)]

variable (opts : ResolutionOptions)

theorem reads_findDeclaredOverloads (path : ResolutionPath) (name : String) :
    Reads (findDeclaredOverloads opts path name) := by
  refine .get_bind (fun w => ?_) fun w w' h => ?_
  · dsimp only
    split
    · refine (Reads.unambiguous name _).bind fun found => ?_
      cases found with
      | some overloads => exact .pure _
      | none => exact (Reads.unambiguous name _).bind fun _ => .pure _
    · exact (Reads.unambiguous name _).bind fun _ => .pure _
  · simp only [Catalog.resolveOperatorName_congr (congrArg OperatorView.catalog h)]

theorem reads_findOverloads (scope : PlanScope) (name : String) : Reads (findOverloads opts scope name) := by
  have htx : ∀ w : Workspace, (w.activeTransaction?.bind (·.operatorName? name)) =
      w.operatorView.transaction.bind (Transaction.designated? · name) := by
    intro w
    rw [Workspace.operatorView, Option.bind_map]
    rfl
  have hsess : ∀ w : Workspace, (w.session.bind fun s => s.operators.find? name) =
      w.operatorView.session.bind (·.find? name) := by
    intro w
    rw [Workspace.operatorView, Option.bind_map]
    rfl
  refine .get_bind (fun w => ?_) fun w w' h => ?_
  · refine (reads_findGlobalOverloads name _).bind fun _ => ?_
    refine (reads_findGlobalOverloads name _).bind fun _ => ?_
    refine (reads_findGlobalOverloads name _).bind fun _ => ?_
    exact (reads_findDeclaredOverloads opts scope.path name).bind fun _ => .pure _
  · simp only [htx, hsess, h]

/-- An overload that a name stands for. -/
def OperatorView.Finds (view : OperatorView) (options : ResolutionOptions) (scope : PlanScope)
    (name : String) (op : Operator) : Prop :=
  ∃ w : Workspace, w.operatorView = view ∧ ∃ sources,
    (findOverloads options scope name w).1 = .ok sources ∧
      ∃ source ∈ sources, op ∈ source.overloads.operators

theorem OperatorView.finds_iff (scope : PlanScope) (name : String) (op : Operator) (w : Workspace) :
    w.operatorView.Finds opts scope name op ↔
      ∃ srcs, (findOverloads opts scope name w).1 = .ok srcs ∧
        ∃ src ∈ srcs, op ∈ src.overloads.operators := by
  constructor
  · rintro ⟨w', hview, hfinds⟩
    rwa [(reads_findOverloads opts scope name).outcome w' w hview] at hfinds
  · exact fun hfinds => ⟨w, rfl, hfinds⟩

theorem Resolves.findOverloads {view : OperatorView} (scope : PlanScope) (name : String) :
    Resolves view (Relational.findOverloads opts scope name) fun srcs =>
      ∀ src ∈ srcs, ∀ op ∈ src.overloads.operators, view.Finds opts scope name op := by
  intro w hw
  refine ⟨?_, fun srcs hok src hsrc op hop => ⟨w, hw, srcs, hok, src, hsrc, hop⟩, fun _ _ => trivial⟩
  rw [(reads_findOverloads opts scope name).workspace]
  exact Contract.refl _ w

end Names

/-! ### Searches with a memory -/

theorem exists_of_forall₂ {α β : Type} {R : α → β → Prop} {vals : List α} {vals' : List β}
    (h : List.Forall₂ R vals vals') {i : Nat} {val' : β} (hi : vals'[i]? = some val') :
    ∃ val, vals[i]? = some val ∧ R val val' := by
  induction h generalizing i with
  | nil => simp at hi
  | @cons first first' _ _ hfirst _ ih =>
    cases i with
    | zero =>
      obtain rfl : first' = val' := by simpa using hi
      exact ⟨first, rfl, hfirst⟩
    | succ i => exact ih (by simpa using hi)

variable {isExact : Bool} {operators : List Operator} {choice : OverloadChoice} (graph : ConversionGraph)

theorem OverloadChoice.best_add {P : OverloadMatch → Prop} {m : OverloadMatch}
    (hbest : ∀ best ∈ choice.best, P best) (hm : m.canConvert → P m) :
    ∀ best ∈ (choice.add isExact m).best, P best := by
  unfold add
  dsimp only
  split
  · exact hbest
  · rename_i hfits
    have hconvert : m.canConvert := by
      cases hcan : m.canConvert with
      | true => rfl
      | false => simp [hcan] at hfits
    split
    · simpa using hm hconvert
    · split
      · simpa using hm hconvert
      · split <;> exact hbest

/-- A search for conversions that keeps a memory of some kind, with a result of a property. -/
def Searches {α : Type} (K : Option ConversionCache → Prop) (search : StateM (Option ConversionCache) α)
    (Q : α → Prop) : Prop :=
  ∀ cache, K cache → K (search cache).2 ∧ Q (search cache).1

namespace Searches

variable {α β : Type} {K : Option ConversionCache → Prop} {search : StateM (Option ConversionCache) α}
  {Q R : α → Prop} {graph : ConversionGraph} {call : Call}

theorem imp (h : Searches K search Q) (hQ : ∀ val, Q val → R val) : Searches K search R :=
  fun cache hcache => (h cache hcache).imp_right (hQ _)

theorem pure {val : α} (h : Q val) : Searches K (Pure.pure val : StateM (Option ConversionCache) α) Q :=
  fun _ hcache => ⟨hcache, h⟩

theorem bind {next : α → StateM (Option ConversionCache) β} {R : β → Prop} (h : Searches K search Q)
    (hnext : ∀ val, Q val → Searches K (next val) R) : Searches K (search >>= next) R :=
  fun cache hcache => hnext _ (h cache hcache).2 _ (h cache hcache).1

section Conversions

variable {P : Ty → ConversionContext → Prop} {T : Ty → Prop}

/-- Outcomes have a property, given the type to convert to, that passes from those for columns and elements
to those for rows, tables and lists. -/
structure Passes (K : Option ConversionCache → Prop) (graph : ConversionGraph)
    (P : Ty → ConversionContext → Prop) : Prop where
  scalar : ∀ s t, Searches K (findScalar graph s t) (P (.scalar t))
  plain : ∀ source target canConvert, P target { source, target, canConvert }
  columns : ∀ source target columns columns' widen {outcomes}, (∀ outcome ∈ outcomes,
    ∃ type, P type outcome.2) → P target (combineColumns source target columns columns' widen outcomes)
  element : ∀ source target {type element}, P type element → P target (wrapElement source target element)

theorem Passes.target (h : ∀ s t, Searches K (findScalar graph s t) fun ctx => T ctx.target) :
    Passes K graph fun tgt ctx => T tgt → T ctx.target :=
  ⟨fun s t => (h s t).imp fun _ h _ => h, fun _ _ _ => id, fun _ _ _ _ _ _ _ => id, fun _ _ _ _ _ => id⟩

mutual

theorem findConversion (h : Passes K graph P) (widen : Bool) (src tgt : Ty) :
    Searches K (Relational.findConversion graph widen src tgt) (P tgt) := by
  unfold Relational.findConversion
  split
  · exact pure (h.plain ..)
  · split
    · exact h.scalar _ _
    · exact (findColumns h _ _ _).bind fun _ hcols => pure (h.columns _ _ _ _ _ hcols)
    · exact (findColumns h _ _ _).bind fun _ hcols => pure (h.columns _ _ _ _ _ hcols)
    · exact (findColumns h _ _ _).bind fun _ hcols =>
        pure (h.element _ _ (h.columns _ _ _ _ _ hcols))
    · exact pure (h.columns _ _ _ _ _ (by simp))
    · exact pure (h.columns _ _ _ _ _ (by simp))
    · exact pure (h.element _ _ (h.columns _ _ _ _ _ (by simp)))
    · exact (findConversion h _ _ _).bind fun _ helement => pure (h.element _ _ helement)
    · exact pure (h.plain ..)

theorem findColumns (h : Passes K graph P) (widen : Bool) (cols cols' : Columns) :
    Searches K (Relational.findColumns graph widen cols cols') fun outs =>
      ∀ out ∈ outs, ∃ type, P type out.2 := by
  cases cols with
  | nil => exact pure (by simp)
  | cons col rest =>
    obtain ⟨name, type⟩ := col
    unfold Relational.findColumns
    split
    · exact findColumns h widen rest cols'
    · exact (findConversion h widen type _).bind fun _ hfirst =>
        (findColumns h widen rest cols').bind fun _ hrest =>
          pure (forall_mem_cons.mpr ⟨⟨_, hfirst⟩, hrest⟩)

end

protected theorem matchArgument
    (hscalar : ∀ s t, Searches K (findScalar graph s t) fun ctx => T ctx.target)
    (arg : Argument) {param : Parameter} (h : T param.type) :
    Searches K (matchArgument graph arg param) fun res =>
      ∀ fit ∈ res, (∀ ctx ∈ fit.conversion, T ctx.target) ∧
        (param.modifier == .var → fit.conversion = none) := by
  unfold matchArgument
  split
  · exact pure (by simp)
  · split
    · exact pure (by simp)
    · split
      · exact pure (by simp)
      · rename_i hvar
        have hval : param.modifier ≠ .var := by
          simp only [Bool.or_eq_true, decide_eq_true_eq, not_or] at hvar
          exact hvar.2
        exact (findConversion (.target hscalar) false _ _).bind fun ctx hctx =>
          pure (by simpa using ⟨hctx h, hval⟩)

end Conversions

section Matches

variable {M : Argument → Parameter → ArgumentMatch → Prop}

theorem matchArguments {signature : Signature} (h : ∀ arg, ∀ param ∈ signature,
      Searches K (matchArgument graph arg param) fun res =>
        ∀ fit ∈ res, M arg param fit) :
    Searches K (Relational.matchArguments graph call signature) fun res =>
      ∀ fits ∈ res, List.Forall₂ (fun place fit => M place.1 place.2 fit) (call.zip signature) fits := by
  induction call generalizing signature with
  | nil => exact pure (by simp)
  | cons arg call ih =>
    cases signature with
    | nil => exact pure (by simp)
    | cons param signature =>
      refine (h arg param mem_cons_self).bind fun first hfirst => ?_
      cases first with
      | none => exact pure (by simp)
      | some first =>
        have hrest := ih fun arg param hmem => h arg param (mem_cons_of_mem _ hmem)
        refine hrest.bind fun rest hrest => ?_
        cases rest with
        | none => exact pure (by simp)
        | some rest => exact pure (by simpa using ⟨hfirst first rfl, hrest rest rfl⟩)

protected theorem matchOverload {op : Operator} (h : ∀ arg, ∀ param ∈ op.signature,
      Searches K (matchArgument graph arg param) fun res =>
        ∀ fit ∈ res, M arg param fit) :
    Searches K (matchOverload graph call op) fun res => ∀ m ∈ res, m.operator = op ∧
      List.Forall₂ (fun place fit => M place.1 place.2 fit) (call.zip op.signature) m.arguments := by
  refine (matchArguments h).bind fun fits hfits => ?_
  cases fits with
  | none => exact pure (by simp)
  | some fits => exact pure (by simpa using hfits)

/-- What is so of every match that converts all arguments is so of the best one. -/
theorem chooseOverload {P : OverloadMatch → Prop} (h : ∀ op ∈ operators, takesArity op call.length →
      Searches K (matchOverload graph call op) fun res =>
        ∀ m ∈ res, m.canConvert → P m) :
    Searches K (Relational.chooseOverload graph call isExact operators) fun res =>
      ∀ choice ∈ res, ∀ best ∈ choice.best, P best := by
  -- the fold runs over the overloads of the right arity, of which the rest is left to match
  have hfold : ∀ (rest : List Operator) (start : Option OverloadChoice),
      (∀ op ∈ rest, op ∈ operators ∧ takesArity op call.length) →
      (∀ choice ∈ start, ∀ best ∈ choice.best, P best) →
      Searches K (rest.foldlM (OverloadChoice.next graph call isExact) start) fun res =>
        ∀ choice ∈ res, ∀ best ∈ choice.best, P best := by
    intro rest
    induction rest with
    | nil => exact fun start _ hstart => pure hstart
    | cons op rest ih =>
      intro start hrest hstart
      obtain ⟨⟨hop, harity⟩, hrest⟩ := forall_mem_cons.mp hrest
      refine bind (Q := fun res => ∀ choice ∈ res, ∀ best ∈ choice.best, P best) ?_
        fun next hnext => ih next hrest hnext
      cases start with
      | none => exact pure (by simp)
      | some start =>
        refine (h op hop harity).bind fun found hfound => ?_
        cases found with
        | none => exact pure (by simp)
        | some found =>
          refine pure fun choice hchoice => ?_
          cases hchoice
          exact OverloadChoice.best_add (hstart start rfl) (hfound found rfl)
  refine hfold _ _ (fun op hop => mem_filter.mp hop) ?_
  rintro _ ⟨⟩ best ⟨⟩

end Matches

end Searches

/-! ### Matches of calls -/

/-- Whether the first parameters of an overload, as far as there are any, take tables with any
columns. -/
def Operator.takesTables (op : Operator) (count : Nat) : Bool :=
  (op.signature.take count).all fun parameter =>
    match parameter.type with
    | .anyRows .table => true
    | _ => false

theorem Operator.type_eq_of_takesTables {op : Operator} {count idx : Nat} {param : Parameter}
    (h : op.takesTables count) (hidx : idx < count)
    (hpar : op.signature[idx]? = some param) : param.type = .anyRows .table := by
  have hmem : param ∈ op.signature.take count := by
    refine mem_of_getElem? (i := idx) ?_
    rw [getElem?_take_of_lt hidx, hpar]
  have hall := all_eq_true.mp h param hmem
  split at hall
  · assumption
  · cases hall

theorem canConvert_findConversion_anyTable (widen : Bool) {source : Ty} (cache : Option ConversionCache)
    (h : ¬ (source.isNil || source.isA (.anyRows .table))) :
    (findConversion graph widen source (.anyRows .table) cache).1.canConvert = false := by
  unfold findConversion
  rw [if_neg h]
  cases source with
  | rows form cols => cases form <;> rfl
  | anyRows form => cases form <;> rfl
  | scalar | list | anyList | any => rfl

/-- An argument that fits a parameter for tables with any columns is a table, or has no value at all;
it is taken as it is. -/
structure ArgumentMatch.TakesTable (fit : ArgumentMatch) (argument : Argument) : Prop where
  type : ∃ type, argument.type = some type ∧ (type.isNil || type.isA (.anyRows .table))
  conversion : fit.conversion = none

theorem matchArgument_takesTable (arg : Argument) (param : Parameter) :
    Searches (fun _ => True) (matchArgument graph arg param)
      fun res => ∀ fit ∈ res, param.type = .anyRows .table → fit.fits →
        fit.TakesTable arg := by
  refine fun cache _ => ⟨trivial, fun fit h hpar hfits => ?_⟩
  cases htype : arg.type with
  | none =>
    simp only [matchArgument, htype] at h
    cases h
  | some type =>
    simp only [matchArgument, htype, hpar] at h
    split at h
    · rename_i hexact
      cases h
      exact ⟨⟨type, htype, hexact⟩, rfl⟩
    · rename_i hexact
      split at h
      · cases h
        cases hfits
      · cases h
        have hnever := canConvert_findConversion_anyTable graph false cache hexact
        rw [ArgumentMatch.fits, Bool.false_or, Option.any_some] at hfits
        exact absurd hfits (by simpa using hnever)

/-- A match whose arguments for parameters that take tables with any columns are tables. -/
def OverloadMatch.FitsTables (found : OverloadMatch) (call : Call) : Prop :=
  ∀ count, found.operator.takesTables count → ∀ index argument, index < count →
    call[index]? = some argument →
      ∃ fit, found.arguments[index]? = some fit ∧ fit.TakesTable argument

theorem chooseOverload_best {graph : ConversionGraph} {call : Call} {cache : Option ConversionCache}
    (h : (chooseOverload graph call isExact operators cache).1 = some choice) :
    ∀ best ∈ choice.best, best.operator ∈ operators ∧ best.FitsTables call := by
  refine ((Searches.chooseOverload (K := fun _ => True) fun op hop harity => ?_) cache trivial).2 choice h
  refine (Searches.matchOverload fun arg param _ =>
    matchArgument_takesTable graph arg param).imp fun res hres m hm hconvert => ?_
  obtain ⟨rfl, hfits⟩ := hres m hm
  refine ⟨hop, fun count htables idx arg hidx harg => ?_⟩
  have hlt : idx < m.operator.signature.length := by
    have hle : call.length ≤ m.operator.signature.length :=
      of_decide_eq_true (Bool.and_eq_true_iff.mp harity).2
    have hcall := (List.getElem?_eq_some_iff.mp harg).1
    omega
  have hpar := getElem?_eq_getElem hlt
  obtain ⟨fit, hfit, htakes⟩ := exists_of_forall₂ hfits.flip
    (getElem?_zip_eq_some (z := (arg, _)) |>.mpr ⟨harg, hpar⟩)
  refine ⟨fit, hfit, htakes (Operator.type_eq_of_takesTables htables hidx hpar) ?_⟩
  exact all_eq_true.mp hconvert fit (mem_of_getElem? hfit)

/-- A call that is not over scalar arguments only is resolved by a match with an overload of its
name. -/
theorem Resolves.selectOperator {view : OperatorView} (scope : PlanScope) (name : String) (call : Call)
    (isExact : Bool) (opts : ResolutionOptions) :
    Resolves view (Relational.selectOperator opts scope name call isExact) fun found =>
      call.isScalar = false → view.Finds opts scope name found.operator ∧ found.FitsTables call := by
  have hselects : (Contract.sameOperators view).Selects call isExact
      (fun src => ∀ op ∈ src.overloads.operators, view.Finds opts scope name op)
      fun found => call.isScalar = false →
        view.Finds opts scope name found.operator ∧ found.FitsTables call := by
    refine .of_memories
      (fun h => ⟨(congrArg Workspace.operatorView h :), (congrArg Workspace.isReconciling h :)⟩)
      (fun hscalar _ h => ?_)
      fun src hsrc _ _ _ hchoice best hbest _ => ?_
    · rw [hscalar] at h
      cases h
    · obtain ⟨hop, hfits⟩ := chooseOverload_best hchoice best hbest
      exact ⟨hsrc _ hop, hfits⟩
  exact hselects.selectOperator opts (findOverloads opts scope name)

end Relational
