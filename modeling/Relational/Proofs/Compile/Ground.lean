import Relational.Proofs.Compile.Readings
import Relational.Proofs.Resolution.Recall

/-!
# The ground of compilations

Compilations against a workspace without an active transaction and without operators that were put off,
by a compiler that asks no device, change little in it: they remember conversions and calls, and they note
what stale table variables read. Nothing else is found differently afterwards. What is found is made of the
scalar types in play: those that the objects, operators and conversions of the catalog mention.
-/

namespace Relational

open Vocabulary List

/-! ### Types in play -/

/-- The scalar types that an object mentions. -/
def CatalogObject.scalars : CatalogObject → List ScalarType
  | .scalarType type => [type]
  | .tableVar tv => tv.type.scalars

/-- The scalar types that a call of an operator takes and gives. -/
def Operator.scalarsInPlay (op : Operator) : List ScalarType :=
  op.scalars ++ (op.returnType.map Ty.scalars).getD []

namespace Catalog

variable {c : Catalog}

/-- The scalar types that compilations meet: those that objects, operators and conversions mention, and
those of literals without a type of their own. -/
def typesInPlay (c : Catalog) : List ScalarType :=
  [.nil, .any] ++ c.objects.flatMap (·.2.scalars) ++
    c.operators.flatMap (fun entry => entry.2.operators.flatMap Operator.scalarsInPlay) ++
    (c.conversions.flatMap Prod.snd).map (·.target)

theorem scalars_subset_typesInPlay {entry : String × CatalogObject} (h : entry ∈ c.objects) :
    entry.2.scalars ⊆ c.typesInPlay := fun type htype => by
  simp only [typesInPlay, mem_append, mem_flatMap]
  exact .inl (.inl (.inr ⟨entry, h, htype⟩))

theorem scalarsInPlay_subset_typesInPlay {entry : String × Overloads} {op : Operator}
    (h : entry ∈ c.operators) (hop : op ∈ entry.2.operators) :
    op.scalarsInPlay ⊆ c.typesInPlay := fun type htype => by
  simp only [typesInPlay, mem_append, mem_flatMap]
  exact .inl (.inr ⟨entry, h, op, hop, htype⟩)

theorem overloadScalars_subset_typesInPlay (c : Catalog) : overloadScalars c.operators ⊆ c.typesInPlay := by
  intro type htype
  obtain ⟨entry, hentry, htype⟩ := mem_flatMap.mp htype
  obtain ⟨op, hop, htype⟩ := mem_flatMap.mp htype
  exact scalarsInPlay_subset_typesInPlay hentry hop (mem_append_left _ htype)

end Catalog

/-! ### The ground -/

/-- A compiler that asks no device, and a workspace without an active transaction whose operators are all
compiled, whose objects stand under their names, and in which names tell the types in play apart. -/
structure Ground where
  compiler : Compiler
  base : Workspace
  device : compiler.options.resolution.device = ""
  inactive : base.activeTransaction? = none
  compiled : ∀ entry ∈ base.catalog.operators, ∀ op ∈ entry.2.operators,
    (base.operatorState op).isDeferred = false
  keyed : base.catalog.IsKeyed
  identified : Identified base.catalog.typesInPlay

namespace Ground

variable (G : Ground)

/-- The scalar types in play. -/
def types : List ScalarType :=
  G.base.catalog.typesInPlay

/-- The vocabulary of compilations on the ground. -/
def vocabulary : Vocabulary :=
  .ofScalars (· ∈ G.types) True (by simp [types, Catalog.typesInPlay])
    (by simp [types, Catalog.typesInPlay])

/-- What the ground says of a value. -/
abbrev Expresses {α : Type} [Expressible α] (value : α) : Prop :=
  G.vocabulary.Expresses value

theorem isUniform_vocabulary : G.vocabulary.IsUniform :=
  isUniform_uniform (isPlanning_scalarTypes _ _ _ _)

/-- What compilations on the ground look names up in besides their symbols. -/
def scope : PlanScope :=
  { path := G.compiler.options.path }

/-- How names are resolved on the ground. -/
def resolution : ResolutionOptions :=
  G.compiler.options.resolution

/-- What is known in a workspace of the table variables that are stale on the ground. -/
def known (w : Workspace) : Readings :=
  G.base.catalog.readings w.catalog

/-- The environment at a depth of nesting. -/
abbrev environment (depth : Nat) : Environment :=
  G.compiler.environment depth

/-- A table variable that is stale at first. -/
abbrev HasStale (tv : TableVar) : Prop :=
  G.base.catalog.HasStale tv

/-- A workspace that differs from the ground by what is known of stale table variables, and that remembers
what is found there. -/
structure Holds (w : Workspace) : Prop where
  catalog : G.base.catalog.Settles (G.known w) w.catalog
  states : w.operatorStates = G.base.operatorStates
  session : w.session = G.base.session
  contexts : ∀ cache ∈ w.conversionCache, cache.Coherent G.types G.base.catalog.conversions
  matched : ∀ cache ∈ w.operatorCache, cache.Recalls G.resolution G.types G.base.catalog

variable {G} {name : String} {found : OverloadMatch} {call : Call} {obj : CatalogObject}

theorem expresses_object (h : G.base.catalog.object? name = some obj) (known : Readings) :
    G.Expresses (obj.settle known) := by
  have hscalars := Catalog.scalars_subset_typesInPlay (mem_of_lookup h)
  cases obj with
  | scalarType type => exact hscalars (mem_singleton_self type)
  | tableVar tv =>
    have htype : (tv.settle known).type = tv.type := by
      obtain htv | ⟨_, -, htv⟩ := tv.settle_cases known
      · rw [htv]
      · rw [htv]
        rfl
    change G.Expresses (tv.settle known).type
    rw [htype]
    exact hscalars

/-- The conversion between two types on the ground. -/
def conversion (G : Ground) (widen : Bool) (source target : Ty) : ConversionContext :=
  (findConversion G.base.catalog.conversions widen source target none).1

theorem expresses_conversion (widen : Bool) (source : Ty) {target : Ty}
    (htgt : G.Expresses target) : G.Expresses (G.conversion widen source target) := by
  have hplain : ∀ context : ConversionContext, context.target = target → context.path = [] →
      G.Expresses context := fun context hto hpath =>
    ⟨hto ▸ htgt, fun conversion hmem => absurd (hpath ▸ hmem) not_mem_nil⟩
  unfold conversion findConversion
  split
  · exact hplain _ rfl rfl
  · split
    · rename_i s t _
      refine ⟨?_, fun conversion hmem => ?_⟩
      · change G.Expresses (searchScalar G.base.catalog.conversions s t).target
        rwa [target_searchScalar]
      · have hpath : (searchScalar G.base.catalog.conversions s t).path = [] ∨
            (searchScalar G.base.catalog.conversions s t).path ∈
              (searchPaths G.base.catalog.conversions s t).candidates := by
          unfold searchScalar
          dsimp only
          split
          · rename_i hone
            exact .inr (hone ▸ mem_singleton_self _)
          · exact .inl rfl
        rcases hpath with hnone | hsome
        · exact absurd (hnone ▸ hmem) not_mem_nil
        · have hsimple := (((searchPaths_bestOf G.base.catalog.conversions s t).mem_iff _).mp hsome).1
          obtain ⟨last, hwalk, -⟩ := (ConversionGraph.mem_simplePaths_iff.mp hsimple).2.1
          rcases mem_cons.mp (hwalk.target_mem_typesInPlay hmem .nil) with hnil | htgt
          · rw [hnil]
            simp [types, Catalog.typesInPlay]
          · exact subset_append_right _ _ htgt
    all_goals exact hplain _ rfl rfl

theorem searches_matchArgument (arg : Argument) {param : Parameter} (hpar : G.Expresses param.type) :
    Searches (· = none) (matchArgument G.base.catalog.conversions arg param) fun res =>
      ∀ fit ∈ res, G.Expresses fit := by
  unfold matchArgument
  split
  · exact .pure (by simp)
  · split
    · exact .pure (by rintro _ ⟨⟩ _ ⟨⟩)
    · split
      · exact .pure (by rintro _ ⟨⟩ _ ⟨⟩)
      · rintro _ rfl
        refine ⟨forgets_findConversion _ _ _ _, ?_⟩
        rintro _ ⟨⟩
        exact expresses_some (expresses_conversion false _ hpar)

theorem expresses_chooseOverload {isExact : Bool} {operators : List Operator}
    (hops : ∀ op ∈ operators, ∀ type ∈ op.scalarsInPlay, type ∈ G.types) {choice : OverloadChoice}
    (h : (chooseOverload G.base.catalog.conversions call isExact operators none).1 = some choice) :
    ∀ best ∈ choice.best, G.Expresses best := by
  refine ((Searches.chooseOverload (K := (· = none)) fun op hop _ => ?_) none rfl).2 choice h
  refine (Searches.matchOverload fun arg param hpar => searches_matchArgument arg
    fun type htype => hops op hop type (mem_append_left _ (mem_flatMap.mpr ⟨param, hpar, htype⟩))).imp
        fun res hres m hm _ => ?_
  obtain ⟨rfl, hfits⟩ := hres m hm
  have hres : G.Expresses m.operator.returnType := fun res hres type htype =>
    hops _ hop type (mem_append_right _ (by
      rw [Option.mem_def.mp hres]
      exact htype))
  refine ⟨hres, fun fit hfit => ?_, fun _ _ _ _ _ _ _ _ _ => trivial⟩
  obtain ⟨i, hi⟩ := mem_iff_getElem?.mp hfit
  obtain ⟨_, -, hexpressed⟩ := exists_of_forall₂ hfits hi
  exact hexpressed

/-- The overload for a call on the ground. -/
def overload (G : Ground) (name : String) (call : Call) : Except Abort OverloadMatch :=
  (selectOperator G.resolution G.scope name call false G.base.withoutCaches).1

/-- The overload for a call is one of the catalog, with conversions between types in play. -/
theorem overload_spec (h : G.overload name call = .ok found) :
    G.Expresses found ∧ (G.base.operatorState found.operator).isDeferred = false := by
  let declared (src : OverloadSource) : Prop :=
    ∀ op ∈ src.overloads.operators, ∃ entry ∈ G.base.catalog.operators, op ∈ entry.2.operators
  have hdecl : ∀ {w : Workspace} {ref path overloads isCataloged},
      w = G.base.withoutCaches → w.catalog.resolveOperatorName ref path = .one overloads →
        declared { overloads, isCataloged } := by
    rintro _ ref path overloads isCataloged rfl hfound op hop
    obtain ⟨full, hmem, -⟩ := Catalog.mem_of_resolveOperatorName hfound
    exact ⟨_, hmem, hop⟩
  refine (Workspace.still_selectOperator (P := (· = G.base.withoutCaches)) (S := declared)
    (M := fun found => G.Expresses found ∧
      (G.base.operatorState found.operator).isDeferred = false) ?_ ?_
    (Contract.findOverloads hdecl (fun _ hlocal => by cases hlocal)
      (Contract.findDeclaredOverloads hdecl)) _ rfl).value found h
  · rintro _ rfl
    exact ⟨rfl, rfl⟩
  · rintro _ rfl src hsrc choice hchoice best hbest
    refine ⟨expresses_chooseOverload (fun op hop type htype => ?_) hchoice best hbest, ?_⟩
    · obtain ⟨entry, hentry, hop⟩ := hsrc op hop
      exact Catalog.scalarsInPlay_subset_typesInPlay hentry hop htype
    · obtain ⟨entry, hentry, hop⟩ := hsrc _ (chooseOverload_best hchoice best hbest).1
      exact G.compiled entry hentry _ hop

namespace Holds

variable {w w' : Workspace}

variable (h : G.Holds w)

include h

theorem recalls : w.Recalls G.resolution G.types G.base where
  view := by
    have hactive := activeTransaction?_eq h.session
    rw [Workspace.operatorView, Workspace.operatorView, h.catalog.operators, h.session, hactive]
  conversions := h.catalog.conversions
  contexts := h.contexts
  matched := h.matched

theorem of_recalls (hsame : w'.withoutCaches = w.withoutCaches)
    (hrecalls : w'.Recalls G.resolution G.types G.base) : G.Holds w' ∧ G.known w' = G.known w := by
  have hcat : w'.catalog = w.catalog := (congrArg Workspace.catalog hsame :)
  have hknown : G.known w' = G.known w := by rw [known, known, hcat]
  refine ⟨⟨?_, ?_, ?_, hrecalls.contexts, hrecalls.matched⟩, hknown⟩
  · rw [hknown, hcat]
    exact h.catalog
  · exact (congrArg Workspace.operatorStates hsame :).trans h.states
  · exact (congrArg Workspace.session hsame :).trans h.session

theorem findConversion (widen : Bool) {src tgt : Ty} (hsrc : G.Expresses src) (htgt : G.Expresses tgt) :
    ∃ w', w.findConversion widen src tgt = (G.conversion widen src tgt, w') ∧
      G.Holds w' ∧ G.known w' = G.known w := by
  obtain ⟨hctx, hrecalls⟩ := h.recalls.findConversion G.identified widen hsrc htgt
  exact ⟨_, Prod.ext hctx rfl, h.of_recalls rfl hrecalls⟩

protected theorem selectOperator (name : String) (hplain : call.IsPlain) (hcall : call.scalars ⊆ G.types) :
    ∃ w', selectOperator G.resolution G.scope name call false w =
        (G.overload name call, w') ∧ G.Holds w' ∧ G.known w' = G.known w := by
  have hoblivious : Oblivious (.plain G.identified G.base)
      (selectOperator G.resolution G.scope name call false) :=
    oblivious_selectOperator G.identified G.base.catalog.overloadScalars_subset_typesInPlay
      (nil_subset _) hplain hcall name false
  obtain ⟨hout, hsame, hrecalls⟩ := hoblivious.remembering w h.recalls
  refine ⟨(selectOperator G.resolution G.scope name call false w).2, ?_, h.of_recalls hsame hrecalls⟩
  exact Prod.ext hout rfl

protected theorem findObject (name : String) : findObject G.resolution G.scope name w =
      ((findObject G.resolution G.scope name G.base).1.map
        (Option.map (CatalogObject.settle (G.known w))), w) :=
  findObjectWithin_of_settles h.catalog h.session G.inactive G.device G.scope _ name

theorem activeTransaction? : w.activeTransaction? = none :=
  (activeTransaction?_eq h.session).trans G.inactive

theorem operatorState (op : Operator) : w.operatorState op = G.base.operatorState op := by
  rw [Workspace.operatorState, h.states, Workspace.operatorState]

theorem noteReferences {tv : TableVar} (htv : G.HasStale tv) (refs : List String) :
    G.Holds (w.noteReferences tv.name refs) ∧
      G.known (w.noteReferences tv.name refs) = (G.known w).note tv.name refs := by
  have hsettles := h.catalog.noteReferences G.keyed htv refs
  have hknown : G.known (w.noteReferences tv.name refs) = (G.known w).note tv.name refs := by
    refine hsettles.readings_eq G.keyed fun name read hread => ?_
    by_cases hname : name = tv.name
    · exact ⟨tv, hname.symm, htv⟩
    · rw [Readings.note_of_ne refs hname] at hread
      exact Catalog.exists_hasStale_of_readings G.keyed hread
  refine ⟨⟨?_, h.states, h.session, h.contexts, h.matched⟩, hknown⟩
  rw [hknown]
  exact hsettles

end Holds

theorem object?_of_findObject (h : (findObject G.resolution G.scope name G.base).1 = .ok (some obj)) :
    G.base.catalog.object? obj.name = some obj := by
  have hstands := (Advancing.findObject (F := .any) G.resolution G.scope name G.base G.keyed).value _ h
    obj rfl
  have hbase : (findObject G.resolution G.scope name G.base).2 = G.base := congrArg Prod.snd
    (findObjectWithin_of_settles G.base.catalog.settles_nothing rfl G.inactive G.device G.scope _ name)
  rwa [hbase] at hstands

end Ground

end Relational
