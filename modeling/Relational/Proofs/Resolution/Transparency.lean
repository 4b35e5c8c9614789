import Relational.Proofs.Resolution.Overloads
import Relational.Proofs.Resolution.Remembered

/-!
# The memory of calls is transparent

Remembering matches of calls changes no answer. A remembered match is only looked up when all places that
take precedence over the catalog were tried, and it is current, so that matching the call with the
overloads of its name would give it again. After any changes of the catalog and any calls, a call is
resolved as without memories: to the same overload with the same conversions of its arguments, or with
the same failure.
-/

namespace Relational

variable {α β : Type} {options : ResolutionOptions} {types : List ScalarType} {next : α → Resolving β}
  {srcs : List OverloadSource} {choice : OverloadChoice} {w base : Workspace} {scope : PlanScope}
  {closest : Option OverloadMatch} {src : OverloadSource} {action : Resolving α}
  {best : OverloadMatch} {call : Call}

theorem bind_apply_of_ok {val : α} (h : (action w).1 = .ok val) :
    (action >>= next) w = next val (action w).2 := by
  rw [bind_apply]
  match action w, h with
  | (_, _), rfl => rfl

theorem bind_apply_of_error {abort : Abort} (h : (action w).1 = .error abort) :
    (action >>= next) w = (.error abort, (action w).2) := by
  rw [bind_apply]
  match action w, h with
  | (_, _), rfl => rfl

/-! ### Oblivious resolutions -/

/-- Memories of what is found with the operators and conversions of a workspace: the workspaces that have
them, and the calls that may be remembered. They answer searches of conversions, and they have the best match
of a remembered call. -/
structure Memories (options : ResolutionOptions) (types : List ScalarType) (base : Workspace) where
  Held : Workspace → Prop
  Admits : Call → Prop
  view : ∀ {w : Workspace}, Held w → w.operatorView = base.operatorView
  conversions : ∀ {w : Workspace}, Held w → w.catalog.conversions = base.catalog.conversions
  answer : ∀ {w : Workspace} {α : Type} {action : StateM (Option ConversionCache) α} {answer : α}, Held w →
    Answers types base.catalog.conversions action answer →
      (action w.conversionCache).1 = answer ∧
        Held { w with conversionCache := (action w.conversionCache).2 }
  remember : ∀ {w : Workspace} {call : Call} {key : CallKey} {overloads : Overloads}
    {choice : OverloadChoice} {best : OverloadMatch}, Held w → Admits call →
      call.Chooses options types base.catalog key overloads choice → choice.best = some best →
      choice.ties = [] → ∀ visited, Held { w with
        operatorCache := w.operatorCache.map
          (·.remember key overloads.name best (choice.visited ++ visited)) }
  remembered : ∀ {w : Workspace} {cache : OperatorCache}, Held w → w.operatorCache = some cache →
    ∀ key, Held { w with operatorCache := some (cache.get? key).2 }
  current : ∀ {w : Workspace} {cache : OperatorCache} {call : Call} {name : String}
    {path : ResolutionPath} {isExact : Bool} {m : RememberedMatch} {overloads : Overloads}, Held w →
      w.operatorCache = some cache → Admits call → call.isScalar → call.scalars ⊆ types →
      cache.find? (call.key name path isExact) = some m →
      base.catalog.declaredOverloads options path name = .one overloads →
        ∃ choice, (chooseOverload base.catalog.conversions call isExact overloads.operators none).1 =
          some choice ∧ choice.best = some m.found ∧ choice.ties = []

/-- A resolution that leaves a workspace without memories as it is, and that has the same outcome where
there are memories, besides which it changes nothing. -/
structure Oblivious {base : Workspace} (M : Memories options types base) (action : Resolving α) :
    Prop where
  unchanged : (action base.withoutCaches).2 = base.withoutCaches
  remembering : ∀ w : Workspace, M.Held w →
    (action w).1 = (action base.withoutCaches).1 ∧ (action w).2.withoutCaches = w.withoutCaches ∧
      M.Held (action w).2

namespace Oblivious

variable {M : Memories options types base}

theorem of_reads (h : Reads action) : Oblivious M action where
  unchanged := h.workspace _
  remembering w hw := by
    rw [h.workspace]
    exact ⟨h.outcome _ _ (M.view hw), rfl, hw⟩

theorem pure (val : α) : Oblivious M (Pure.pure val) :=
  of_reads (.pure val)

theorem raise (cause : Cause) : Oblivious M (Resolving.raise cause : Resolving α) :=
  of_reads (.throw _)

theorem bind (h : Oblivious M action)
    (hnext : ∀ val, (action base.withoutCaches).1 = .ok val → Oblivious M (next val)) :
    Oblivious M (action >>= next) := by
  cases hval : (action base.withoutCaches).1 with
  | ok val =>
    constructor
    · rw [bind_apply_of_ok hval, h.unchanged]
      exact (hnext val hval).unchanged
    · intro w hw
      obtain ⟨hout, hsame, hkept⟩ := h.remembering w hw
      rw [bind_apply_of_ok hval, bind_apply_of_ok (hout.trans hval), h.unchanged, ← hsame]
      exact (hnext val hval).remembering _ hkept
  | error abort =>
    constructor
    · rw [bind_apply_of_error hval, h.unchanged]
    · intro w hw
      obtain ⟨hout, hsame, hkept⟩ := h.remembering w hw
      rw [bind_apply_of_error hval, bind_apply_of_error (hout.trans hval)]
      exact ⟨rfl, hsame, hkept⟩

end Oblivious

/-! ### Matching, remembering and recalling -/

section Steps

variable {M : Memories options types base} {isExact : Bool} {overloads : Overloads} {key : CallKey}

theorem choose_apply {answer : Option OverloadChoice} {cache : Option ConversionCache}
    (h : chooseOverload w.catalog.conversions call isExact overloads.operators w.conversionCache =
      (answer, cache)) : choose call isExact overloads w =
      (answer.elim (.error .absent) .ok, { w with conversionCache := cache }) := by
  rw [choose, get_bind_apply, h]
  cases answer with
  | some choice => rfl
  | none => rfl

theorem oblivious_choose (hid : Identified types) (hcall : call.scalars ⊆ types)
    (hoverloads : ∀ op ∈ overloads.operators, op.scalars ⊆ types) :
    Oblivious M (choose call isExact overloads) := by
  obtain ⟨names, answer, hdepends, -⟩ :=
    chooseOverload_dependsOn (g := base.catalog.conversions) hid isExact hcall hoverloads
  have hplain : choose call isExact overloads base.withoutCaches =
      (answer.elim (.error .absent) .ok, base.withoutCaches) :=
    choose_apply hdepends.answers.without
  constructor
  · rw [hplain]
  · intro w hw
    obtain ⟨hanswer, hkept⟩ := M.answer hw hdepends.answers
    rw [← M.conversions hw] at hanswer hkept
    rw [hplain, choose_apply (Prod.ext hanswer rfl)]
    exact ⟨rfl, rfl, hkept⟩

theorem choose_withoutCaches_eq_ok : (choose call isExact overloads base.withoutCaches).1 = .ok choice ↔
      (chooseOverload base.catalog.conversions call isExact overloads.operators none).1 =
        some choice := by
  rcases h : chooseOverload base.catalog.conversions call isExact overloads.operators none with
    ⟨answer, cache⟩
  have hplain : choose call isExact overloads base.withoutCaches =
      (answer.elim (.error .absent) .ok, { base.withoutCaches with conversionCache := cache }) :=
    choose_apply h
  rw [hplain]
  cases answer with
  | none => simp
  | some other => simp

theorem oblivious_rememberMatch (hadmits : M.Admits call)
    (hchooses : call.Chooses options types base.catalog key overloads choice)
    (hbest : choice.best = some best) (hties : choice.ties = []) (visited : List String) :
    Oblivious M (rememberMatch key overloads.name best (choice.visited ++ visited)) := by
  constructor
  · change (if best.operator.isPrivate then base.withoutCaches else _) = _
    split <;> rfl
  · intro w hw
    refine ⟨rfl, ?_⟩
    change (if best.operator.isPrivate then w else _).withoutCaches = _ ∧
      M.Held (if best.operator.isPrivate then w else _)
    split
    · exact ⟨rfl, hw⟩
    · exact ⟨rfl, M.remember hw hadmits hchooses hbest hties visited⟩

theorem recallMatch_apply {cache : OperatorCache} (h : w.operatorCache = some cache) : recallMatch key w =
      (.ok ((cache.find? key).map (·.found)), { w with operatorCache := some (cache.get? key).2 }) := by
  rw [recallMatch, get_bind_apply, h, ← Recent.fst_get?]
  rfl

theorem oblivious_recallOr {search : Resolving OverloadMatch} (hsearch : Oblivious M search)
    (hcurrent : ∀ w cache, M.Held w → w.operatorCache = some cache → ∀ m, cache.find? key = some m →
      (search base.withoutCaches).1 = .ok m.found) : Oblivious M (recallOr key search) := by
  have hplain : recallMatch key base.withoutCaches = (.ok none, base.withoutCaches) := rfl
  have hbind : ∀ next : Option OverloadMatch → Resolving OverloadMatch,
      (recallMatch key >>= next) base.withoutCaches = next none base.withoutCaches :=
    fun next => bind_apply_of_ok (congrArg Prod.fst hplain)
  constructor
  · rw [recallOr, hbind]
    exact hsearch.unchanged
  · intro w hw
    rw [recallOr, hbind]
    cases hcache : w.operatorCache with
    | none =>
      have hnone : recallMatch key w = (.ok none, w) := by
        rw [recallMatch, get_bind_apply, hcache]
        rfl
      rw [bind_apply, hnone]
      exact hsearch.remembering w hw
    | some cache =>
      have hkept := M.remembered hw hcache key
      rw [bind_apply, recallMatch_apply hcache]
      cases hfind : cache.find? key with
      | none => exact hsearch.remembering _ hkept
      | some m => exact ⟨(hcurrent w cache hw hcache m hfind).symm, rfl, hkept⟩

end Steps

/-! ### The selection of an overload -/

/-- Overloads whose parameters are of given types and which, if they are looked for in the catalog, are
those of the name. -/
structure OverloadSource.IsKnown (options : ResolutionOptions) (types : List ScalarType) (c : Catalog)
    (path : ResolutionPath) (name : String) (source : OverloadSource) : Prop where
  scalars : ∀ op ∈ source.overloads.operators, op.scalars ⊆ types
  declared : source.isCataloged → c.declaredOverloads options path name = .one source.overloads

section Selection

variable {M : Memories options types base} {name : String} {isExact hasArity : Bool}

theorem selectFrom_of_best
    (hchoice : (chooseOverload base.catalog.conversions call isExact src.overloads.operators
      none).1 = some choice) (hbest : choice.best = some best) (hties : choice.ties = []) :
    (selectFrom scope name call isExact closest hasArity src srcs base.withoutCaches).1 =
      .ok best := by
  rw [selectFrom, bind_apply_of_ok (choose_withoutCaches_eq_ok.mpr hchoice), hbest, hties]
  split <;> rfl

theorem oblivious_selectFrom (hid : Identified types) (hadmits : M.Admits call)
    (hcall : call.scalars ⊆ types) (hsrc : src.IsKnown options types base.catalog scope.path name)
    (hsrcs : ∀ closest hasArity, Oblivious M
      (selectAmong scope name call isExact closest hasArity srcs)) :
    Oblivious M (selectFrom scope name call isExact closest hasArity src srcs) := by
  refine (oblivious_choose hid hcall hsrc.scalars).bind fun choice hchoice => ?_
  split
  · exact hsrcs _ _
  · rename_i best hbest hties
    split
    · rename_i hremembered
      obtain ⟨hcataloged, hscalar⟩ := Bool.and_eq_true_iff.mp hremembered
      have hchooses : call.Chooses options types base.catalog (call.key name scope.path isExact)
          src.overloads choice :=
        ⟨hscalar, hcall, rfl, hsrc.declared hcataloged, choose_withoutCaches_eq_ok.mp hchoice⟩
      exact (oblivious_rememberMatch hadmits hchooses hbest hties _).bind fun _ _ => .pure best
    · exact .pure best
  · exact .raise _

theorem oblivious_selectAmong (hid : Identified types) (hadmits : M.Admits call)
    (hcall : call.scalars ⊆ types)
    (hsrcs : ∀ src ∈ srcs, src.IsKnown options types base.catalog scope.path name)
    (closest : Option OverloadMatch) (hasArity : Bool) :
    Oblivious M (selectAmong scope name call isExact closest hasArity srcs) := by
  induction srcs generalizing closest hasArity with
  | nil =>
    exact .raise _
  | cons src srcs ih =>
    obtain ⟨hsrc, hrest⟩ := List.forall_mem_cons.mp hsrcs
    have hfresh : Oblivious M (selectFrom scope name call isExact closest hasArity src srcs) :=
      oblivious_selectFrom hid hadmits hcall hsrc fun closest hasArity => ih hrest closest hasArity
    rw [selectAmong_cons]
    split
    · rename_i hremembered
      obtain ⟨hcataloged, hscalar⟩ := Bool.and_eq_true_iff.mp hremembered
      refine oblivious_recallOr hfresh fun w cache hw hcache m hfind => ?_
      obtain ⟨choice, hchoice, hbest, hties⟩ := M.current hw hcache hadmits hscalar hcall hfind
        (hsrc.declared hcataloged)
      exact selectFrom_of_best hchoice hbest hties
    · exact hfresh

end Selection

/-! ### The places where overloads are looked for -/

section Sources

variable {name : String}

variable (hc : overloadScalars w.catalog.operators ⊆ types)

include hc

theorem resolves_findDeclaredOverloads (options : ResolutionOptions) (path : ResolutionPath) :
    Resolves w.operatorView (findDeclaredOverloads options path name) fun srcs =>
      ∀ src ∈ srcs, src.IsKnown options types w.catalog path name := by
  intro w' hw'
  have hsame : w'.catalog.declaredOverloads options path name =
      w.catalog.declaredOverloads options path name :=
    Catalog.declaredOverloads_congr fun ref _ =>
      Catalog.resolveOperatorName_congr (congrArg OperatorView.catalog hw') ref path
  have hrun := findDeclaredOverloads_apply options path name w'
  rw [hsame] at hrun
  refine ⟨by rw [hrun]; exact ⟨rfl, rfl⟩, fun srcs hsrcs src hsrc => ?_, fun _ _ => trivial⟩
  rw [hrun] at hsrcs
  unfold Found.sources at hsrcs
  split at hsrcs
  · cases hsrcs
    cases hsrc
  · rename_i overloads hdecl
    cases hsrcs
    obtain rfl := List.mem_singleton.mp hsrc
    exact ⟨Catalog.scalars_of_declaredOverloads hc hdecl, fun _ => hdecl⟩
  · cases hsrcs

theorem resolves_findOverloads (hscope : overloadScalars scope.operators ⊆ types)
    (options : ResolutionOptions) (name : String) :
    Resolves w.operatorView (findOverloads options scope name) fun srcs =>
      ∀ src ∈ srcs, src.IsKnown options types w.catalog scope.path name := by
  refine Contract.findOverloads (fun hw' hfound => ⟨?_, by simp⟩) (fun overloads hlocal => ?_)
    (resolves_findDeclaredOverloads hc options scope.path)
  · rw [Catalog.resolveOperatorName_congr (congrArg OperatorView.catalog hw')] at hfound
    exact Catalog.scalars_of_resolveOperatorName hc hfound
  · obtain ⟨entry, hfind, rfl⟩ := Option.map_eq_some_iff.mp hlocal
    refine ⟨fun op hop type htype => hscope ?_, by simp⟩
    exact scalars_subset_overloadScalars (List.mem_of_find?_eq_some hfind) hop htype

end Sources

/-- The selection of an overload is oblivious. -/
theorem oblivious_selectOperator {M : Memories options types base} (hid : Identified types)
    (hc : overloadScalars base.catalog.operators ⊆ types)
    (hscope : overloadScalars scope.operators ⊆ types) (hadmits : M.Admits call)
    (hcall : call.scalars ⊆ types) (name : String) (isExact : Bool) :
    Oblivious M (selectOperator options scope name call isExact) := by
  refine (Oblivious.of_reads (reads_findOverloads options scope name)).bind fun srcs hsrcs => ?_
  have hknown :=
    (resolves_findOverloads hc hscope options name base.withoutCaches rfl).value srcs hsrcs
  split
  · refine .of_reads (.get_bind (fun _ => .throw _) fun w w' hview => ?_)
    have hops : w.catalog.operators = w'.catalog.operators := congrArg OperatorView.catalog hview
    rw [Catalog.operatorNames, hops, Catalog.operatorNames]
  · exact oblivious_selectAmong hid hadmits hcall hknown none false

/-! ### Transparent actions -/

/-- Coherent memories. Types whose names are plain are told apart by them, so that all calls may be
remembered. -/
def Memories.coherent (hid : Identified types) (hplain : PlainlyNamed types) (base : Workspace) :
    Memories options types base where
  Held w := w.withoutCaches = base.withoutCaches ∧ w.RemembersCalls options types
  Admits _ := True
  view hw := (congrArg Workspace.operatorView hw.1 :)
  conversions hw := (congrArg (·.catalog.conversions) hw.1 :)
  answer {w _ action _} hw hact := by
    obtain ⟨cache, hcache, hcoh⟩ := hw.2.cache
    have hcat : w.catalog = base.catalog := (congrArg Workspace.catalog hw.1 :)
    rw [hcat] at hcoh
    obtain ⟨cache', hcoh', heq⟩ := hact.remembering cache hcoh
    rw [hcache, heq]
    exact ⟨rfl, hw.1, { hw.2 with cache := ⟨cache', rfl, hcat ▸ hcoh'⟩ }⟩
  remember {w _ _ _ _ _} hw _ hchooses hbest hties visited := by
    obtain ⟨cache, hcache, hcoh⟩ := hw.2.calls
    have hcat : w.catalog = base.catalog := (congrArg Workspace.catalog hw.1 :)
    rw [hcache]
    refine ⟨hw.1, { hw.2 with calls := ⟨_, rfl, ?_⟩ }⟩
    exact hcoh.remember hw.2.operators (hcat ▸ hchooses) hbest hties visited
  remembered hw hcache key := by
    obtain ⟨_, hsome, hcoh⟩ := hw.2.calls
    obtain rfl := Option.some.inj (hcache.symm.trans hsome)
    exact ⟨hw.1, { hw.2 with calls := ⟨_, rfl, hcoh.get? key⟩ }⟩
  current {w _ _ _ _ _ _ _} hw hcache _ hscalar hcall hfind hdecl := by
    obtain ⟨_, hsome, hcoh⟩ := hw.2.calls
    obtain rfl := Option.some.inj (hcache.symm.trans hsome)
    have hcat : w.catalog = base.catalog := (congrArg Workspace.catalog hw.1 :)
    rw [hcat] at hcoh
    obtain ⟨_, overloads, choice, hchooses, hbest, hties, -⟩ :=
      hcoh.entries _ (Recent.mem_entries_of_find? hfind)
    -- the name still designates the overloads that the match was remembered for
    obtain rfl : overloads = _ := Found.one.inj (hchooses.declared.symm.trans hdecl)
    exact ⟨choice, hchooses.choice_of_key_eq hid hplain hscalar hcall rfl, hbest, hties⟩

/-- An action that coherent memories change neither the outcome nor, apart from the memories themselves,
the effect of, and that keeps them coherent. -/
def Transparent (options : ResolutionOptions) (types : List ScalarType) (action : Resolving α) : Prop :=
  ∀ w : Workspace, w.RemembersCalls options types →
    (action w).1 = (action w.withoutCaches).1 ∧
    (action w).2.withoutCaches = (action w.withoutCaches).2 ∧
    (action w).2.RemembersCalls options types

namespace Transparent

theorem of_oblivious (hid : Identified types) (hplain : PlainlyNamed types)
    (h : ∀ w : Workspace, w.RemembersCalls options types →
      Oblivious (Memories.coherent hid hplain w : Memories options types w) action) :
    Transparent options types action := by
  intro w hw
  obtain ⟨hout, hbase, hkept⟩ := (h w hw).remembering w ⟨rfl, hw⟩
  exact ⟨hout, hbase.trans (h w hw).unchanged.symm, hkept.2⟩

theorem pure (val : α) : Transparent options types (Pure.pure val) :=
  fun _ hw => ⟨rfl, rfl, hw⟩

theorem bind (h : Transparent options types action) (hnext : ∀ val, Transparent options types (next val)) :
    Transparent options types (action >>= next) := by
  intro w hw
  obtain ⟨hout, hws, hkept⟩ := h w hw
  cases hval : (action w.withoutCaches).1 with
  | ok val =>
    rw [bind_apply_of_ok hval, bind_apply_of_ok (hout.trans hval), ← hws]
    exact hnext val _ hkept
  | error abort =>
    rw [bind_apply_of_error hval, bind_apply_of_error (hout.trans hval)]
    exact ⟨rfl, hws, hkept⟩

end Transparent

theorem transparent_resolveOperator (hid : Identified types) (hplain : PlainlyNamed types)
    (hscope : overloadScalars scope.operators ⊆ types) (hcall : call.scalars ⊆ types)
    {compile : Operator → Resolving Unit} (hcompile : ∀ op, Transparent options types (compile op))
    (name : String) (isExact : Bool) :
    Transparent options types (resolveOperator options scope compile name call isExact) := by
  have hselect : Transparent options types (selectOperator options scope name call isExact) :=
    .of_oblivious hid hplain fun w hw =>
      oblivious_selectOperator hid hw.operators.scalars hscope trivial hcall name isExact
  have hdeferred : ∀ op, Transparent options types (isDeferred op) :=
    fun _ _ hw => ⟨rfl, rfl, hw⟩
  refine hselect.bind fun found => (hdeferred found.operator).bind fun deferred => ?_
  split
  · exact (hcompile found.operator).bind fun _ => .pure found
  · exact .pure found

/-! ### Steps -/

/-- A call that is to be resolved: for a session or none, with what a compilation looks names up in, and
with what compiles bodies that were put off. -/
structure CallQuery where
  session : Option Session := none
  scope : PlanScope := {}
  compile : Operator → Resolving Unit := fun op => Resolving.raise (.declarationNotFound op.name)
  name : String
  call : Call
  isExact : Bool := false

namespace CallQuery

/-- The scalar types of the arguments, and of the operators of the compilation. -/
def scalars (query : CallQuery) : List ScalarType :=
  query.call.scalars ++ overloadScalars query.scope.operators

/-- The overload for a call in a workspace. -/
def resolve (query : CallQuery) (options : ResolutionOptions) (w : Workspace) :
    Except Abort OverloadMatch × Workspace :=
  resolveOperator options query.scope query.compile query.name query.call query.isExact
    { w with session := query.session }

end CallQuery

/-- A change of the operators, conversions or scalar types of the catalog, or a call. -/
inductive OperatorStep where
  | addOperator (op : Operator)
  | removeOperator (op : Operator)
  | addConversion (conversion : Conversion)
  | removeConversion (source target : ScalarType)
  | addScalarType (type : ScalarType)
  | dropScalarType (name : String)
  | resolve (query : CallQuery)

/-- The scalar types that a step brings in. -/
def OperatorStep.scalars : OperatorStep → List ScalarType
  | addOperator op => op.scalars
  | removeOperator _ => []
  | addConversion conversion => conversion.target :: conversion.operator.toList.flatMap Operator.scalars
  | removeConversion _ _ => []
  | addScalarType type => [type]
  | dropScalarType _ => []
  | resolve query => query.scalars

namespace Workspace

/-- The workspace after a step. -/
def performStep (options : ResolutionOptions) (w : Workspace) : OperatorStep → Workspace
  | .addOperator op => w.apply (w.catalog.addOperator op)
  | .removeOperator op => w.apply (w.catalog.removeOperator op)
  | .addConversion conversion => w.apply (w.catalog.addConversion conversion)
  | .removeConversion source target => w.apply (w.catalog.removeConversion source target)
  | .addScalarType type => w.apply (w.catalog.addScalarType type)
  | .dropScalarType name => w.apply (w.catalog.dropScalarType name)
  | .resolve query => (query.resolve options w).2

section

variable (h : w.RemembersCalls options types)

include h

theorem RemembersCalls.resolve (hid : Identified types) (hplain : PlainlyNamed types) {query : CallQuery}
    (hquery : query.scalars ⊆ types) (hcompile : ∀ op, Transparent options types (query.compile op)) :
    (query.resolve options w).1 = (query.resolve options w.withoutCaches).1 ∧
      (query.resolve options w).2.RemembersCalls options types := by
  obtain ⟨hcall, hscope⟩ := List.append_subset.mp hquery
  have hsess : ({ w with session := query.session } : Workspace).RemembersCalls options types :=
    { h with }
  obtain ⟨hout, -, hkept⟩ :=
    transparent_resolveOperator hid hplain hscope hcall hcompile query.name query.isExact _ hsess
  exact ⟨hout, hkept⟩

/-- Each step keeps the memories coherent. -/
theorem RemembersCalls.performStep (hid : Identified types) (hplain : PlainlyNamed types)
    {step : OperatorStep} (hstep : step.scalars ⊆ types)
    (hcompile : ∀ query, step = .resolve query → ∀ op, Transparent options types (query.compile op)) :
    (w.performStep options step).RemembersCalls options types := by
  cases step with
  | addOperator op =>
    exact h.apply hid (Catalog.isAnnounced_addOperator h.wellKept h.scalarTypes op)
      (Catalog.announcesOperators_addOperator h.operators hstep)
  | removeOperator op =>
    exact h.apply hid (Catalog.isAnnounced_removeOperator h.wellKept h.scalarTypes op)
      (Catalog.announcesOperators_removeOperator h.operators op)
  | addConversion conv =>
    obtain ⟨htgt, hop⟩ := List.cons_subset.mp hstep
    refine h.apply hid (Catalog.isAnnounced_addConversion h.wellKept h.scalarTypes htgt)
      (Catalog.announcesOperators_addConversion h.operators fun op hsome type htype => hop ?_)
    simpa [Option.mem_def.mp hsome] using htype
  | removeConversion src tgt =>
    exact h.apply hid (Catalog.isAnnounced_removeConversion h.wellKept h.scalarTypes src tgt)
      (Catalog.announcesOperators_of_eq h.operators (Catalog.operators_removeConversion _ _ _))
  | addScalarType type =>
    have htype : type ∈ types := hstep (by simp [OperatorStep.scalars])
    exact h.apply hid (Catalog.isAnnounced_addScalarType h.wellKept h.scalarTypes htype)
      (Catalog.announcesOperators_of_eq h.operators (Catalog.operators_addScalarType _ _))
  | dropScalarType name =>
    exact h.apply hid (Catalog.isAnnounced_dropScalarType h.wellKept hid h.scalarTypes name)
      (Catalog.announcesOperators_of_eq h.operators (Catalog.operators_dropScalarType _ _))
  | resolve query => exact (h.resolve hid hplain hstep (hcompile query rfl)).2

theorem RemembersCalls.foldl_performStep (hid : Identified types) (hplain : PlainlyNamed types)
    {steps : List OperatorStep} (hsteps : ∀ step ∈ steps, step.scalars ⊆ types)
    (hcompile : ∀ query, .resolve query ∈ steps → ∀ op, Transparent options types (query.compile op)) :
    (steps.foldl (Workspace.performStep options) w).RemembersCalls options types := by
  induction steps generalizing w with
  | nil => exact h
  | cons step steps ih =>
    obtain ⟨hstep, hrest⟩ := List.forall_mem_cons.mp hsteps
    have hfirst := h.performStep hid hplain hstep fun query hquery =>
      hcompile query (hquery ▸ List.mem_cons_self)
    exact ih hfirst hrest fun query hquery => hcompile query (List.mem_cons_of_mem _ hquery)

end

/-- The scalar types of a workspace, of steps and of a call. -/
def scalarsWith (w : Workspace) (steps : List OperatorStep) (query : CallQuery) : List ScalarType :=
  w.catalog.scalarTypes ++ overloadScalars w.catalog.operators ++
    steps.flatMap OperatorStep.scalars ++ query.scalars

/-- Memories of any capacities that start empty change no answer: after any changes of the catalog and
any calls, a call has the outcome that it has in the current catalog without memories, be it an overload
with the conversions of the arguments or a failure. What compiles bodies that were put off must itself
not be changed by the memories. -/
theorem resolveOperator_eq_withoutCaches (options : ResolutionOptions) (w : Workspace)
    (conversions calls : Nat) (hconversions : w.conversionCache = some { capacity := conversions })
    (hcalls : w.operatorCache = some { capacity := calls }) (hcatalog : w.catalog.WellKept)
    (hoperators : ∀ entry ∈ w.catalog.operators, entry.2.name = entry.1)
    (steps : List OperatorStep) (query : CallQuery)
    (hid : Identified (w.scalarsWith steps query)) (hplain : PlainlyNamed (w.scalarsWith steps query))
    (hcompile : ∀ q, .resolve q ∈ .resolve query :: steps → ∀ op,
      Transparent options (w.scalarsWith steps query) (q.compile op)) :
    let w' := steps.foldl (performStep options) w
    (query.resolve options w').1 = (query.resolve options w'.withoutCaches).1 := by
  intro w'
  have hsteps : ∀ step ∈ steps, step.scalars ⊆ w.scalarsWith steps query := by
    intro step hstep type htype
    have hmem : type ∈ steps.flatMap OperatorStep.scalars := List.mem_flatMap.mpr ⟨step, hstep, htype⟩
    exact List.mem_append_left _ (List.mem_append_right _ hmem)
  have hquery : query.scalars ⊆ w.scalarsWith steps query := List.subset_append_right _ _
  have hstart : w.RemembersCalls options (w.scalarsWith steps query) := by
    refine ⟨⟨hcatalog, ?_, _, hconversions, ConversionCache.coherent_empty _ _ _⟩, ⟨hoperators, ?_⟩,
      _, hcalls, OperatorCache.coherent_empty _ _ _ _⟩
    · exact fun type htype => by simp [scalarsWith, htype]
    · exact fun type htype => by simp [scalarsWith, htype]
  have hend : w'.RemembersCalls options (w.scalarsWith steps query) :=
    hstart.foldl_performStep hid hplain hsteps fun q hq => hcompile q (List.mem_cons_of_mem _ hq)
  exact (hend.resolve hid hplain hquery (hcompile query List.mem_cons_self)).1

/-- A call that is remembered before a closer overload is declared, whose body was put off. -/
theorem resolveOperator_eq_withoutCaches_overload :
    let a : ScalarType := { serial := 10, name := "A" }
    let b : ScalarType := { serial := 11, name := "B" }
    let operator (serial : Nat) (type : ScalarType) : Operator :=
      { serial, name := "Lib.F", signature := .ofTypes [.scalar type], returnType := none }
    let query : CallQuery :=
      { name := "F", call := [{ type := some (.scalar a) }]
        compile := fun op => modify (·.bind op (.remark "compiled")) }
    let w : Workspace :=
      { conversionCache := some { capacity := 1 }, operatorCache := some { capacity := 1 }
        operatorStates := [(2, { isDeferred := true })] }
    let steps := [.addOperator (operator 1 b), .addConversion { source := a, target := b },
      .resolve query, .addOperator (operator 2 a)]
    let w' := steps.foldl (performStep {}) w
    w.catalog.WellKept ∧ (∀ entry ∈ w.catalog.operators, entry.2.name = entry.1) ∧
    Identified (w.scalarsWith steps query) ∧ PlainlyNamed (w.scalarsWith steps query) ∧
    (∀ op, Transparent {} (w.scalarsWith steps query) (query.compile op)) ∧
    (query.resolve {} w').1.toOption.map (·.operator.serial) = some 2 ∧
    (query.resolve {} w').1 = (query.resolve {} w'.withoutCaches).1 := by
  intro a b operator query w steps w'
  have htypes : w.scalarsWith steps query = [b, b, a, a, a] := by
    simp [scalarsWith, steps, w, query, operator, Catalog.scalarTypes, OperatorStep.scalars,
      overloadScalars, CallQuery.scalars, Operator.scalars, Call.scalars, Signature.ofTypes, Ty.scalars]
  have hcatalog : w.catalog.WellKept := ⟨by simp [w], by simp [w], by simp [w]⟩
  have hoperators : ∀ entry ∈ w.catalog.operators, entry.2.name = entry.1 := by simp [w]
  have hid : Identified (w.scalarsWith steps query) := by
    rw [htypes]
    simp [Identified, a, b]
  have hplain : PlainlyNamed (w.scalarsWith steps query) := by
    rw [htypes]
    intro type htype modifier hmodifier
    have hname : type = b ∨ type = a := by simpa using htype
    rcases hname with rfl | rfl
    all_goals
      cases modifier with
      | plain => exact absurd rfl hmodifier
      | var | const => decide
  have hcompile : ∀ op, Transparent {} (w.scalarsWith steps query) (query.compile op) :=
    fun op w hw => ⟨rfl, rfl, { hw with }⟩
  have hcalls : ∀ q, .resolve q ∈ .resolve query :: steps → q = query := by
    intro q hq
    simpa [steps] using hq
  have heq := resolveOperator_eq_withoutCaches {} w 1 1 rfl rfl hcatalog hoperators steps query hid
    hplain fun q hq => hcalls q hq ▸ hcompile
  refine ⟨hcatalog, hoperators, hid, hplain, hcompile, ?_, heq⟩
  rw [heq]
  decide +kernel

end Workspace

end Relational
