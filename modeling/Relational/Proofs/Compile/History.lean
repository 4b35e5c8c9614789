import Relational.Engine
import Relational.Proofs.Compile.Repetition

/-!
# Compilations do not depend on history

An engine remembers conversions and calls, and its catalog notes what derived table variables read, with
each statement that is compiled and with those that fail as well. None of it shows. As long as the catalog
is not changed otherwise, a statement has the plan and the messages that it has with an engine that has
just been made.

Names have to tell the types in play apart, since calls are remembered by the names of the types of their
arguments. And what a derived table variable reads is noted for all sessions, though it is found out with
the aliases of one. So what other sessions found out is part of the state that the new engine starts from.
-/

namespace Relational

open Compiling Vocabulary List

/-! ### Workspaces that compilations leave -/

theorem Readings.nothing_le (known : Readings) : .nothing ≤ known :=
  fun _ _ h => by cases h

theorem CatalogObject.scalars_outline (obj : CatalogObject) : obj.outline.scalars = obj.scalars := by
  cases obj <;> rfl

namespace Catalog.Settles

variable {base c : Catalog} {known : Readings} (h : base.Settles known c)

include h

theorem typesInPlay_eq : c.typesInPlay = base.typesInPlay := by
  have hobjs : ∀ c : Catalog, c.objects.flatMap (·.2.scalars) =
      (c.objects.map (Prod.map id CatalogObject.outline)).flatMap (·.2.scalars) := by
    intro c
    rw [flatMap_map]
    exact flatMap_congr fun entry _ => (entry.2.scalars_outline).symm
  rw [typesInPlay, typesInPlay, hobjs, hobjs, h.outlines, h.operators, h.conversions]

theorem map_name_derived_eq : (c.tableVars.filter (·.isDerived)).map (·.name) =
    (base.tableVars.filter (·.isDerived)).map (·.name) := by
  have houtlines : ∀ objects : List (String × CatalogObject),
      ((tableVars { objects, devices := c.devices }).filter (·.isDerived)).map (·.name) =
        ((tableVars { objects := objects.map (Prod.map id CatalogObject.outline)
                      devices := c.devices }).filter (·.isDerived)).map (·.name) := by
    intro objects
    simp only [tableVars, filter_append, map_append]
    induction objects with
    | nil => rfl
    | cons entry objects ih =>
      obtain ⟨key, type | tv⟩ := entry
      · exact ih
      · simp only [map_cons, filterMap_cons, Prod.map, CatalogObject.outline,
          CatalogObject.mapTableVar, filter_cons, TableVar.setReferences]
        split
        · exact congrArg (tv.name :: ·) ih
        · exact ih
  have hself : ∀ c : Catalog, c.tableVars = tableVars { objects := c.objects, devices := c.devices } :=
    fun _ => rfl
  rw [hself c, hself base, ← h.devices, houtlines c.objects, houtlines base.objects, h.outlines]

theorem declaredOverloads_eq (opts : ResolutionOptions) (path : ResolutionPath) (name : String) :
    c.declaredOverloads opts path name = base.declaredOverloads opts path name := by
  simp only [declaredOverloads, resolveOperatorName, h.operators]

end Catalog.Settles

theorem Engine.optimizer_eq (e : Engine) {c c' : Catalog} (h : c.devices = c'.devices) :
    e.optimizer c = e.optimizer c' := by
  have hdev : determineDevice (some c) = determineDevice (some c') := by
    funext p
    simp only [determineDevice, Option.bind_some, Catalog.device?, h]
  have hpass : Optimizer.pass (some c) = Optimizer.pass (some c') := by
    funext identifier
    simp only [Optimizer.pass, determineDevices, hdev]
  simp only [optimizer, Optimizer.ofPasses, hpass]

namespace Ground

variable {G : Ground} {w w' : Workspace}

theorem known_of_catalog_eq (hcat : w.catalog = G.base.catalog) : G.known w = .nothing := by
  rw [known, hcat]
  exact G.base.catalog.settles_nothing.readings_eq G.keyed fun _ _ hknown => by cases hknown

theorem repeats_nothing (G : Ground) : G.Repeats .nothing :=
  fun _ _ _ hknown => by cases hknown

theorem Holds.isDeep_nestingBound (h : G.Holds w) :
    G.IsDeep (Compiler.nestingBound (.start G.compiler.options w)) [] := by
  have hnames : (Builder.start G.compiler.options w).derivedNames =
      Builder.derivedNames { workspace := G.base } :=
    congrArg eraseDups h.catalog.map_name_derived_eq
  have hkeys : (G.keys.filter (· ∉ [])).length ≤
      (Builder.start G.compiler.options w).derivedNames.length := by
    refine (length_filter_le _ _).trans (Nat.le_of_eq ?_)
    rw [keys, length_map, hnames]
  rw [IsDeep, Compiler.nestingBound]
  omega

/-! ### Actions that do not depend on history -/

variable {α β : Type}

/-- A resolution that does not depend on what was found out before: it has the same outcome where less is
known, and in the end whatever is known can be found out again. -/
def Indifferent (G : Ground) (action : Resolving α) : Prop :=
  ∀ w, G.Holds w → G.Repeats (G.known w) → G.Holds (action w).2 ∧ G.Repeats (G.known (action w).2) ∧
    ∀ w', G.Holds w' → G.known w' ≤ G.known w → ∃ w₁, action w' = ((action w).1, w₁) ∧ G.Holds w₁ ∧
      G.known w₁ ≤ G.known (action w).2

namespace Indifferent

variable {act : Resolving α}

theorem of_reads (res : Except Abort α) (h : ∀ w, G.Holds w → act w = (res, w)) : G.Indifferent act := by
  intro w hw hrepeats
  rw [h w hw]
  exact ⟨hw, hrepeats, fun w' hw' hle => ⟨w', h w' hw', hw', hle⟩⟩

theorem bind {next : α → Resolving β} (h : G.Indifferent act)
    (hnext : ∀ value, G.Indifferent (next value)) : G.Indifferent (act >>= next) := by
  intro w hw hrepeats
  obtain ⟨hholds, hrepeats₁, hless⟩ := h w hw hrepeats
  rw [bind_apply]
  rcases hrun : act w with ⟨abort | value, w₁⟩
  all_goals
    rw [hrun] at hholds hrepeats₁ hless
  · refine ⟨hholds, hrepeats₁, fun w' hw' hle => ?_⟩
    obtain ⟨w₁', hrun', hw₁', hle'⟩ := hless w' hw' hle
    exact ⟨w₁', by rw [bind_apply, hrun'], hw₁', hle'⟩
  · obtain ⟨hholds₂, hrepeats₂, hless₂⟩ := hnext value w₁ hholds hrepeats₁
    refine ⟨hholds₂, hrepeats₂, fun w' hw' hle => ?_⟩
    obtain ⟨w₁', hrun', hw₁', hle'⟩ := hless w' hw' hle
    rw [bind_apply, hrun']
    exact hless₂ w₁' hw₁' hle'

theorem map {f : α → β} (h : G.Indifferent act) : G.Indifferent (f <$> act) := by
  exact h.bind fun val => of_reads (.ok (f val)) fun _ _ => rfl

end Indifferent

/-! ### Programs -/

/-- A compilation from its start comes to an outcome, and to the same one where less is known. -/
structure Unmoved (G : Ground) (action : Compiling α) (w : Workspace) (result : Except Abort α)
    (b : Builder) : Prop where
  run : action (.start G.compiler.options w) = (result, b)
  holds : G.Holds b.workspace
  repeats : G.Repeats (G.known b.workspace)
  less : ∀ w', G.Holds w' → G.known w' ≤ G.known w → ∃ w₁,
    action (.start G.compiler.options w') = (result, b.on w₁ []) ∧ G.Holds w₁ ∧
      G.known w₁ ≤ G.known b.workspace

theorem exists_unmoved_outcome (hw : G.Holds w) (hrepeats : G.Repeats (G.known w)) (stmt : Stmt) :
    ∃ res b, G.Unmoved (Builder.outcome G.compiler stmt) w res b := by
  have htogether : ∀ depth', G.TogetherAt (G.lockstep (Compiler.nestingBound
      (.start G.compiler.options w)) depth') (G.known w) []
      (Builder.outcome G.compiler stmt (.start G.compiler.options w)) fun w' busy =>
        inScope [] (safely stmt.position? (compileStmt (G.environment depth') stmt))
          ((Builder.start G.compiler.options w).on w' busy) := by
    intro depth'
    have hsteps := Together.isStmtStepwise (accompanies_lockstep (G := G) (Compiler.nestingBound
      (.start G.compiler.options w)) depth') trivial
    have hadmits : G.Admits (Compiler.nestingBound (.start G.compiler.options w)) (G.known w) [] :=
      ⟨hw.isDeep_nestingBound, fun _ _ _ _ _ => not_mem_nil, hrepeats⟩
    exact hsteps.inScope expresses_nil (hsteps.safely (hsteps.compileStmt stmt)
      stmt.position?) (.start G.compiler.options w) ⟨hw, rfl, expresses_nil, hadmits⟩
  obtain ⟨⟨hholds, -, -, hadmits⟩, -, -, -, -⟩ := htogether 0
  refine ⟨_, _, rfl, hholds, hadmits.repeats, fun w' hw' hle => ?_⟩
  obtain ⟨w₁, hrun, hw₁, hle₁, -⟩ := (htogether (Compiler.nestingBound
    (.start G.compiler.options w'))).follows trivial (.inl trivial) w' [] hw'
    ⟨hle, rfl, hw'.isDeep_nestingBound⟩
  exact ⟨w₁, hrun, hw₁, hle₁⟩

theorem exists_unmoved_build (hw : G.Holds w) (hrepeats : G.Repeats (G.known w)) (stmt : Stmt) :
    ∃ res b, G.Unmoved (Builder.build G.compiler stmt) w res b := by
  obtain ⟨res, b, hrun, hholds, hrepeats, hless⟩ := exists_unmoved_outcome hw hrepeats stmt
  rcases res with (fail | text) | p
  · cases hpos : stmt.position? with
    | none =>
      refine ⟨_, _, Builder.build_of_raised_missing hpos hrun, hholds, hrepeats, fun w' hw' hle => ?_⟩
      obtain ⟨w₁, hrun', hw₁⟩ := hless w' hw' hle
      exact ⟨w₁, Builder.build_of_raised_missing hpos hrun', hw₁⟩
    | some pos =>
      refine ⟨_, _, Builder.build_of_raised hpos hrun, hholds, hrepeats, fun w' hw' hle => ?_⟩
      obtain ⟨w₁, hrun', hw₁, hle₁⟩ := hless w' hw' hle
      refine ⟨w₁, ?_, hw₁, hle₁⟩
      rw [Builder.build_of_raised hpos hrun', hholds.session,
        show (b.on w₁ []).workspace.session = _ from hw₁.session]
      rfl
  · refine ⟨_, _, Builder.build_of_fault hrun, hholds, hrepeats, fun w' hw' hle => ?_⟩
    obtain ⟨w₁, hrun', hw₁⟩ := hless w' hw' hle
    exact ⟨w₁, Builder.build_of_fault hrun', hw₁⟩
  · refine ⟨_, _, Builder.build_of_ok hrun, hholds, hrepeats, fun w' hw' hle => ?_⟩
    obtain ⟨w₁, hrun', hw₁⟩ := hless w' hw' hle
    exact ⟨w₁, Builder.build_of_ok hrun', hw₁⟩

theorem indifferent_compile (G : Ground) (stmt : Stmt) : G.Indifferent (G.compiler.compile stmt) := by
  have hcompile : ∀ (w : Workspace) {res : Except Abort Plan} {b : Builder},
      Builder.build G.compiler stmt (.start G.compiler.options w) = (res, b) → G.compiler.compile stmt w =
        (res.map fun p => { plan := some p, messages := b.messages }, b.workspace) := by
    intro w res b hrun
    rw [Compiler.compile, Compiler.run, map_eq_pure_bind, bind_apply, hrun]
    cases res <;> rfl
  intro w hw hrepeats
  obtain ⟨res, b, hrun, hholds, hrepeats₁, hless⟩ := exists_unmoved_build hw hrepeats stmt
  rw [hcompile w hrun]
  refine ⟨hholds, hrepeats₁, fun w' hw' hle => ?_⟩
  obtain ⟨w₁, hrun', hw₁⟩ := hless w' hw' hle
  exact ⟨w₁, hcompile w' hrun', hw₁⟩

open Indifferent in
/-- Neither does what an engine makes of it. -/
theorem indifferent_engine_compile (e : Engine) (he : e.compiler = G.compiler) (stmt : Stmt) :
    G.Indifferent (e.compile stmt) := by
  have hcompile : G.Indifferent (e.compiler.compile stmt) := he ▸ G.indifferent_compile stmt
  refine hcompile.bind fun compiled => ?_
  split
  · refine of_reads (if G.base.session.isNone then .error .absent else .ok compiled) fun w hw => ?_
    rw [← hw.session, bind_apply]
    change (if w.session.isNone then _ else _ : Resolving Compiled) w = _
    split <;> rfl
  · split
    · rename_i p _ _
      refine of_reads (e.optimized p compiled.messages G.base).1 fun w hw => ?_
      rw [Engine.optimized, Engine.optimized, hw.session, e.optimizer_eq hw.catalog.devices]
      split <;> rfl
    · exact of_reads (.ok compiled) fun _ _ => rfl

theorem Indifferent.mapM_eq {f : α → Resolving β} (h : ∀ val, G.Indifferent (f val))
    (hw : G.Holds w) (hrepeats : G.Repeats (G.known w)) (hw' : G.Holds w')
    (hnothing : G.known w' = .nothing) {g : α → Except Abort β} (hg : ∀ val, (f val w').1 = g val)
    (vals : List α) : (vals.mapM f w).1 = vals.mapM g := by
  induction vals generalizing w with
  | nil => rfl
  | cons val vals ih =>
    obtain ⟨hholds, hrepeats₁, hless⟩ := h val w hw hrepeats
    obtain ⟨w₁, hsame, -⟩ := hless w' hw' (hnothing ▸ Readings.nothing_le _)
    have hval := hg val
    rw [hsame] at hval
    rw [mapM_cons, mapM_cons, bind_apply, ← hval]
    rcases hrun : f val w with ⟨abort | first, w₂⟩
    · rfl
    · rw [hrun] at hholds hrepeats₁
      have hrest := ih hholds hrepeats₁
      dsimp only
      rw [bind_apply, ← hrest]
      rcases vals.mapM f w₂ with ⟨_ | _, _⟩ <;> rfl

end Ground

/-! ### Engines -/

/-- The workspace in another session. -/
def Workspace.inSession (w : Workspace) (session : Option Session) : Workspace :=
  { w with session }

namespace Engine

/-- An engine without a default device, and a workspace whose operators are all compiled, whose objects
stand under their names, and in which names tell the types in play apart. -/
structure Serves (e : Engine) (w : Workspace) : Prop where
  device : e.config.defaultDevice = ""
  compiled : ∀ entry ∈ w.catalog.operators, ∀ op ∈ entry.2.operators,
    (w.operatorState op).isDeferred = false
  keyed : w.catalog.IsKeyed
  identified : Identified w.catalog.typesInPlay

/-- Such a workspace with memories of what is found in its catalog. -/
structure Attends (e : Engine) (w : Workspace) : Prop extends e.Serves w where
  contexts : ∀ cache ∈ w.conversionCache,
    cache.Coherent w.catalog.typesInPlay w.catalog.conversions
  matched : ∀ cache ∈ w.operatorCache,
    cache.Recalls e.config.resolution w.catalog.typesInPlay w.catalog

variable {e : Engine} {w w' : Workspace}

/-- The ground on which an engine compiles. -/
def Serves.ground (h : e.Serves w) (hinactive : w.activeTransaction? = none) : Ground :=
  ⟨e.compiler, w, h.device, hinactive, h.compiled, h.keyed, h.identified⟩

theorem Serves.attend_attach (h : e.Serves w) : e.Attends (e.attach w) := by
  refine ⟨⟨h.device, h.compiled, h.keyed, h.identified⟩, ?_, ?_⟩
  · rintro _ ⟨⟩
    exact ConversionCache.coherent_empty _ _ _
  · rintro _ ⟨⟩
    exact ⟨Recent.indexed_empty _ _, fun _ hentry => by cases hentry⟩

theorem Attends.inSession (h : e.Attends w) (sess : Option Session) : e.Attends (w.inSession sess) :=
  ⟨⟨h.device, h.compiled, h.keyed, h.identified⟩, h.contexts, h.matched⟩

theorem Attends.start (h : e.Attends w') (hw : e.Serves w) (hinactive : w.activeTransaction? = none)
    (hsame : w'.withoutCaches = w.withoutCaches) :
    (hw.ground hinactive).Holds w' ∧ (hw.ground hinactive).known w' = .nothing := by
  have hcat : w'.catalog = w.catalog := (congrArg Workspace.catalog hsame :)
  have hknown : (hw.ground hinactive).known w' = .nothing := Ground.known_of_catalog_eq hcat
  refine ⟨⟨?_, (congrArg Workspace.operatorStates hsame :), (congrArg Workspace.session hsame :),
    fun cache hcache => ?_, fun cache hcache => ?_⟩, hknown⟩
  · rw [hknown, hcat]
    exact w.catalog.settles_nothing
  · have hcoh := h.contexts cache hcache
    rwa [hcat] at hcoh
  · have hrecalls := h.matched cache hcache
    rwa [hcat] at hrecalls

theorem recalls_of_settles {opts : ResolutionOptions} {types : List ScalarType} {base c : Catalog}
    {known : Readings} (hsettles : base.Settles known c) {cache : OperatorCache}
    (h : cache.Recalls opts types base) : cache.Recalls opts types c := by
  refine ⟨h.indexed, fun entry hentry => ?_⟩
  obtain ⟨call, overloads, choice, hplain, hchooses, hbest⟩ := h.entries entry hentry
  refine ⟨call, overloads, choice, hplain, ⟨hchooses.isScalar, hchooses.scalars, hchooses.key_eq, ?_, ?_⟩,
    hbest⟩
  · rw [hsettles.declaredOverloads_eq]
    exact hchooses.declared
  · rw [hsettles.conversions]
    exact hchooses.choice_eq

theorem Serves.attends_of_holds (h : e.Serves w) (hinactive : w.activeTransaction? = none)
    (hw' : (h.ground hinactive).Holds w') : e.Attends w' := by
  have htypes : w'.catalog.typesInPlay = w.catalog.typesInPlay := hw'.catalog.typesInPlay_eq
  have hconvs : w'.catalog.conversions = w.catalog.conversions := hw'.catalog.conversions
  refine ⟨⟨h.device, fun entry hentry op hop => ?_, hw'.catalog.isKeyed h.keyed, htypes ▸ h.identified⟩,
    fun cache hcache => ?_, fun cache hcache => ?_⟩
  · rw [hw'.operatorState]
    exact h.compiled entry (hw'.catalog.operators ▸ hentry) op hop
  · rw [htypes, hconvs]
    exact hw'.contexts cache hcache
  · rw [htypes]
    exact recalls_of_settles hw'.catalog (hw'.matched cache hcache)

/-- The workspace after statements in sessions, one after the other, whatever becomes of them. -/
def after (e : Engine) (history : List (Option Session × Stmt)) (w : Workspace) : Workspace :=
  history.foldl (fun w step => (e.compile step.2 (w.inSession step.1)).2) w

theorem Attends.after (h : e.Attends w) {history : List (Option Session × Stmt)}
    (hhistory : ∀ step ∈ history, (w.inSession step.1).activeTransaction? = none) :
    e.Attends (e.after history w) := by
  induction history generalizing w with
  | nil => exact h
  | cons step history ih =>
    obtain ⟨hstep, hhistory⟩ := forall_mem_cons.mp hhistory
    have hattends := h.inSession step.1
    obtain ⟨hholds, hnothing⟩ := hattends.start hattends.toServes hstep rfl
    refine ih (hattends.attends_of_holds hstep ?_) hhistory
    refine (Ground.indifferent_engine_compile e rfl step.2 _ hholds ?_).1
    exact hnothing ▸ Ground.repeats_nothing _

theorem Serves.holds_after (h : e.Serves w) (hinactive : w.activeTransaction? = none)
    (hw' : (h.ground hinactive).Holds w')
    (hrepeats : (h.ground hinactive).Repeats ((h.ground hinactive).known w')) (before : List Stmt) :
    (h.ground hinactive).Holds (e.after (before.map (w.session, ·)) w') ∧ (h.ground hinactive).Repeats
        ((h.ground hinactive).known (e.after (before.map (w.session, ·)) w')) := by
  induction before generalizing w' with
  | nil => exact ⟨hw', hrepeats⟩
  | cons stmt before ih =>
    have hsess : w'.inSession w.session = w' := by
      rw [← show w'.session = w.session from hw'.session]
      rfl
    obtain ⟨hholds, hrepeats', -⟩ :=
      Ground.indifferent_engine_compile e rfl stmt w' hw' hrepeats
    have hstep : e.after ((stmt :: before).map (w.session, ·)) w' =
        e.after (before.map (w.session, ·)) (e.compile stmt w').2 := by
      rw [map_cons, Engine.after, foldl_cons, hsess]
      rfl
    rw [hstep]
    exact ih hholds hrepeats'

/-- The statements of a batch compiled one after the other in some order, each result with its place in
the batch. -/
def compileInOrder (e : Engine) (statements : List Stmt) (order : List (Fin statements.length)) :
    Resolving (List (Fin statements.length × Compiled)) :=
  order.mapM fun place => Prod.mk place <$> e.compile (statements.get place)

/-- What an engine makes of a statement does not depend on history. Let statements be compiled in any
sessions without active transactions, and from some time on in one of them. Whatever became of these, a
statement in that session has the plan and the messages that it has with an engine that was made anew at
that time. So each statement of a batch, compiled in any order, has those that it has alone. -/
theorem compile_eq_compile_attach (hw : e.Serves w) {history : List (Option Session × Stmt)}
    (hhistory : ∀ step ∈ history, (w.inSession step.1).activeTransaction? = none)
    {session : Option Session} (hsession : (w.inSession session).activeTransaction? = none)
    (before : List Stmt) :
    let then_ := (e.after history (e.attach w)).inSession session
    let now := e.after (before.map (session, ·)) then_
    (∀ statement, (e.compile statement now).1 = (e.compile statement (e.attach then_)).1) ∧
      (∀ statements, (e.compileBatch false statements now).1 =
        statements.mapM fun statement => (e.compile statement (e.attach then_)).1) ∧
      ∀ statements order, (e.compileInOrder statements order now).1 = order.mapM fun place =>
        Prod.mk place <$> (e.compile (statements.get place) (e.attach then_)).1 := by
  intro then_ now
  have hthen : e.Attends then_ := (hw.attend_attach.after hhistory).inSession session
  have hinactive : then_.activeTransaction? = none := hsession
  obtain ⟨hholds, hnothing⟩ := hthen.start hthen.toServes hinactive rfl
  obtain ⟨hnow, hrepeats⟩ := hthen.holds_after hinactive hholds
    (hnothing ▸ Ground.repeats_nothing _) before
  obtain ⟨hfresh, hnone⟩ := hthen.toServes.attend_attach.start hthen.toServes hinactive rfl
  have hcompile := Ground.indifferent_engine_compile (G := hthen.ground hinactive) e rfl
  refine ⟨fun statement => ?_, fun statements => ?_, fun statements order => ?_⟩
  · obtain ⟨w₁, hrun, -⟩ := (hcompile statement now hnow hrepeats).2.2 _ hfresh
      (hnone ▸ Readings.nothing_le _)
    rw [hrun]
  · exact Ground.Indifferent.mapM_eq hcompile hnow hrepeats hfresh hnone (fun _ => rfl) statements
  · refine Ground.Indifferent.mapM_eq (fun place => (hcompile (statements.get place)).map) hnow hrepeats
      hfresh hnone (fun place => ?_) order
    rw [map_eq_pure_bind, bind_apply]
    rcases e.compile (statements.get place) (e.attach then_) with ⟨_ | _, _⟩ <;> rfl

/-- A workspace with a table `T`, a view `V` of something, and a view `W` of that view. -/
def layered (viewed : String) : Workspace where
  catalog :=
    { objects :=
        [("T", .tableVar (.base "T" (some []) "" [])),
          ("V", .tableVar (.derived "V" (some []) (.identifier .none viewed))),
          ("W", .tableVar (.derived "W" (some []) (.identifier .none "V")))] }
  session := some {}

/-- The statement that reads what a name designates. -/
def reading (name : String) : Stmt :=
  .expression .none (.identifier .none name)

/-- A session in which `T` may be called `X`. -/
def aliased : Option Session :=
  some { objects := [("X", "T")] }

theorem serves_layered (viewed : String) : Serves {} (layered viewed) where
  device := rfl
  compiled _ hentry := by cases hentry
  keyed := by simp [Catalog.IsKeyed, layered, CatalogObject.name, TableVar.base, TableVar.derived]
  identified := by
    have htypes : (layered viewed).catalog.typesInPlay = [.nil, .any] := rfl
    rw [htypes]
    simp [Identified, ScalarType.nil, ScalarType.any]

/-- After a statement in another session, one that fails and one that finds out what both views read, a
view is read as with an engine that has just been made. -/
theorem compile_eq_compile_attach_layered :
    let e : Engine := {}
    let w := layered "T"
    let then_ := (e.after [(aliased, reading "X")] (e.attach w)).inSession (some {})
    let now := e.after ([reading "X", reading "W"].map (some {}, ·)) then_
    e.Serves w ∧ (w.inSession aliased).activeTransaction? = none ∧
      (e.compile (reading "V") now).1 = (e.compile (reading "V") (e.attach then_)).1 ∧
      (e.compile (reading "V") now).1.toOption.map (·.messages.length) = some 0 ∧
      then_.catalog.tableVars.map (·.isStale) = [false, true, true] ∧
      now.catalog.tableVars.map (·.isStale) = [false, false, false] := by
  intro e w then_ now
  refine ⟨serves_layered "T", rfl, ?_, by decide +kernel, by decide +kernel, by decide +kernel⟩
  have hhistory : ∀ step ∈ [(aliased, reading "X")],
      (w.inSession step.1).activeTransaction? = none := by
    intro step hstep
    obtain rfl := List.mem_singleton.mp hstep
    rfl
  exact (compile_eq_compile_attach (serves_layered "T") hhistory rfl [reading "X", reading "W"]).1
    (reading "V")

/-- A workspace with two types `T`: one that is declared, whose values are integers, and one that an
operator `old` still gives. -/
def homonymous : Workspace :=
  let integer : ScalarType := { serial := 2, name := "Integer" }
  let old : ScalarType := { serial := 3, name := "T" }
  let new : ScalarType := { serial := 4, name := "T", parents := [integer] }
  let declared (serial : Nat) (name : String) (signature : Signature) (returnType : ScalarType) :
      String × Overloads :=
    (name, { name, operators := [{ serial, name, signature, returnType := some (.scalar returnType) }] })
  { catalog :=
      { objects := [("Integer", .scalarType integer), ("T", .scalarType new)]
        operators := [declared 1 "old" [] old, declared 2 "new" [] new,
          declared 3 "g" [{ type := .scalar integer }] integer] }
    session := some {} }

/-- The statement that passes to `g` what an operator gives. -/
def passing (name : String) : Stmt :=
  .expression .none (.call .none "g" [.call .none name []])

/-- Where two types have one name, a call that was remembered for one of them is taken for the other. And
where a view was read in a session with an alias that it needs, other sessions read it as well. -/
theorem exists_compile_ne_compile_attach :
    (∃ (e : Engine) (w : Workspace) (before : List Stmt) (statement : Stmt),
      e.config.defaultDevice = "" ∧ w.activeTransaction? = none ∧ w.catalog.IsKeyed ∧
      (∀ entry ∈ w.catalog.operators, ∀ op ∈ entry.2.operators,
        (w.operatorState op).isDeferred = false) ∧
      (e.compile statement (e.after (before.map (w.session, ·)) (e.attach w))).1 ≠
        (e.compile statement (e.attach w)).1) ∧
    ∃ (e : Engine) (w : Workspace) (history : List (Option Session × Stmt)) (statement : Stmt),
      e.Serves w ∧ w.activeTransaction? = none ∧
      (∀ step ∈ history, (w.inSession step.1).activeTransaction? = none) ∧
      (e.compile statement ((e.after history (e.attach w)).inSession w.session)).1 ≠
        (e.compile statement (e.attach w)).1 := by
  have herrors : ∀ {first second : Except Abort Compiled},
      first.toOption.map (·.messages.hasErrors) ≠ second.toOption.map (·.messages.hasErrors) →
        first ≠ second := by
    rintro _ _ hne rfl
    exact hne rfl
  refine ⟨⟨{}, homonymous, [passing "new"], passing "old", rfl, rfl, ?_, ?_, herrors ?_⟩,
    {}, layered "X", [(aliased, reading "V")], reading "V", serves_layered "X", rfl, ?_, herrors ?_⟩
  · simp [Catalog.IsKeyed, homonymous, CatalogObject.name]
  · exact fun _ _ _ _ => rfl
  · decide +kernel
  · intro step hstep
    obtain rfl := List.mem_singleton.mp hstep
    rfl
  · decide +kernel

end Engine

end Relational
