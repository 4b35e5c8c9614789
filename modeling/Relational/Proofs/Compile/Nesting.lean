import Relational.Proofs.Compile.Upkeep

/-!
# The depth of nesting

Operators whose bodies were put off and derived table variables may refer to each other and to themselves.
Compiling one of them again may ask for the others, but never for one that is being compiled already: that
request is refused. Resolution brings up no further objects, so that there are at most as many inside one
another as there are names of such objects.

At that depth nothing but refusals is asked for. Whatever an environment would do with other requests at
that depth, the compilation does not depend on it, and it does not depend on a greater depth either.
-/

namespace Relational

open Compiling List

/-! ### Objects that may come up -/

/-- The operators and table variables that may be compiled again have their names among some keys; the
operators are known by their serial numbers. -/
def keyHoldings (keys : List String) (deferred : Nat → Prop) : Holdings where
  type _ := True
  operator op := deferred op.serial → "operator " ++ op.name ∈ keys
  tableVar tv := tv.isDerived → "table " ++ tv.name ∈ keys
  scalar _ := trivial
  parameter _ _ _ _ := trivial
  copyOf _ _ _ hderived := by cases hderived
  setReferences _ _ h := h

/-- A state of a compilation in which no objects with other keys can come up, while objects with some of
the keys are being compiled again. -/
structure Builder.Within (keys : List String) (deferred : Nat → Prop) (busy : List String)
    (b : Builder) : Prop where
  holds : b.workspace.Holds (keyHoldings keys deferred)
  operators : ∀ entry ∈ b.scope.operators, (keyHoldings keys deferred).overloads entry.2
  deferred : ∀ op, (b.workspace.operatorState op).isDeferred → deferred op.serial
  busy : b.recompiling = busy

/-- Environments that do the same about the objects with some keys. -/
structure Environment.AgreesWith (keys : List String) (deferred : Nat → Prop) (busy : List String)
    (e e' : Environment) : Prop where
  options : e.options = e'.options
  recompile : ∀ op, "operator " ++ op.name ∈ keys →
    Agree (Builder.Within keys deferred busy) (e.recompile op) (e'.recompile op) fun _ => True
  infer : ∀ tv, "table " ++ tv.name ∈ keys →
    Agree (Builder.Within keys deferred busy) (e.infer tv) (e'.infer tv) fun _ => True

variable {keys : List String} {deferred : Nat → Prop} {busy : List String} {b : Builder} {op : Operator}
  {tv : TableVar} {key : String} (name : String)

namespace Builder.Within

variable {b' : Builder}

section

variable (h : b.Within keys deferred busy)

include h

/-- Only the workspace, the operators of the compilation and what is being compiled again matter. -/
theorem of_eq (hws : b'.workspace = b.workspace) (hscope : b'.scope = b.scope)
    (hbusy : b'.recompiling = b.recompiling) : b'.Within keys deferred busy :=
  ⟨hws ▸ h.holds, hscope ▸ h.operators, hws ▸ h.deferred, hbusy.trans h.busy⟩

theorem isolated (opts : CompilerOptions) (stack : Stack) :
    Builder.Within keys deferred busy { b.isolated opts with stack } :=
  ⟨h.holds, by simp [Builder.isolated, Builder.start], h.deferred, h.busy⟩

theorem after (h' : b'.Within keys deferred busy) :
    Builder.Within keys deferred busy { b with workspace := b'.workspace, recompiling := b'.recompiling } :=
  ⟨h'.holds, h.operators, h'.deferred, h'.busy⟩

end

theorem isRecording : IsRecording (Same (Builder.Within keys deferred busy)) :=
  Same.isRecording fun _ _ hb => hb.of_eq rfl rfl rfl

end Builder.Within

theorem Workspace.operatorState_bind (w : Workspace) (op other : Operator) (body : OperatorBody) :
    (w.bind op body).operatorState other =
      if other.serial = op.serial then { isDeferred := false, body := some body }
      else w.operatorState other := by
  unfold bind setOperatorState operatorState
  rw [lookup_cons]
  split
  · rename_i hserial
    rw [if_pos (by simpa using hserial)]
    rfl
  · rename_i hserial
    have hne : other.serial ≠ op.serial := by simpa using hserial
    rw [lookup_filter_ne, if_neg hne, if_neg hne]

theorem Workspace.isDeferred_of_bind {w : Workspace} {other : Operator} {body : OperatorBody}
    (h : ((w.bind op body).operatorState other).isDeferred) : (w.operatorState other).isDeferred := by
  rw [operatorState_bind] at h
  split at h
  · cases h
  · exact h

/-! ### Statements in environments that agree -/

section Congruence

variable {e e' : Environment} (h : e.AgreesWith keys deferred busy e')

include h

namespace Environment.AgreesWith

theorem hosts : Hosts (keyHoldings keys deferred) (Builder.Within keys deferred busy) e e' where
  options := h.options
  holds _ hb := hb.holds
  operators _ hb := hb.operators
  symbols _ _ _ _ _ _ := trivial
  workspace b w hb hholds hstates :=
    ⟨hholds, hb.operators, fun op hop => hb.deferred op (by
      rwa [Workspace.operatorState, hstates] at hop), hb.busy⟩
  recompile op hop b hb hdeferred := h.recompile op (hop (hb.deferred op hdeferred)) b b ⟨rfl, hb⟩
  infer tv htv hderived := h.infer tv (htv hderived)

theorem upkeep : Upkeep (keyHoldings keys deferred) (Builder.Within keys deferred busy) e e' :=
  h.hosts.upkeep fun hb hws hscope hbusy _ => hb.of_eq hws hscope hbusy

/-- All steps of compiling statements agree in environments that do. -/
theorem steps : IsStmtStepwise .all e e' fun _ [_] act act' =>
    Agree (Builder.Within keys deferred busy) act act' Vocabulary.all.Expresses :=
  h.upkeep.steps (Holdings.describes_all fun _ => trivial)

theorem compileAlone (expr : Expr) :
    Agree (Builder.Within keys deferred busy) (Relational.compileAlone e expr)
      (Relational.compileAlone e' expr) fun _ => True :=
  (h.upkeep.compileAlone (Holdings.describes_all fun _ => trivial) expr).imp fun _ _ => trivial

end Environment.AgreesWith

end Congruence

/-! ### Compiling an object again -/

section Requests

variable {e e' : Environment} (c : Compiler)

/-- While an object is compiled again it is among those that are; nothing is asked of one that is among
them already. -/
theorem agree_guardRecompile {α : Type} {act act' : Compiling α} {Q : α → Prop}
    (h : key ∉ busy → Agree (Builder.Within keys deferred (key :: busy)) act act' Q) :
    Agree (Builder.Within keys deferred busy) (guardRecompile key name act)
      (guardRecompile key name act') Q :=
  Same.guardRecompile name (fun _ hb hkey => h (hb.busy ▸ hkey) _ _
      ⟨rfl, hb.holds, hb.operators, hb.deferred, congrArg (key :: ·) hb.busy⟩)
    fun _ hb => ⟨hb.holds, hb.operators, hb.deferred, by rw [hb.busy, List.erase_cons_head]⟩

theorem agree_recompileOperator (h : "operator " ++ op.name ∉ busy →
      e.AgreesWith keys deferred (("operator " ++ op.name) :: busy) e') :
    Agree (Builder.Within keys deferred busy) (recompileOperator c e op) (recompileOperator c e' op)
      fun _ => True := by
  refine Parallel.recompileOperator Builder.Within.isRecording
    (fun _ _ => agree_guardRecompile op.name) (fun hfree decl => ?_) ?_
  · have hsteps := (h hfree).steps
    have hbody := hsteps.safely (hsteps.compileStmt decl.body) decl.body.position?
    exact (Same.isolate c.options _ hbody (fun _ hb => hb.isolated _ _)
      fun _ _ hb hb' => hb.after hb').imp fun _ _ => trivial
  · rintro _ b body ⟨rfl, hb⟩
    exact ⟨rfl, ⟨hb.holds.catalog, hb.holds.contexts, hb.holds.matched⟩, hb.operators,
      fun other hother => hb.deferred other (Workspace.isDeferred_of_bind hother), hb.busy⟩

theorem agree_inferReferences (h : "table " ++ tv.name ∉ busy →
      e.AgreesWith keys deferred (("table " ++ tv.name) :: busy) e') :
    Agree (Builder.Within keys deferred busy) (inferReferences c e tv) (inferReferences c e' tv)
      fun _ => True := by
  refine .inferReferences (fun _ _ => agree_guardRecompile tv.name) (fun hfree => ?_) ?_
  · exact (Same.isolate c.options [] ((h hfree).compileAlone tv.definition)
      (fun _ hb => hb.isolated _ _) fun _ _ hb hb' => hb.after hb').imp fun _ _ => trivial
  · rintro _ (rfl | rfl) _ b refs ⟨rfl, hb⟩
    all_goals exact ⟨rfl, ⟨hb.holds.catalog.setReferences tv.name refs, hb.holds.contexts,
      hb.holds.matched⟩, hb.operators, hb.deferred, hb.busy⟩

theorem guardRecompile_of_mem {α : Type} (act : Compiling α) (hbusy : key ∈ b.recompiling) :
    guardRecompile key name act b = (.error (.ofCause (.circularRecompile name)), b) := by
  unfold guardRecompile
  rw [bind_apply]
  change (if b.recompiling.contains key then _ else _ : Compiling α) b = _
  rw [if_pos (by simpa using hbusy)]
  rfl

theorem recompileOperator_refused {c : Compiler} (hstore : c.store.isSome) (hparse : c.parse.isSome)
    (hbusy : "operator " ++ op.name ∈ b.recompiling) :
    recompileOperator c e op b = (.error (.ofCause (.circularRecompile op.name)), b) := by
  obtain ⟨store, hstore⟩ := Option.isSome_iff_exists.mp hstore
  obtain ⟨parse, hparse⟩ := Option.isSome_iff_exists.mp hparse
  unfold recompileOperator
  rw [hstore, hparse]
  exact guardRecompile_of_mem _ _ hbusy

theorem inferReferences_refused {c : Compiler} (hdef : tv.definition ≠ .missing)
    (hbusy : "table " ++ tv.name ∈ b.recompiling) :
    inferReferences c e tv b = (.error (.ofCause (.circularRecompile tv.name)), b) := by
  unfold inferReferences
  cases hcase : tv.definition
  case missing => exact absurd hcase hdef
  all_goals exact guardRecompile_of_mem _ _ hbusy

theorem recompileOperator_of_mem (hbusy : "operator " ++ op.name ∈ b.recompiling) :
    recompileOperator c e op b = recompileOperator c e' op b := by
  unfold recompileOperator
  rcases c.store with _ | store
  · rfl
  · rcases c.parse with _ | parse
    · rfl
    · exact (guardRecompile_of_mem _ _ hbusy).trans (guardRecompile_of_mem _ _ hbusy).symm

theorem inferReferences_of_mem (hbusy : "table " ++ tv.name ∈ b.recompiling) :
    inferReferences c e tv b = inferReferences c e' tv b := by
  unfold inferReferences
  cases tv.definition
  case missing => rfl
  all_goals exact (guardRecompile_of_mem _ _ hbusy).trans (guardRecompile_of_mem _ _ hbusy).symm

end Requests

/-! ### Environments over another one -/

theorem length_filter_cons_lt (hkey : key ∈ keys) (hfree : key ∉ busy) :
    (keys.filter (· ∉ key :: busy)).length < (keys.filter (· ∉ busy)).length := by
  have hsplit : keys.filter (· ∉ key :: busy) = (keys.filter (· ∉ busy)).filter (· ≠ key) := by
    rw [filter_filter]
    refine filter_congr fun other _ => ?_
    simp
  rw [hsplit, length_filter_lt_length_iff_exists]
  exact ⟨key, mem_filter.mpr ⟨hkey, by simpa using hfree⟩, by simp⟩

namespace Compiler

/-- The environment of compilations in which objects are compiled again inside one another to a depth;
requests at that depth are left to another environment. -/
def nested (c : Compiler) (bottom : Environment) : (depth : Nat) → Environment
  | 0 => bottom
  | depth + 1 =>
    { options := c.options
      recompile := recompileOperator c (c.nested bottom depth)
      infer := inferReferences c (c.nested bottom depth) }

theorem environment_add (c : Compiler) (n depth : Nat) :
    c.environment (n + depth) = c.nested (c.environment n) depth := by
  induction depth with
  | zero => rfl
  | succ depth ih =>
    rw [nested, ← ih]
    rfl

/-- An environment that does what it should about objects that are being compiled already. Nothing is said
of what it does about others. -/
structure Refuses (c : Compiler) (e : Environment) : Prop where
  options : e.options = c.options
  recompile : ∀ op (b : Builder), "operator " ++ op.name ∈ b.recompiling →
    e.recompile op b = recompileOperator c e op b
  infer : ∀ tv (b : Builder), "table " ++ tv.name ∈ b.recompiling →
    e.infer tv b = inferReferences c e tv b

variable {c : Compiler} {bottom bottom' : Environment} {depth' depth : Nat}

theorem Refuses.nested (h : c.Refuses bottom) (depth : Nat) : c.Refuses (c.nested bottom depth) := by
  cases depth with
  | zero => exact h
  | succ depth =>
    exact ⟨rfl, fun _ _ hbusy => recompileOperator_of_mem c hbusy, fun _ _ hbusy =>
      inferReferences_of_mem c hbusy⟩

/-- Environments agree if those they are nested over agree about what is asked for inside objects that
are not being compiled yet. -/
theorem agreesWith_of_inner (h : c.Refuses bottom) (h' : c.Refuses bottom')
    (hinner : ∀ key ∈ keys, key ∉ busy → ∃ inner inner', depth = inner + 1 ∧ depth' = inner' + 1 ∧
      (c.nested bottom inner).AgreesWith keys deferred (key :: busy) (c.nested bottom' inner')) :
    (c.nested bottom depth).AgreesWith keys deferred busy (c.nested bottom' depth') := by
  have hleft := h.nested depth
  have hright := h'.nested depth'
  refine ⟨hleft.options.trans hright.options.symm, fun op hop => ?_, fun tv htv => ?_⟩
  · by_cases hkey : "operator " ++ op.name ∈ busy
    · rintro _ b ⟨rfl, hb⟩
      have hbusy : "operator " ++ op.name ∈ b.recompiling := hb.busy ▸ hkey
      rw [hleft.recompile op b hbusy, hright.recompile op b hbusy]
      exact agree_recompileOperator c (absurd hkey) b b ⟨rfl, hb⟩
    · obtain ⟨inner, inner', rfl, rfl, hagrees⟩ := hinner _ hop hkey
      exact agree_recompileOperator c fun _ => hagrees
  · by_cases hkey : "table " ++ tv.name ∈ busy
    · rintro _ b ⟨rfl, hb⟩
      have hbusy : "table " ++ tv.name ∈ b.recompiling := hb.busy ▸ hkey
      rw [hleft.infer tv b hbusy, hright.infer tv b hbusy]
      exact agree_inferReferences c (absurd hkey) b b ⟨rfl, hb⟩
    · obtain ⟨inner, inner', rfl, rfl, hagrees⟩ := hinner _ htv hkey
      exact agree_inferReferences c fun _ => hagrees

/-- Deep enough, environments agree whatever they are nested over: with each object that is compiled again
there are fewer keys of objects that are not. -/
theorem agrees_nested (h : c.Refuses bottom) (h' : c.Refuses bottom')
    (hdepth : (keys.filter (· ∉ busy)).length ≤ depth) (hdepth' : (keys.filter (· ∉ busy)).length ≤ depth') :
    (c.nested bottom depth).AgreesWith keys deferred busy (c.nested bottom' depth') := by
  induction depth generalizing depth' busy with
  | zero =>
    refine agreesWith_of_inner h h' fun key hkey hfree => ?_
    have hpos := length_filter_cons_lt hkey hfree
    omega
  | succ depth ih =>
    refine agreesWith_of_inner h h' fun key hkey hfree => ?_
    have hfewer := length_filter_cons_lt hkey hfree
    refine ⟨depth, depth' - 1, rfl, by omega, ih (by omega) (by omega)⟩

end Compiler

/-! ### The depth for a program -/

namespace Builder

/-- The keys of the operators whose bodies still have to be compiled and of the derived table
variables. -/
def nestingKeys (b : Builder) : List String :=
  b.deferredNames.map ("operator " ++ ·) ++ b.derivedNames.map ("table " ++ ·)

theorem mem_nestingKeys_of_deferred (hop : op ∈ b.operators)
    (hdeferred : (b.workspace.operatorState op).isDeferred) : "operator " ++ op.name ∈ b.nestingKeys := by
  refine mem_append_left _ (mem_map.mpr ⟨op.name, ?_, rfl⟩)
  exact mem_eraseDups.mpr (mem_map.mpr ⟨op, mem_filter.mpr ⟨hop, hdeferred⟩, rfl⟩)

theorem mem_nestingKeys_of_derived (htv : tv ∈ b.workspace.catalog.tableVars) (hderived : tv.isDerived) :
    "table " ++ tv.name ∈ b.nestingKeys := by
  refine mem_append_right _ (mem_map.mpr ⟨tv.name, ?_, rfl⟩)
  exact mem_eraseDups.mpr (mem_map.mpr ⟨tv, mem_filter.mpr ⟨htv, hderived⟩, rfl⟩)

theorem within_nestingKeys (b : Builder) : b.Within b.nestingKeys
    (fun serial => ((b.workspace.operatorStates.lookup serial).getD {}).isDeferred) b.recompiling := by
  have hentry : ∀ entry ∈ b.workspace.catalog.operators ++ b.scope.operators,
      (keyHoldings b.nestingKeys fun serial =>
        ((b.workspace.operatorStates.lookup serial).getD {}).isDeferred).overloads entry.2 := by
    intro entry hentry op hop hdeferred
    refine mem_nestingKeys_of_deferred (mem_append_left _ ?_) hdeferred
    exact mem_flatMap.mpr ⟨entry, hentry, hop⟩
  refine ⟨⟨⟨?_, ?_, fun entry hmem => hentry entry (mem_append_left _ hmem)⟩, ?_, ?_⟩,
    fun entry hmem => hentry entry (mem_append_right _ hmem), fun op hdeferred => hdeferred, rfl⟩
  · rintro ⟨name, type | tv⟩ hmem
    · trivial
    · refine mem_nestingKeys_of_derived (mem_append_left _ ?_)
      exact mem_filterMap.mpr ⟨_, hmem, rfl⟩
  · intro dev hdev entry hmem
    refine mem_nestingKeys_of_derived (mem_append_right _ ?_)
    exact mem_flatMap.mpr ⟨dev, hdev, mem_map.mpr ⟨entry, hmem, rfl⟩⟩
  · exact fun _ _ _ _ => trivial
  · intro cache hcache entry hmem
    refine ⟨mem_nestingKeys_of_deferred (mem_append_right _ ?_), fun _ _ _ _ => trivial, False.elim⟩
    exact mem_flatMap.mpr ⟨cache, Option.mem_toList.mpr hcache, mem_map.mpr ⟨entry, hmem, rfl⟩⟩

theorem buildIn_congr {e e' : Environment} (h : e.AgreesWith keys deferred busy e')
    (hb : b.Within keys deferred busy) (stmt : Stmt) : buildIn e stmt b = buildIn e' stmt b := by
  have hbody := h.steps.inScope (Vocabulary.expresses_nil (α := Symbol))
    (h.steps.safely (h.steps.compileStmt stmt) stmt.position?)
  unfold buildIn
  rw [(hbody b b ⟨rfl, hb⟩).eq]

end Builder

namespace Compiler

variable {c : Compiler} {bottom : Environment}

theorem refuses_environment (c : Compiler) : c.Refuses (c.environment 1) :=
  ⟨rfl, fun _ _ hbusy => recompileOperator_of_mem c hbusy, fun _ _ hbusy =>
    inferReferences_of_mem c hbusy⟩

/-- Deep enough for the names of objects that may be compiled again, an environment agrees with the one
that programs are compiled in. -/
theorem agrees_environment (hbottom : c.Refuses bottom) {depth : Nat}
    (hdepth : b.deferredNames.length + b.derivedNames.length ≤ depth) :
    (c.nested bottom depth).AgreesWith b.nestingKeys
      (fun serial => ((b.workspace.operatorStates.lookup serial).getD {}).isDeferred) b.recompiling
      (c.environment (nestingBound b)) := by
  have hkeys : (b.nestingKeys.filter (· ∉ b.recompiling)).length ≤
      b.deferredNames.length + b.derivedNames.length := by
    refine (length_filter_le _ _).trans (Nat.le_of_eq ?_)
    rw [Builder.nestingKeys, length_append, length_map, length_map]
  rw [nestingBound, Nat.add_comm _ 1, environment_add]
  exact agrees_nested hbottom c.refuses_environment (hkeys.trans hdepth) hkeys

/-- Objects are compiled again inside one another to a depth of at most the number of names of operators
whose bodies still have to be compiled and of derived table variables. At that depth nothing is asked of
the environment below but objects that are being compiled already, so that programs are compiled alike
whatever it does about others. A request for an object that is being compiled already fails, and nothing
is changed. -/
theorem build_eq_nested (hbottom : c.Refuses bottom) {b : Builder} {depth : Nat}
    (hdepth : b.deferredNames.length + b.derivedNames.length ≤ depth) :
    (∀ statement, Builder.buildIn (c.nested bottom depth) statement b = Builder.build c statement b) ∧
    (∀ expr, compileAlone (c.nested bottom depth) expr b = Builder.buildExpression c expr b) ∧
    (∀ (op : Operator) (b' : Builder), c.store.isSome → c.parse.isSome →
      "operator " ++ op.name ∈ b'.recompiling → (c.nested bottom depth).recompile op b' =
        (.error (.ofCause (.circularRecompile op.name)), b')) ∧
    ∀ (tv : TableVar) (b' : Builder), tv.definition ≠ .missing →
      "table " ++ tv.name ∈ b'.recompiling → (c.nested bottom depth).infer tv b' =
        (.error (.ofCause (.circularRecompile tv.name)), b') := by
  have hagrees := agrees_environment hbottom hdepth
  refine ⟨Builder.buildIn_congr hagrees b.within_nestingKeys,
    fun expr => (hagrees.compileAlone expr b b ⟨rfl, b.within_nestingKeys⟩).eq.symm, ?_, ?_⟩
  · intro op b' hstore hparse hbusy
    rw [(hbottom.nested depth).recompile op b' hbusy]
    exact recompileOperator_refused hstore hparse hbusy
  · intro tv b' hdefinition hbusy
    rw [(hbottom.nested depth).infer tv b' hbusy]
    exact inferReferences_refused hdefinition hbusy

/-! ### Operators that call each other -/

/-- An environment that does nothing but refuse objects that are being compiled already. -/
def refusing (c : Compiler) : Environment where
  options := c.options
  recompile op b :=
    if "operator " ++ op.name ∈ b.recompiling then recompileOperator c (c.environment 0) op b
    else (.error (.fault "nested too deep"), b)
  infer tv b :=
    if "table " ++ tv.name ∈ b.recompiling then inferReferences c (c.environment 0) tv b
    else (.error (.fault "nested too deep"), b)

theorem refuses_refusing (c : Compiler) : c.Refuses c.refusing := by
  refine ⟨rfl, fun op b hbusy => ?_, fun tv b hbusy => ?_⟩
  · exact (if_pos hbusy).trans (recompileOperator_of_mem c hbusy)
  · exact (if_pos hbusy).trans (inferReferences_of_mem c hbusy)

/-- Declarations of two operators that call each other; the text of each is the name of the other. -/
def circular : Compiler where
  store := some (.memory { entries := [("f", "g", []), ("g", "f", [])] })
  parse := some fun callee => .ok
    { position := .none, name := callee, parameters := [], returnType := .missing
      body := .expression .none (.call .none callee []) }

/-- A workspace in which neither of two operators has been compiled. -/
def circularWorkspace : Workspace :=
  let declared (serial : Nat) (name : String) : String × Overloads :=
    (name, { name, operators := [{ serial, name, signature := [], returnType := none }] })
  { catalog := { operators := [declared 1 "f", declared 2 "g"] }
    session := some {}
    operatorStates := [(1, { isDeferred := true }), (2, { isDeferred := true })] }

/-- A call of the first of two operators that call each other: its name is refused inside both, and a depth
of one is not enough to find that out. -/
theorem build_eq_nested_circular :
    let b := Builder.start {} circularWorkspace
    let statement : Stmt := .expression .none (.call .none "f" [])
    circular.Refuses circular.refusing ∧ b.deferredNames.length + b.derivedNames.length ≤ 2 ∧
      Builder.buildIn (circular.nested circular.refusing 2) statement b =
        Builder.build circular statement b ∧
      (Builder.build circular statement b).2.messages.map (·.text) =
        ["error 1502: circular recompilation of \"f\""] ∧
      (Builder.buildIn (circular.nested circular.refusing 1) statement b).2.messages.map (·.text) =
        ["error 1901: internal compiler error: nested too deep"] := by
  intro b statement
  have hdepth : b.deferredNames.length + b.derivedNames.length ≤ 2 := by decide +kernel
  refine ⟨circular.refuses_refusing, hdepth, ?_, by decide +kernel, by decide +kernel⟩
  exact (build_eq_nested circular.refuses_refusing hdepth).1 statement

end Compiler

end Relational
