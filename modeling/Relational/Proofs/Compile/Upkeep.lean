import Relational.Compile.Program
import Relational.Proofs.Compile.Hosts

/-!
# What a compilation keeps up

A property of states that is about what is looked up only is kept by all steps of a compilation once it is
kept by looking up names, conversions and overloads. What is said of all that a compilation can look up is
such a property, and it is kept by compiling objects again at any depth.
-/

namespace Relational

open Compiling List

variable {H : Holdings} {V : Vocabulary} {I : Builder → Prop} {e e' : Environment} {syms : List Symbol}
  {op : Operator} {b : Builder}

/-- What is said of the types of symbols. -/
def Holdings.types (H : Holdings) (symbols : List Symbol) : Prop :=
  ∀ symbol ∈ symbols, ∀ type ∈ symbol.type, H.type type

theorem Holdings.types_nil (H : Holdings) : H.types [] := by
  simp [types]

theorem Holdings.types_pushAll {s : Stack} (hsyms : H.types syms) (h : H.types s.symbols) :
    H.types (s.pushAll syms).symbols := by
  intro sym hsym
  rw [(Stack.pushAll_eq _ _).1, mem_append, mem_reverse] at hsym
  exact hsym.elim (hsyms sym) (h sym)

/-- A vocabulary that says the same of plans everywhere, and no more of what is looked up than is said of
holdings. -/
structure Holdings.Describes (H : Holdings) (V : Vocabulary) : Prop where
  uniform : V.IsUniform
  scalar : ∀ scalar, V.scalar scalar
  type : ∀ {type}, V.type type → H.type type
  symbol : ∀ {symbol}, V.symbol symbol ↔ ∀ type ∈ symbol.type, H.type type
  place : ∀ location {symbol}, V.symbol symbol → V.place location symbol
  object : ∀ {object}, H.object object → V.object object
  between : ∀ {source target context}, H.type context.target → V.between source target context
  found : ∀ {found}, H.Fits found → V.Expresses found
  reference : ∀ {p name index}, p.construct = .stackReference name index → V.reference p

/-- Nothing is said of what is looked up. -/
def Holdings.all : Holdings where
  type _ := True
  operator _ := True
  tableVar _ := True
  scalar _ := trivial
  parameter _ _ _ _ := trivial
  copyOf _ _ _ := trivial
  setReferences _ _ _ := trivial

theorem Holdings.designated_all (found : ResolvedName) : Holdings.all.designated found := by
  cases found with
  | symbol location symbol shadowed => exact fun _ _ => trivial
  | object object => cases object <;> trivial

theorem Holdings.describes_all (h : ∀ type, H.type type) : H.Describes Vocabulary.all where
  uniform := Vocabulary.isUniform_uniform _
  scalar _ := trivial
  type _ := h _
  symbol := ⟨fun _ type _ => h type, fun _ => trivial⟩
  place _ _ _ := trivial
  object _ := trivial
  between _ := trivial
  found _ := Vocabulary.expresses_all _
  reference _ := trivial

/-- A property of states that the workspace, the scope and the types of symbols decide about, and that is
kept by looking up names, conversions and overloads. -/
structure Upkeep (H : Holdings) (I : Builder → Prop) (e e' : Environment) : Prop where
  symbols : ∀ {b}, I b → H.types b.stack.symbols
  closed : ∀ {b b' : Builder}, I b → b'.workspace = b.workspace → b'.scope = b.scope →
    b'.recompiling = b.recompiling → H.types b'.stack.symbols → I b'
  lookUp : ∀ binding position name, Agree I (Compiling.lookUp e binding position name)
    (Compiling.lookUp e' binding position name) fun result => ∀ found ∈ result, H.designated found
  conversionBetween : ∀ source {target}, H.type target → Agree I
    (Compiling.conversionBetween e source target) (Compiling.conversionBetween e' source target)
      fun context => H.type context.target
  overloadFor : ∀ name arguments, Agree I (Compiling.overloadFor e name arguments)
    (Compiling.overloadFor e' name arguments) H.Fits

protected theorem Parallel.overloadForTables {R : Builder → Builder → Prop} (hV : V.IsUniform)
    (h : ∀ name args, Parallel R (Compiling.overloadFor e name args)
      (Compiling.overloadFor e' name args) V.Expresses)
    (pos : Position) (name : String) {operands : List Plan} (hoperands : V.Expresses operands) :
    Parallel R (overloadForTables e pos name operands)
      (overloadForTables e' pos name operands) V.Expresses := by
  rw [overloadForTables_eq, overloadForTables_eq]
  refine ((h name operands).map fun _ hfound => ⟨hfound, hoperands⟩).recover fun abort => ?_
  split
  · cases hsome : asTables? pos operands with
    | none => exact .throw
    | some tables =>
      refine ((h name tables).map fun _ hfound => ?_).recover fun _ => .throw
      exact ⟨hfound, Vocabulary.expresses_asTables? hV hoperands hsome⟩
  · exact .throw

namespace Upkeep

variable (h : Upkeep H I e e')

include h

theorem of_symbols {b' : Builder} (hb : I b) (hws : b'.workspace = b.workspace) (hscope : b'.scope = b.scope)
    (hbusy : b'.recompiling = b.recompiling) (hsyms : b'.stack.symbols = b.stack.symbols) : I b' :=
  h.closed hb hws hscope hbusy (hsyms ▸ h.symbols hb)

theorem isRecording : IsRecording (Same I) :=
  Same.isRecording fun _ _ hb => h.of_symbols hb rfl rfl rfl rfl

theorem leave (b : Builder) (stack : Stack) (hb : I b) (hstack : stack.symbols ⊆ b.stack.symbols) :
    I { b with stack } :=
  h.closed hb rfl rfl rfl fun sym hsym => h.symbols hb sym (hstack hsym)

theorem markModified (idx : Nat) : Upholds I (Compiling.markModified idx) fun _ => True := by
  refine Same.modify fun b hb => h.closed hb rfl rfl rfl fun sym hsym => ?_
  obtain ⟨i, hi⟩ := mem_iff_getElem?.mp hsym
  rw [Stack.modify, getElem?_modify] at hi
  obtain ⟨original, horiginal, hmodified⟩ := Option.map_eq_some_iff.mp hi
  have htypes := h.symbols hb original (mem_of_getElem? horiginal)
  split at hmodified
  all_goals
    subst hmodified
    exact htypes

protected theorem checkReference (pos : Position) {arg : Plan} {Q : Prop}
    (hQ : ∀ name idx, arg.construct = .stackReference name idx → Q) :
    Upholds I (checkReference pos arg) fun _ => Q := by
  unfold checkReference
  split
  · rename_i hcon
    refine Same.inspect fun b hb => ?_
    split
    · exact Parallel.throw
    · split
      · exact Parallel.raise
      · exact (h.markModified _).imp fun _ _ => hQ _ _ hcon
  · exact Parallel.raise

/-- All steps of compiling statements keep the property, and what they compile is as the vocabulary says. -/
theorem steps (hV : H.Describes V) : IsStmtStepwise V e e' fun _ [_] act act' =>
    Agree I act act' V.Expresses where
  pure := Parallel.pure
  bind := Parallel.bind
  fault _ := Parallel.throw
  raise _ := Parallel.raise
  warn pos _ _ := (Parallel.warn h.isRecording pos _).imp fun _ _ => trivial
  scalarType pos name := by
    refine (h.lookUp .objects pos name).bind fun found _ => ?_
    split
    · exact Parallel.pure (hV.scalar _)
    · exact Parallel.raise
    · exact Same.inspect fun _ _ => Parallel.raise
  conversionBetween _ htgt :=
    (h.conversionBetween _ (hV.type htgt)).imp fun _ hctx => hV.between hctx
  fatal := Parallel.fatal
  at_ := Parallel.at_
  systemType pos name := by
    refine Same.inspect fun b hb => ?_
    split
    · exact Parallel.pure (V.type_scalar (hV.scalar _))
    · exact Parallel.fatal
  unknownName _ _ := Same.inspect fun _ _ => Parallel.raise
  checkReference pos _ _ := h.checkReference pos fun _ _ => hV.reference
  lookUp_bind binding pos name hnext _ := by
    refine (h.lookUp binding pos name).bind fun found hfound => hnext found ?_
    rintro (⟨location, symbol, _⟩ | object) hsome
    · exact hV.place location (hV.symbol.mpr (hfound _ hsome))
    · exact hV.object (hfound _ hsome)
  overloadFor name _ _ := (h.overloadFor name _).imp fun _ => hV.found
  uniform := hV.uniform
  inScope hsyms hact := Same.inScope hact (fun b hb => h.closed hb rfl rfl rfl
    (H.types_pushAll (s := b.stack.openFrame) (fun symbol hsym => hV.symbol.mp (hsyms symbol hsym))
      (h.symbols hb))) h.leave
  overloadForTables := Parallel.overloadForTables hV.uniform fun name args =>
    (h.overloadFor name args).imp fun _ => hV.found
  symbol _ _ _ htype := hV.symbol.mpr fun type hmem => hV.type (htype type hmem)
  inWindow hact := Same.inWindow hact (fun _ hb => h.of_symbols hb rfl rfl rfl rfl) h.leave
  within hact := Same.between hact (fun _ hb => h.of_symbols hb rfl rfl rfl rfl)
    fun _ hb => h.of_symbols hb rfl rfl rfl rfl
  push hsym := Same.modify fun _ hb => h.closed hb rfl rfl rfl
    (forall_mem_cons.mpr ⟨hV.symbol.mp hsym, h.symbols hb⟩)
  markModified := h.markModified
  safely hact pos := hact.safely h.isRecording (fun _ _ => Same.depth_eq) pos hV.uniform.noOp
  get_bind hnext _ := Same.get_bind fun b hb => hnext b b b ⟨rfl, hb⟩

protected theorem compileAlone (hV : H.Describes V) (expr : Expr) : Agree I (compileAlone e expr)
    (compileAlone e' expr) fun res => ∀ p ∈ res, V.plan p :=
  Parallel.compileAlone h.isRecording ((h.steps hV).compileExpr expr)

end Upkeep

theorem Hosts.upkeep (h : Hosts H I e e')
    (hclosed : ∀ {b b' : Builder}, I b → b'.workspace = b.workspace → b'.scope = b.scope →
      b'.recompiling = b.recompiling → H.types b'.stack.symbols → I b') : Upkeep H I e e' :=
  ⟨fun hb => h.symbols _ hb, hclosed, h.lookUp, h.conversionBetween, h.overloadFor⟩

/-! ### All that can be looked up -/

/-- It is so of all that the workspace holds, of the operators that only exist for the compilation and of
the types of symbols. -/
structure Builder.Holds (H : Holdings) (b : Builder) : Prop where
  holds : b.workspace.Holds H
  operators : ∀ entry ∈ b.scope.operators, H.overloads entry.2
  symbols : H.types b.stack.symbols

/-- Compiling objects again keeps it so. -/
abbrev Environment.Holds (H : Holdings) (e : Environment) : Prop :=
  Hosts H (Builder.Holds H) e e

theorem Environment.Holds.upkeep (he : e.Holds H) : Upkeep H (Builder.Holds H) e e :=
  Hosts.upkeep he fun hb hws hscope _ hsyms =>
    ⟨hws ▸ hb.holds, hscope ▸ hb.operators, hsyms⟩

theorem Builder.Holds.enter (h : b.Holds H) (hsyms : H.types syms) :
    Builder.Holds H { b with stack := b.stack.openFrame.pushAll syms } :=
  ⟨h.holds, h.operators, H.types_pushAll (s := b.stack.openFrame) hsyms h.symbols⟩

theorem Builder.Holds.guardRecompile {α : Type} {act act' : Compiling α} {Q : α → Prop}
    (key name : String) (h : Agree (Builder.Holds H) act act' Q) :
    Agree (Builder.Holds H) (guardRecompile key name act) (guardRecompile key name act') Q :=
  Same.guardRecompile name (fun _ hb _ => h _ _ ⟨rfl, hb.holds, hb.operators, hb.symbols⟩)
    fun _ hb' => ⟨hb'.holds, hb'.operators, hb'.symbols⟩

theorem Builder.Holds.isolate {α : Type} {act : Compiling α} {Q : α → Prop} (opts : CompilerOptions)
    (hsyms : H.types syms) (h : Upholds (Builder.Holds H) act Q) :
    Upholds (Builder.Holds H) (isolate opts syms act) fun res => Q res.1 := by
  refine Same.isolate opts syms h (fun b hb => ⟨hb.holds, ?_, H.types_pushAll hsyms H.types_nil⟩)
    fun _ _ hb hb' => ⟨hb'.holds, hb.operators, hb.symbols⟩
  simp [Builder.isolated, Builder.start]

theorem Holdings.types_parameterSymbols (decl : OperatorDeclaration) (hop : H.operator op) :
    H.types (parameterSymbols decl op) := by
  intro sym hsym type htype
  obtain ⟨⟨param, declared⟩, hmem, rfl⟩ := mem_map.mp hsym
  cases htype
  exact H.parameter op hop declared (of_mem_zip hmem).2

namespace Environment.Holds

variable (c : Compiler) (hV : H.Describes V) (he : e.Holds H)

include hV he

theorem recompileOperator (hop : H.operator op) :
    Upholds (Builder.Holds H) (Relational.recompileOperator c e op) fun _ => True := by
  refine Parallel.recompileOperator he.upkeep.isRecording
    (fun _ _ hact => Builder.Holds.guardRecompile _ op.name (hact trivial)) (fun _ decl => ?_) ?_
  · have hsteps := he.upkeep.steps hV
    exact (Builder.Holds.isolate c.options (H.types_parameterSymbols decl hop)
      (hsteps.safely (hsteps.compileStmt decl.body) _)).imp fun _ _ => trivial
  · rintro _ b body ⟨rfl, hb⟩
    exact ⟨rfl, ⟨hb.holds.catalog, hb.holds.contexts, hb.holds.matched⟩, hb.operators, hb.symbols⟩

theorem inferReferences (tv : TableVar) :
    Upholds (Builder.Holds H) (Relational.inferReferences c e tv) fun _ => True := by
  refine Parallel.inferReferences
    (fun _ _ hact => Builder.Holds.guardRecompile _ tv.name (hact trivial)) (fun _ => ?_) ?_
  · exact (Builder.Holds.isolate c.options H.types_nil (he.upkeep.compileAlone hV tv.definition)).imp
      fun _ _ => trivial
  · rintro _ (rfl | rfl) _ b refs ⟨rfl, hb⟩
    all_goals exact ⟨rfl, ⟨hb.holds.catalog.setReferences tv.name refs, hb.holds.contexts,
      hb.holds.matched⟩, hb.operators, hb.symbols⟩

end Environment.Holds

/-- Compiling objects again keeps it so at any depth of nesting. -/
theorem Compiler.holds_environment (c : Compiler) (hV : H.Describes V) (depth : Nat) :
    (c.environment depth).Holds H := by
  have hhosts : ∀ e : Environment,
      (∀ op, H.operator op → Upholds (Builder.Holds H) (e.recompile op) fun _ => True) →
      (∀ tv, Upholds (Builder.Holds H) (e.infer tv) fun _ => True) → e.Holds H := fun e hrecompile hinfer =>
    { options := rfl
      holds := fun _ hb => hb.holds
      operators := fun _ hb => hb.operators
      symbols := fun _ hb => hb.symbols
      workspace := fun _ _ hb hholds _ => ⟨hholds, hb.operators, hb.symbols⟩
      recompile := fun op hop b hb _ => hrecompile op hop b b ⟨rfl, hb⟩
      infer := fun tv _ _ => hinfer tv }
  induction depth with
  | zero => exact hhosts _ (fun _ _ => Parallel.throw) fun _ => Parallel.throw
  | succ depth ih =>
    exact hhosts _ (fun _ hop => ih.recompileOperator c hV hop) (ih.inferReferences c hV)

/-- A program is compiled to a plan as the vocabulary says, and it is so of what can be looked up in the
end. -/
theorem Builder.Holds.build {c : Compiler} {stmt : Stmt} {b' : Builder} {p : Plan} (hV : H.Describes V)
    (hb : b.Holds H) (h : Builder.build c stmt b = (.ok p, b')) : b'.Holds H ∧ V.plan p := by
  have he := c.holds_environment hV (Compiler.nestingBound b)
  have hsteps := he.upkeep.steps hV
  have hstmt := hsteps.inScope (Vocabulary.expresses_nil (α := Symbol))
    (hsteps.safely (hsteps.compileStmt stmt) stmt.position?) b b ⟨rfl, hb⟩
  obtain ⟨-, ⟨-, hkeeps⟩, hval⟩ := hstmt
  unfold Builder.build buildIn at h
  split at h
  all_goals
    rename_i hrun
    rw [hrun] at hkeeps hval
  · cases h
    exact ⟨hkeeps, hval p rfl⟩
  · cases h
  · refine Same.ends h hkeeps ((Parallel.locate _).bind fun pos _ => ?_)
    exact (Parallel.record he.upkeep.isRecording pos _).bind fun _ _ =>
      Parallel.pure (hV.uniform.noOp pos)

end Relational
