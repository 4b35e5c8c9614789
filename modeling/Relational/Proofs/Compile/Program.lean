import Relational.Compile.Program
import Relational.Proofs.Compile.Statement

/-!
# Compiled programs

Compiling an object again leaves the setting of the compilation that asked for it as it is, at any depth
of nesting. A compiled program is therefore a statement of the setting it was compiled in, and from an
empty stack all its references are well scoped.
-/

namespace Relational

open Compiling

variable {e : Environment} {Γ : Setting} {P : Plan → List Symbol → Prop} (c : Compiler)

/-! ### Compiling again -/

theorem keeps_guardRecompile {α : Type} {act : Compiling α} {Q : α → Prop} (key name : String)
    (h : ∀ Γ, Keeps Γ act Q) : Keeps Γ (guardRecompile key name act) Q := by
  have hact : Keeps Γ (between (fun b => { b with recompiling := key :: b.recompiling })
      (fun b => { b with recompiling := b.recompiling.erase key }) act) Q := by
    -- the key that is entered is the one that is found first
    have hexit : { Γ with recompiling := (key :: Γ.recompiling).erase key } = Γ := by
      rw [List.erase_cons_head]
    refine Runs.between (f := fun Γ' => { Γ' with recompiling := Γ'.recompiling.erase key })
      (Runs.imp (h { Γ with recompiling := key :: Γ.recompiling }) ?_ ?_)
      (fun b hb => ⟨?_, hb.frames⟩) fun b _ hb => ⟨?_, hb.frames⟩
    · rintro val _ ⟨rfl, hval⟩
      exact ⟨hexit, hval⟩
    · rintro _ rfl
      exact hexit
    all_goals
      rw [← hb.setting]
      rfl
  exact Keeps.get.bind fun b _ => Keeps.step_if Keeps.throw hact

/-- An action that runs on its own changes nothing of the setting around, if it only adds symbols to its
own. -/
theorem keeps_isolate {α : Type} {act : Compiling α} (opts : CompilerOptions) (syms : List Symbol)
    (h : ∀ Γ, Runs Γ act (fun _ Γ' => Γ'.Extends Γ) (·.Extends Γ)) :
    Keeps Γ (isolate opts syms act) fun _ => True := by
  intro b hb
  have hstart : Builder.In (b.isolated opts).setting (b.isolated opts) :=
    ⟨rfl, Nat.le_refl _⟩
  have hends := h _ _ (hstart.pushAll syms)
  have hleave : ∀ (b' : Builder) (Γ' : Setting), b'.In Γ' → Γ'.Extends ((b.isolated opts).setting.push syms) →
        Builder.In Γ { b with workspace := b'.workspace, recompiling := b'.recompiling } := by
    rintro b' _ hb' ⟨more, rfl⟩
    refine ⟨?_, hb.frames⟩
    rw [← hb.setting]
    exact congrArg (fun Γ' : Setting => { b.setting with
      recompiling := Γ'.recompiling, isReconciling := Γ'.isReconciling,
      operators := Γ'.operators }) hb'.setting
  unfold isolate
  dsimp only
  match act _, hends with
  | (.ok val, b'), ⟨Γ', hb', hext⟩ => exact ⟨Γ, hleave b' Γ' hb' hext, rfl, trivial⟩
  | (.error _, b'), ⟨Γ', hb', hext⟩ => exact ⟨Γ, hleave b' Γ' hb' hext, rfl⟩

theorem keeps_raiseErrors (msgs : Messages) : Keeps Γ (raiseErrors msgs) fun _ => True := by
  unfold raiseErrors
  split
  · exact .throw
  · exact .pure trivial

theorem keeps_readDeclaration (store : DeclarationStore)
    (parse : String → Except Abort OperatorDeclaration) (op : Operator) :
    Keeps Γ (readDeclaration store parse op) fun _ => True := by
  unfold readDeclaration
  split
  · exact .throw
  · split
    · exact .throw
    · exact .step_if .throw (.pure trivial)

theorem keeps_recompileOperator (he : e.Sound) (op : Operator) :
    Keeps Γ (recompileOperator c e op) fun _ => True := by
  unfold recompileOperator
  split
  · rename_i store parse _ _
    refine keeps_guardRecompile _ op.name fun Γ => ?_
    refine (keeps_readDeclaration store parse op).bind fun decl _ => ?_
    refine (keeps_isolate c.options _ fun Γ => ?_).bind fun (body, msgs) _ => ?_
    · refine Runs.imp (Declares.safely (declares_compileStmt he Γ decl.body) (.noOp ·) _) ?_ ?_
      · rintro p _ ⟨rfl, -⟩
        exact ⟨_, rfl⟩
      · rintro _ rfl
        exact .refl _
    · refine .bind (.modify fun b hb => ⟨hb.setting, hb.frames⟩) fun _ _ => ?_
      refine (keeps_raiseErrors msgs).bind fun _ _ => Keeps.note.bind fun _ _ => ?_
      exact Keeps.modify fun b hb => ⟨hb.setting, hb.frames⟩
  · exact .throw

theorem keeps_compileAlone (he : e.Sound) (expr : Expr) : Keeps Γ (compileAlone e expr) fun res =>
      ∀ p ∈ res, IsExpression e.options Γ p := by
  intro b hb
  have hends := he.compileExpr Γ expr b hb
  unfold compileAlone
  match compileExpr e expr b, hends with
  | (.ok p, b'), ⟨Γ', hb', hΓ, hp⟩ => exact ⟨Γ', hb', hΓ, by simpa using hp⟩
  | (.error abort, b'), ⟨Γ', hb', hΓ⟩ =>
    obtain rfl := hΓ
    dsimp only
    split
    · exact ⟨Γ', hb', rfl⟩
    · exact ((Keeps.record _ _).bind fun _ _ => Keeps.pure (by simp)) b' hb'

theorem keeps_inferReferences (he : e.Sound) (tv : TableVar) :
    Keeps Γ (inferReferences c e tv) fun _ => True := by
  have hset : ∀ (Γ : Setting) (refs : List String), Keeps Γ (modify fun b =>
      { b with workspace := { b.workspace with
          catalog := b.workspace.catalog.updateTableVar tv.name (·.setReferences refs) } } :
      Compiling Unit) fun _ => True :=
    fun Γ refs => .modify fun b hb => ⟨hb.setting, hb.frames⟩
  unfold inferReferences
  split
  · exact hset Γ []
  · refine keeps_guardRecompile _ tv.name fun Γ => ?_
    refine (keeps_isolate c.options [] fun Γ => ?_).bind fun (plan, msgs) _ => ?_
    · refine .imp (keeps_compileAlone he tv.definition) ?_ ?_
      · rintro p _ ⟨rfl, -⟩
        exact .refl _
      · rintro _ rfl
        exact .refl _
    · refine (keeps_raiseErrors msgs).bind fun _ _ => ?_
      split
      · exact hset Γ _
      · exact .throw

namespace Compiler

/-- Compiling again leaves the setting as it is, at any depth of nesting. -/
theorem sound_environment (c : Compiler) (depth : Nat) : (c.environment depth).Sound := by
  induction depth with
  | zero => exact ⟨fun _ _ => .throw, fun _ _ => .throw⟩
  | succ depth ih =>
    exact ⟨fun _ op => keeps_recompileOperator c ih op, fun _ tv => keeps_inferReferences c ih tv⟩

theorem options_environment (c : Compiler) (depth : Nat) : (c.environment depth).options = c.options := by
  cases depth <;> rfl

end Compiler

/-! ### Programs -/

namespace Builder

variable {c : Compiler} {statement : Stmt} {b b' : Builder} {p : Plan}

theorem ends_build (c : Compiler) (statement : Stmt) (hframes : b.stack.frameCount ≤ b.stack.marks.length) :
    Ends (fun p Γ => Γ = b.setting ∧ IsStatement c.options (b.setting.enter []) p)
      (· = b.setting) (build c statement b) := by
  have he := c.sound_environment (Compiler.nestingBound b)
  have hscope := (Declares.safely (declares_compileStmt he (b.setting.enter []) statement) (.noOp ·)
    statement.position?).inScope b ⟨rfl, hframes⟩
  unfold build buildIn
  match inScope [] _ b, hscope with
  | (.ok p, b'), hend => exact hend
  | (.error (.fault _), b'), hend => exact hend
  | (.error (.raised fail), b'), ⟨_, hb', hΓ⟩ =>
    refine ((Keeps.locate _).bind fun pos _ => ?_) b' (hΓ ▸ hb')
    exact (Keeps.record pos fail).bind fun _ _ => Keeps.pure (.noOp pos)

/-- A property that all statements have, and expressions wherever they are unless relational overloads take
tables, holds wherever an inspection comes in a program that is compiled from an empty stack. -/
theorem forall_visits_of_build (hsyms : b.stack.symbols = []) (hwins : b.stack.windows = [])
    (hframes : b.stack.frameCount = 0) (h : build c statement b = (.ok p, b'))
    (hnode : ∀ {Γ : Setting} {q : Plan} {visible : List Symbol}, SeesAlike Γ visible →
      IsStatement c.options Γ q → P q visible)
    (htables : b.setting.TakesTables c.options.resolution ∨ ∀ {Γ : Setting} {q : Plan}
      {visible : List Symbol}, IsExpression c.options Γ q → P q visible) :
    ∀ visit ∈ p.visits {}, P visit.1 visit.2.visible := by
  have hstmt : IsStatement c.options (b.setting.enter []) p := by
    have hends := ends_build (b := b) c statement (by omega)
    rw [h] at hends
    obtain ⟨_, -, -, hp⟩ := hends
    exact hp
  have hempty : b.setting.symbols = [] ∧ b.setting.windows = [] := by
    simp [setting, hsyms, hwins]
  have hsound : (b.setting.enter []).Sound := by
    intro base hbase
    change base ∈ b.setting.windows at hbase
    simp [hempty.2] at hbase
  have hsees : SeesAlike (b.setting.enter []) [] := by
    have hvis : (b.setting.enter []).visible = [] := by
      simp [Setting.visible, Setting.enter, Setting.push, Setting.inFrame, hempty.1]
    rw [SeesAlike, hvis]
    exact .nil
  exact Plan.forall_mem_visits (s := {}) (by simp [Stack.Sound])
    (hstmt.throughout hnode htables hsound hsees)

/-- Where the names of relational operators lead to overloads that take tables, a property that all
statements have holds wherever an inspection comes. -/
theorem forall_visits_of_takesTables (hsyms : b.stack.symbols = [])
    (hwins : b.stack.windows = []) (hframes : b.stack.frameCount = 0)
    (htables : ∀ entry ∈ rowOperators, ∀ srcs,
      (findOverloads c.options.resolution b.scope entry.1 b.workspace).1 = .ok srcs →
        ∀ src ∈ srcs, ∀ op ∈ src.overloads.operators, op.takesTables entry.2)
    (h : build c statement b = (.ok p, b'))
    (hnode : ∀ {Γ : Setting} {q : Plan} {visible : List Symbol}, SeesAlike Γ visible →
      IsStatement c.options Γ q → P q visible) : ∀ visit ∈ p.visits {}, P visit.1 visit.2.visible := by
  refine forall_visits_of_build hsyms hwins hframes h hnode (.inl fun entry hentry op hop => ?_)
  obtain ⟨srcs, hok, src, hsrc, hmem⟩ := (OperatorView.finds_iff _ _ _ _ _).mp hop
  exact htables entry hentry srcs hok src hsrc op hmem

/-- Where the names of relational operators lead to overloads that take tables, all references of a
program that is compiled from an empty stack are well scoped. -/
theorem refersTo_of_build (hsymbols : b.stack.symbols = []) (hwindows : b.stack.windows = [])
    (hframes : b.stack.frameCount = 0)
    (htables : ∀ entry ∈ rowOperators, ∀ sources,
      (findOverloads c.options.resolution b.scope entry.1 b.workspace).1 = .ok sources →
        ∀ source ∈ sources, ∀ op ∈ source.overloads.operators, op.takesTables entry.2)
    (h : build c statement b = (.ok p, b')) :
    ∀ visit ∈ p.visits {}, visit.1.RefersTo visit.2 := by
  have hrefers := forall_visits_of_takesTables (P := Plan.RefersBy Eq) hsymbols hwindows hframes htables h
    fun hsees hq => hq.refersBy hsees
  exact fun visit hvisit => (hrefers visit hvisit).refersTo

/-- Whether the overloads of a name take tables, as far as it has any. -/
def overloadsTakeTables (options : ResolutionOptions) (scope : PlanScope) (w : Workspace)
    (entry : String × Nat) : Bool :=
  match (findOverloads options scope entry.1 w).1 with
  | .ok sources => sources.all fun source => source.overloads.operators.all (·.takesTables entry.2)
  | .error _ => true

theorem takesTables_of_all {opts : ResolutionOptions} {scope : PlanScope} {w : Workspace}
    {entries : List (String × Nat)} (h : entries.all (overloadsTakeTables opts scope w)) :
    ∀ entry ∈ entries, ∀ srcs, (findOverloads opts scope entry.1 w).1 = .ok srcs →
      ∀ src ∈ srcs, ∀ op ∈ src.overloads.operators, op.takesTables entry.2 := by
  intro entry hentry srcs hsrcs src hsrc op hop
  have htake := List.all_eq_true.mp h entry hentry
  rw [overloadsTakeTables, hsrcs] at htake
  exact List.all_eq_true.mp (List.all_eq_true.mp htake src hsrc) op hop

theorem exists_build_of_any {f : Plan → Bool} (h : (build c statement b).1.toOption.any f) :
    ∃ p b', build c statement b = (.ok p, b') ∧ f p := by
  rcases hrun : build c statement b with ⟨_ | p, b'⟩ <;> rw [hrun] at h
  · cases h
  · exact ⟨p, b', rfl, h⟩

/-- An operator with one overload, which yields a table. -/
def tableOperator (serial : Nat) (name : String) (types : List Ty) : String × Overloads :=
  let op : Operator :=
    { serial, name, signature := .ofTypes types, returnType := some (.anyRows .table) }
  (name, { name, operators := [op] })

def truthValues : ScalarType :=
  { serial := 1, name := "System.Boolean", native := .boolean, generic := false, parents := [] }

/-- A catalog with the truth values and the relational operators. Joins of an unknown kind take
operands of the given type. -/
def relationalCatalog (unknown : Ty) : Catalog where
  objects := [("System.Boolean", .scalarType truthValues)]
  operators :=
    [tableOperator 2 "iRestrict" [.anyRows .table, .any],
      tableOperator 3 "iExtend" [.anyRows .table],
      tableOperator 4 "iJoin" [.anyRows .table, .anyRows .table, .any],
      tableOperator 5 "iLeftJoin" [.anyRows .table, .anyRows .table, .any],
      tableOperator 6 "iRightJoin" [.anyRows .table, .anyRows .table, .any],
      tableOperator 7 "" [unknown, unknown, .any]]

/-- A row with a true column. -/
def trueRow (name : String) : Expr :=
  .row .none [(name, .literal .none (.boolean true) "")] .missing

/-- A variable that holds a table, and the rows of it for which a column is true. -/
def restrictionProgram : Stmt :=
  .block .none
    [.declaration .none "t" .missing (.table .none [trueRow "a"] .missing) false,
      .expression .none (.restrict .none (.identifier .none "t") (.identifier .none "a"))]

/-- Whether a plan refers to a column where there is no symbol. -/
def missesColumn (p : Plan) (s : Stack) : Bool :=
  match p.construct with
  | .stackColumnReference _ index _ => (s.peek index).isNone
  | _ => false

/-- A join of an unknown kind of two lists. -/
def listJoinProgram : Stmt :=
  .expression .none (.join .none .other (.list .none [trueRow "a"] .missing)
    (.list .none [trueRow "b"] .missing) (.identifier .none "a"))

theorem refersTo_of_build_restriction :
    ∃ p b', build {} restrictionProgram
        (.start {} { catalog := relationalCatalog (.anyRows .table) }) = (.ok p, b') ∧
      (p.visits {}).map (·.1.kind) = [.block, .variable_, .tableSelector, .rowSelector, .literal,
        .restrict, .stackReference, .stackColumnReference] ∧
      ∀ visit ∈ p.visits {}, visit.1.RefersTo visit.2 := by
  have hbuild : (build {} restrictionProgram
      (.start {} { catalog := relationalCatalog (.anyRows .table) })).1.toOption.any fun p =>
        (p.visits {}).map (·.1.kind) = [.block, .variable_, .tableSelector, .rowSelector, .literal,
          .restrict, .stackReference, .stackColumnReference] := by decide +kernel
  have htables : rowOperators.all (overloadsTakeTables {} {}
      { catalog := relationalCatalog (.anyRows .table) }) := by decide +kernel
  obtain ⟨p, b', h, hkinds⟩ := exists_build_of_any hbuild
  refine ⟨p, b', h, of_decide_eq_true hkinds, refersTo_of_build rfl rfl rfl ?_ h⟩
  exact takesTables_of_all htables

/-- With overloads of the empty name that take lists, a join of an unknown kind refers to rows that its
condition does not see, whatever the other relational operators take. -/
theorem exists_build_not_refersTo :
    ∃ c statement b p b', b.stack.symbols = [] ∧ b.stack.windows = [] ∧ b.stack.frameCount = 0 ∧
      (∀ entry ∈ rowOperators, entry.1 ≠ "" → ∀ sources,
        (findOverloads c.options.resolution b.scope entry.1 b.workspace).1 = .ok sources →
          ∀ source ∈ sources, ∀ op ∈ source.overloads.operators, op.takesTables entry.2) ∧
      build c statement b = (.ok p, b') ∧ ∃ visit ∈ p.visits {}, ¬ visit.1.RefersTo visit.2 := by
  have hbuild : (build {} listJoinProgram
      (.start {} { catalog := relationalCatalog .any })).1.toOption.any fun p =>
        (p.visits {}).any fun visit => missesColumn visit.1 visit.2 := by decide +kernel
  have htables : (rowOperators.filter (·.1 ≠ "")).all (overloadsTakeTables {} {}
      { catalog := relationalCatalog .any }) := by decide +kernel
  obtain ⟨p, b', h, hunseen⟩ := exists_build_of_any hbuild
  refine ⟨{}, listJoinProgram, _, p, b', rfl, rfl, rfl, fun entry hentry hname => ?_, h, ?_⟩
  · exact takesTables_of_all htables entry (List.mem_filter.mpr ⟨hentry, by simpa using hname⟩)
  · obtain ⟨visit, hvisit, hnone⟩ := List.any_eq_true.mp hunseen
    refine ⟨visit, hvisit, fun hrefers => ?_⟩
    unfold Plan.RefersTo at hrefers
    unfold missesColumn at hnone
    split at hnone
    · rename_i hconstruct
      rw [hconstruct] at hrefers
      obtain ⟨symbol, _, _, hpeek, -⟩ := hrefers
      rw [hpeek] at hnone
      cases hnone
    · cases hnone

end Builder

/-- Whether an expression is compiled without messages to a plan with a property. -/
def Catalog.compilesTo (catalog : Catalog) (expr : Expr) (f : Plan → Bool) : Bool :=
  match Builder.buildExpression {} expr (.start {} { catalog }) with
  | (.ok (some p), b) => b.messages.isEmpty && f p
  | _ => false

theorem Catalog.exists_of_compilesTo {catalog : Catalog} {expr : Expr} {f : Plan → Bool}
    (h : catalog.compilesTo expr f) : ∃ p b',
      Builder.buildExpression {} expr (.start {} { catalog }) = (.ok (some p), b') ∧
        b'.messages = [] ∧ f p := by
  unfold compilesTo at h
  split at h
  · rename_i p b' hbuild
    rw [Bool.and_eq_true] at h
    exact ⟨p, b', hbuild, List.isEmpty_iff.mp h.1, h.2⟩
  · cases h

end Relational
