import Relational.Proofs.Compile.PartFailures
import Relational.Proofs.Optimize.Congruence

/-!
# Distinct names of visible variables

A variable must be new where it is declared, and so must the variable of a loop: no visible variable may
have its name, up to case. Rows have no names, and the default value of a variable sees nothing around it.
So no two visible variables have one name, wherever a part of a program is compiled.

The error that a handler names need not be new, nor need the parameters of an operator. These are the only
exceptions: names are distinct throughout a program if and only if they are where it starts and each
handler names a new error.
-/

namespace Relational

open Compiling Text List

variable {e : Environment} {Γ : Setting} {b b' : Builder} {names : List String} {part part' : Part}
  {decl : OperatorDeclaration} {op : Operator}

/-! ### Names of symbols -/

/-- No two names are equal up to case; symbols without a name do not count. -/
def DistinctNames (names : List String) : Prop :=
  (names.filter (· ≠ "")).Pairwise fun x y => ¬ equalFold x y

theorem distinctNames_cons {name : String} :
    DistinctNames (name :: names) ↔ (name = "" ∨ IsNewName names name) ∧ DistinctNames names := by
  unfold DistinctNames IsNewName
  by_cases hname : name = ""
  · simp [hname]
  · simp only [hname, filter_cons, ne_eq, not_false_eq_true, decide_true, if_true,
      pairwise_cons, false_or, mem_filter, decide_eq_true_eq, and_imp, equalFold_comm name]

theorem distinctNames_reverse : DistinctNames names.reverse ↔ DistinctNames names := by
  unfold DistinctNames
  rw [filter_reverse, pairwise_reverse]
  simp only [equalFold_comm]

/-- No two visible variables of a stack have one name, up to case. -/
def Stack.Distinct (s : Stack) : Prop :=
  DistinctNames (s.visible.map (·.name))

/-! ### Settings with distinct names -/

theorem Setting.names_push (h : Γ.Sound) (syms : List Symbol) :
    (Γ.push syms).names = (syms.map (·.name)).reverse ++ Γ.names := by
  unfold names
  rw [visible_push h, map_append, map_reverse, map_map]
  rfl

/-- A setting in which no two visible variables have one name. -/
structure Setting.Clear (Γ : Setting) : Prop where
  sound : Γ.Sound
  distinct : DistinctNames Γ.names

/-- A compilation in a setting in which no two visible variables have one name. -/
def Builder.Clear (b : Builder) : Prop :=
  ∃ Γ, b.In Γ ∧ Γ.Clear

theorem Builder.In.distinct_iff (h : b.In Γ) : b.stack.Distinct ↔ DistinctNames Γ.names := by
  rw [← h.names_eq]
  rfl

theorem Builder.Clear.distinct (h : b.Clear) : b.stack.Distinct := by
  obtain ⟨Γ, hb, hΓ⟩ := h
  exact hb.distinct_iff.mpr hΓ.distinct

namespace Setting.Clear

variable (h : Γ.Clear)

include h

theorem push (sym : Symbol) (hsym : sym.name = "" ∨ IsNewName Γ.names sym.name) : (Γ.push [sym]).Clear := by
  refine ⟨h.sound.push _, ?_⟩
  rw [names_push h.sound]
  exact distinctNames_cons.mpr ⟨hsym, h.distinct⟩

theorem inFrame : Γ.inFrame.Clear :=
  ⟨h.sound, h.distinct⟩

theorem enter_nil : (Γ.enter []).Clear :=
  ⟨h.sound, h.distinct⟩

theorem enter (sym : Symbol) (hsym : sym.name = "" ∨ IsNewName Γ.names sym.name) : (Γ.enter [sym]).Clear :=
  h.inFrame.push sym hsym

theorem enter_unnamed {syms : List Symbol} (hsyms : ∀ sym ∈ syms, sym.name = "") : (Γ.enter syms).Clear := by
  suffices ∀ Γ : Setting, Γ.Clear → (Γ.push syms).Clear from this Γ.inFrame h.inFrame
  induction syms with
  | nil => exact fun Γ h => h
  | cons sym syms ih =>
    intro Γ h
    obtain ⟨hsym, hsyms⟩ := forall_mem_cons.mp hsyms
    have hboth := ih hsyms _ (h.push sym (.inl hsym))
    rwa [push_push] at hboth

theorem within (place : Enclosure) : (Γ.within place).Clear :=
  ⟨h.sound, h.distinct⟩

theorem hide : Γ.hide.Clear := by
  refine ⟨h.sound.hide, ?_⟩
  rw [names, visible_hide]
  exact .nil

theorem declare {p : Plan} (hp : ∀ sym ∈ p.declaredSymbol?, IsNewName Γ.names sym.name) :
    (Γ.declare p).Clear := by
  unfold Setting.declare
  cases hdecl : p.declaredSymbol? with
  | none => exact h
  | some sym => exact h.push sym (.inr (hp sym hdecl))

end Setting.Clear

/-! ### Blocks -/

theorem runs_compileBlock_clear (he : e.Sound) (Γ : Setting) (ss : List Stmt) :
    Runs Γ (compileBlock e ss) (fun _ Γ' => Γ.Clear → Γ'.Clear) fun _ => True := by
  induction ss generalizing Γ with
  | nil => exact .pure id
  | cons s ss ih =>
    have hfirst := Declares.safely (declares_compileStmt he Γ s) (.noOp ·) s.position?
    refine .bind (hfirst.imp (fun _ _ => id) fun _ _ => trivial) ?_
    rintro p _ ⟨rfl, hp⟩
    exact (ih (Γ.declare p)).bind fun _ _ hΓ => .pure fun h => hΓ (h.declare hp.isNewName)

/-! ### Steps into parts -/

/-- A handler of this statement, if it comes to one, names a new error. -/
def Part.NamesNewError (e : Environment) (b : Builder) : Part → Prop
  | .stmt (.try p body name handler) => ∀ type b', caughtType e p body name b = (.ok type, b') →
      handler.isMissing = false → name = "" ∨ b.stack.collisions name = []
  | _ => True

/-- The setting of a part: names are distinct in it if they are around it, unless the part is a handler
that names an error that is not new. -/
theorem Enters.exists_in (h : Enters e part b part' b') (he : e.Sound) (hb : b.In Γ) : ∃ Γ', b'.In Γ' ∧
      (Γ.Clear → part.NamesNewError e b ∨ b'.stack.Distinct → Γ'.Clear) := by
  cases part with
  | expr x =>
    obtain hb' | ⟨b₁, syms, rfl, hb₁, -, hnames⟩ :=
      he.scopes.exists_opened (P := fun Γ b => b.In Γ) (fun h heq hb => Keeps.ends heq hb h) h hb
    · exact ⟨Γ, hb', fun hΓ _ => hΓ⟩
    · exact ⟨_, hb₁.enter syms, fun hΓ _ => hΓ.enter_unnamed hnames⟩
  | stmt s =>
    cases h with
    | firstOf => exact ⟨Γ, hb, fun hΓ _ => hΓ⟩
    | statement h =>
      obtain ⟨Γ', hb', hΓ'⟩ := Runs.ends h (hb.enter []) (runs_compileBlock_clear he (Γ.enter []) _)
      exact ⟨Γ', hb', fun hΓ _ => hΓ' hΓ.enter_nil⟩
    | defaultValue _ h =>
      exact ⟨_, (Keeps.ends h hb ((he.types Γ Γ).specifiedType _)).1.openWindow, fun hΓ _ => hΓ.hide⟩
    | assigned h => exact ⟨Γ, (Keeps.ends h hb (keeps_assignmentTarget he _ _)).1, fun hΓ _ => hΓ⟩
    | thenBranch h =>
      exact ⟨_, (Keeps.ends h hb (he.scopes.testedCondition Γ _ _ _)).1.enter [], fun hΓ _ => hΓ.enter_nil⟩
    | elseBranch h =>
      exact ⟨_, (Keeps.ends h hb ((he.scopes.testedCondition Γ _ _ _).bind fun _ _ =>
        (declares_compileStmt he (Γ.enter []) _).inScope)).1.enter [], fun hΓ _ => hΓ.enter_nil⟩
    | branchCondition h => exact ⟨Γ, (Keeps.ends h hb (keeps_branchesBefore he _ _)).1, fun hΓ _ => hΓ⟩
    | branch h =>
      exact ⟨_, (Keeps.ends h hb (keeps_branchTested he _ _ _)).1.enter [], fun hΓ _ => hΓ.enter_nil⟩
    | lastBranch h =>
      exact ⟨_, (Keeps.ends h hb (keeps_branchesBefore he _ _)).1.enter [], fun hΓ _ => hΓ.enter_nil⟩
    | whileBody h =>
      have hb' := (Keeps.ends h hb ((he.compileExpr Γ _).bind fun _ hq => (he.calls Γ).asCondition _ hq)).1
      exact ⟨_, (hb'.within .loop).enter [], fun hΓ _ => (hΓ.within .loop).enter_nil⟩
    | @loopBody _ _ _ name _ _ type h =>
      obtain ⟨hb', hname⟩ := Keeps.ends h hb (keeps_loopVariable he _ _ _)
      exact ⟨_, (hb'.enter _).within .loop, fun hΓ _ =>
        (hΓ.enter { name, type := some type } hname).within .loop⟩
    | tryBody => exact ⟨_, hb.enter [], fun hΓ _ => hΓ.enter_nil⟩
    | @handler _ b₁ _ name _ _ type h hhandler =>
      have hb' := ((Keeps.ends h hb (keeps_caughtType he _ _ _)).1.enter
        (if name = "" then [] else [{ name, type }])).within .handler
      refine ⟨_, hb', fun hΓ hnext => ?_⟩
      -- Nothing is checked here, so that the name is new has to be known, or that names are distinct.
      rcases hnext with hnew | hdistinct
      · refine Setting.Clear.within ?_ .handler
        split
        · exact hΓ.enter_nil
        · rename_i hname
          have hfree := (hnew type b₁ h hhandler).resolve_left hname
          exact hΓ.enter _ (.inr (hb.collisions_eq_nil_iff.mp hfree))
      · have hsound : (Γ.enter (if name = "" then [] else [{ name, type }])).Sound :=
          Setting.Sound.push (Γ := Γ.inFrame) hΓ.sound _
        exact ⟨hsound, hb'.distinct_iff.mp hdistinct⟩

theorem Enters.clear (h : Enters e part b part' b') (he : e.Sound) (hb : b.Clear)
    (hnext : part.NamesNewError e b ∨ b'.stack.Distinct) : b'.Clear := by
  obtain ⟨Γ, hb, hΓ⟩ := hb
  obtain ⟨Γ', hb', hclear⟩ := h.exists_in he hb
  exact ⟨Γ', hb', hclear hΓ hnext⟩

/-- The parts that are reached are compiled on the way: a fatal failure of one of them, at any depth, is
the failure of the whole. -/
theorem Reaches.fails (h : Reaches e part b part' b') (he : e.Sound) (hb : b.In Γ) {fail : Failure}
    (hfatal : fail.isFatal) (hfails : Fails (part'.compile e) b' fail) : Fails (part.compile e) b fail := by
  have hpart : (∃ Γ', b'.In Γ') ∧ (Fails (part'.compile e) b' fail → Fails (part.compile e) b fail) := by
    refine h.invariant (P := fun part' b' => (∃ Γ', b'.In Γ') ∧
      (Fails (part'.compile e) b' fail → Fails (part.compile e) b fail)) ⟨⟨Γ, hb⟩, id⟩ ?_
    rintro part₁ b₁ part₂ b₂ - hstep ⟨⟨Γ₁, hb₁⟩, hwhole⟩
    obtain ⟨Γ₂, hb₂, -⟩ := hstep.exists_in he hb₁
    exact ⟨⟨Γ₂, hb₂⟩, fun hfails => hwhole (hstep.fails he hb₁ hb₂ hfatal hfails)⟩
  exact hpart.2 hfails

/-! ### Programs -/

/-- Names are distinct wherever a part of a program is compiled, and after it. -/
def DistinctThroughout (e : Environment) (part : Part) (b : Builder) : Prop :=
  ∀ part' b', Reaches e part b part' b' →
    b'.stack.Distinct ∧ (part'.compile e b').2.stack.Distinct

/-- All handlers that a program comes to name new errors. -/
def NamesNewErrors (e : Environment) (part : Part) (b : Builder) : Prop :=
  ∀ part' b', Reaches e part b part' b' → part'.NamesNewError e b'

theorem Builder.Clear.compile (h : b.Clear) (he : e.Sound) (part : Part) :
    (part.compile e b).2.stack.Distinct := by
  obtain ⟨Γ, hb, hΓ⟩ := h
  have hends : Ends (fun _ => Setting.Clear) Setting.Clear (part.compile e b) := by
    cases part with
    | expr x =>
      refine Runs.imp (he.compileExpr Γ x) ?_ ?_ b hb
      · rintro _ _ ⟨rfl, -⟩
        exact hΓ
      · rintro _ rfl
        exact hΓ
    | stmt s =>
      refine Runs.imp (declares_compileStmt he Γ s) ?_ ?_ b hb
      · rintro p _ ⟨rfl, hp⟩
        exact hΓ.declare hp.isNewName
      · rintro _ rfl
        exact hΓ
  generalize part.compile e b = run at hends ⊢
  rcases run with ⟨_ | _, b'⟩ <;> exact Builder.Clear.distinct hends

/-- Names are distinct in every part of a program if they are where it starts and all handlers name new
errors, or if they are distinct on the way. -/
theorem Reaches.clear (h : Reaches e part b part' b') (he : e.Sound) (hb : b.Clear)
    (hnext : NamesNewErrors e part b ∨
      ∀ part' b', Reaches e part b part' b' → b'.stack.Distinct) : b'.Clear := by
  refine h.invariant (P := fun _ b => b.Clear) hb fun part₁ b₁ part₂ b₂ hreach hstep hb₁ => ?_
  exact hstep.clear he hb₁ (hnext.imp (fun h => h _ _ hreach) fun h => h _ _ (hreach.enter hstep))

/-- Names are distinct throughout a program if and only if they are where it starts and all handlers name
new errors. -/
theorem distinctThroughout_iff (he : e.Sound) (hb : b.In Γ) (hΓ : Γ.Sound) :
    DistinctThroughout e part b ↔ b.stack.Distinct ∧ NamesNewErrors e part b := by
  constructor
  · intro h
    have hclear : b.Clear := ⟨Γ, hb, hΓ, hb.distinct_iff.mp (h part b .refl).1⟩
    refine ⟨hclear.distinct, fun part' b' hreach => ?_⟩
    obtain ⟨Γ', hb', hΓ'⟩ := hreach.clear he hclear (.inr fun part' b' hreach => (h part' b' hreach).1)
    unfold Part.NamesNewError
    split
    · rename_i p body name handler
      intro type b₁ hcaught hhandler
      by_cases hname : name = ""
      · exact .inl hname
      have hentered : Reaches e part b (.stmt handler)
          ((b₁.enter (if name = "" then [] else [{ name, type }])).within .handler) :=
        hreach.enter (.handler hcaught hhandler)
      have hinside := (h _ _ hentered).1
      rw [if_neg hname] at hinside
      have hb₁ := (Keeps.ends hcaught hb' (keeps_caughtType he p body name)).1
      have hnames : DistinctNames (Γ'.enter [{ name, type }]).names :=
        ((hb₁.enter [{ name, type }]).within .handler).distinct_iff.mp hinside
      rw [Setting.enter, Setting.names_push (Γ := Γ'.inFrame) hΓ'.sound] at hnames
      have hnew := (distinctNames_cons.mp hnames).1.resolve_left hname
      exact .inr (hb'.collisions_eq_nil_iff.mpr hnew)
    · trivial
  · rintro ⟨hdistinct, hnew⟩ part' b' hreach
    have hclear : b.Clear := ⟨Γ, hb, hΓ, hb.distinct_iff.mp hdistinct⟩
    have hclear' := hreach.clear he hclear (.inl hnew)
    exact ⟨hclear'.distinct, hclear'.compile he part'⟩

/-! ### Programs that name no errors -/

mutual

/-- Whether some handler of a statement names its error. -/
def Stmt.namesErrors : Stmt → Bool
  | .block _ statements => blockNamesErrors statements
  | .conditional _ _ first second => first.namesErrors || second.namesErrors
  | .case _ _ items last => branchesNameErrors items || last.namesErrors
  | .while _ _ body | .forEach _ _ _ body => body.namesErrors
  | .try _ body name handler => body.namesErrors || name != "" || handler.namesErrors
  | _ => false

/-- Whether some handler in a block names its error. -/
def blockNamesErrors : List Stmt → Bool
  | [] => false
  | s :: ss => s.namesErrors || blockNamesErrors ss

/-- Whether some handler in the branches of a case names its error. -/
def branchesNameErrors : List (Expr × Stmt) → Bool
  | [] => false
  | (_, s) :: rest => s.namesErrors || branchesNameErrors rest

end

/-- Whether some handler of a part names its error. -/
def Part.namesErrors : Part → Bool
  | .expr _ => false
  | .stmt s => s.namesErrors

theorem blockNamesErrors_append (before after : List Stmt) :
    blockNamesErrors (before ++ after) = (blockNamesErrors before || blockNamesErrors after) := by
  induction before with
  | nil => simp [blockNamesErrors]
  | cons s ss ih => simp [blockNamesErrors, ih, Bool.or_assoc]

theorem branchesNameErrors_append (before after : List (Expr × Stmt)) :
    branchesNameErrors (before ++ after) = (branchesNameErrors before || branchesNameErrors after) := by
  induction before with
  | nil => simp [branchesNameErrors]
  | cons item items ih => simp [branchesNameErrors, ih, Bool.or_assoc]

theorem Enters.namesErrors_eq (h : Enters e part b part' b') (hpart : part.namesErrors = false) :
    part'.namesErrors = false := by
  cases h <;> simp_all [Part.namesErrors, Stmt.namesErrors, blockNamesErrors_append, blockNamesErrors,
    branchesNameErrors_append, branchesNameErrors]

theorem namesNewErrors_of_namesErrors (hpart : part.namesErrors = false) : NamesNewErrors e part b := by
  intro part' b' hreach
  have hpart' : part'.namesErrors = false :=
    hreach.invariant (P := fun part _ => part.namesErrors = false) hpart
      fun _ _ _ _ _ hstep h => hstep.namesErrors_eq h
  unfold Part.NamesNewError
  split
  · rename_i p body name handler
    simp only [Part.namesErrors, Stmt.namesErrors, Bool.or_eq_false_iff, bne_eq_false_iff_eq] at hpart'
    exact fun _ _ _ _ => .inl hpart'.1.2
  · trivial

/-! ### Empty stacks and parameters -/

theorem Builder.names_of_symbols_nil (hsyms : b.stack.symbols = []) : b.setting.names = [] := by
  simp [Setting.names, Setting.visible, Builder.setting, hsyms]

/-- The state in which a part is compiled on its own, with some symbols in scope. -/
def Builder.alone (b : Builder) (options : CompilerOptions) (symbols : List Symbol) : Builder :=
  { b.isolated options with stack := (b.isolated options).stack.pushAll symbols }

theorem map_name_parameterSymbols (h : decl.parameters.length = op.signature.length) :
    (parameterSymbols decl op).map (·.name) = decl.parameters.map (·.name) := by
  have hnames : (parameterSymbols decl op).map (·.name) =
      ((decl.parameters.zip op.signature).map Prod.fst).map (·.name) := by
    rw [parameterSymbols, map_map, map_map]
    rfl
  rw [hnames, map_fst_zip (Nat.le_of_eq h)]

section Alone

variable (b) (opts : CompilerOptions)

theorem Builder.sound_isolated : (b.isolated opts).setting.Sound := by
  intro base hbase
  cases hbase

theorem Builder.in_alone (syms : List Symbol) :
    (b.alone opts syms).In ((b.isolated opts).setting.push syms) :=
  In.pushAll ⟨rfl, Nat.zero_le _⟩ syms

/-- The body of an operator starts with distinct names if and only if its parameters have such names. -/
theorem Builder.alone_distinct_iff (h : decl.parameters.length = op.signature.length) :
    (b.alone opts (parameterSymbols decl op)).stack.Distinct ↔
      DistinctNames (decl.parameters.map (·.name)) := by
  have hnames : (b.isolated opts).setting.names = [] := names_of_symbols_nil rfl
  rw [(b.in_alone opts _).distinct_iff, Setting.names_push (b.sound_isolated opts), hnames,
    append_nil, distinctNames_reverse, map_name_parameterSymbols h]

end Alone

namespace Compiler

variable {c : Compiler}

/-- From an empty stack, names are distinct throughout a program if and only if all its handlers name new
errors, in particular if no handler names its error. Throughout the body of an operator that is compiled
again they are distinct if and only if also the names of its parameters are.

The parts of the program are those that its compilation comes to: a fatal failure of one of them is the
failure of the program. -/
theorem distinctThroughout_iff_namesNewErrors (hsymbols : b.stack.symbols = [])
    (hwindows : b.stack.windows = []) (hframes : b.stack.frameCount ≤ b.stack.marks.length)
    (depth : Nat) :
    (∀ part, DistinctThroughout (c.environment depth) part b ↔
      NamesNewErrors (c.environment depth) part b) ∧
    (∀ part, part.namesErrors = false → DistinctThroughout (c.environment depth) part b) ∧
    (∀ declaration op, declaration.parameters.length = op.signature.length →
      (DistinctThroughout (c.environment depth) (.stmt declaration.body)
          (b.alone c.options (parameterSymbols declaration op)) ↔
        DistinctNames (declaration.parameters.map (·.name)) ∧
          NamesNewErrors (c.environment depth) (.stmt declaration.body)
            (b.alone c.options (parameterSymbols declaration op)))) ∧
    ∀ part part' b' failure, Reaches (c.environment depth) part b part' b' → failure.isFatal →
      Fails (part'.compile (c.environment depth)) b' failure →
        Fails (part.compile (c.environment depth)) b failure := by
  have he := c.sound_environment depth
  have hb : b.In b.setting := ⟨rfl, hframes⟩
  have hsound : b.setting.Sound := by
    intro base hbase
    rw [Builder.setting, hwindows] at hbase
    cases hbase
  have hdistinct : b.stack.Distinct := by
    rw [hb.distinct_iff, Builder.names_of_symbols_nil hsymbols]
    exact .nil
  have hiff : ∀ part, DistinctThroughout (c.environment depth) part b ↔
      NamesNewErrors (c.environment depth) part b := fun part =>
    (distinctThroughout_iff he hb hsound).trans (and_iff_right hdistinct)
  refine ⟨hiff, fun part hpart => (hiff part).mpr (namesNewErrors_of_namesErrors hpart), ?_,
    fun part part' b' failure hreach hfatal => hreach.fails he hb hfatal⟩
  intro declaration op hlength
  have hstart := (b.sound_isolated c.options).push (parameterSymbols declaration op)
  exact (distinctThroughout_iff he (b.in_alone c.options _) hstart).trans
    (and_congr_left fun _ => b.alone_distinct_iff c.options hlength)

/-- An operator with two parameters of one name, up to case. -/
def homonymousDeclaration : OperatorDeclaration where
  position := .none
  name := "f"
  parameters := [⟨"a", .missing, false⟩, ⟨"A", .missing, false⟩]
  returnType := .missing
  body := .block .none []

/-- A program without handlers, and an operator with two parameters of one name. -/
theorem distinctThroughout_iff_namesNewErrors_restriction :
    let b := Builder.start {} { catalog := Builder.relationalCatalog (.anyRows .table) }
    let op : Operator :=
      { serial := 1, name := "f", signature := .ofTypes [.any, .any], returnType := none }
    DistinctThroughout (({} : Compiler).environment 1) (.stmt Builder.restrictionProgram) b ∧
      ¬ DistinctThroughout (({} : Compiler).environment 1) (.stmt homonymousDeclaration.body)
        (b.alone {} (parameterSymbols homonymousDeclaration op)) := by
  intro b op
  obtain ⟨-, hnone, hbody, -⟩ := distinctThroughout_iff_namesNewErrors (c := {}) (b := b) rfl rfl
    (Nat.le_refl _) 1
  refine ⟨hnone _ (by decide), fun h => ?_⟩
  have hnames := ((hbody homonymousDeclaration op rfl).mp h).1
  revert hnames
  unfold DistinctNames
  decide +kernel

/-- A catalog with the truth values and the errors. -/
def errorCatalog : Catalog where
  objects :=
    [("System.Boolean", .scalarType { serial := 1, name := "System.Boolean", native := .boolean }),
      ("System.Error", .scalarType { serial := 2, name := "System.Error" })]

/-- A variable. -/
def shadowedVariable : Stmt :=
  .declaration .none "e" .missing (.literal .none (.boolean true) "") false

/-- A variable, and a handler that names its error like the variable, up to case. -/
def shadowingProgram : Stmt :=
  .block .none [shadowedVariable, .try .none (.block .none []) "E" (.block .none [])]

/-- The names of the variables that the handler sees. -/
def handlerNames (e : Environment) (b : Builder) : List String :=
  match compileBlock e [shadowedVariable] (b.enter []) with
  | (.ok _, b) =>
    match caughtType e .none (.block .none []) "E" b with
    | (.ok type, b) => ((b.enter [{ name := "E", type }]).within .handler).stack.visible.map (·.name)
    | (.error _, _) => []
  | (.error _, _) => []

theorem exists_reaches_of_handlerNames (h : handlerNames e b = names) (hnames : names ≠ []) : ∃ part b',
      Reaches e (.stmt shadowingProgram) b part b' ∧ b'.stack.visible.map (·.name) = names := by
  unfold handlerNames at h
  split at h
  · rename_i plans b₁ hbefore
    split at h
    · rename_i type b₂ hcaught
      have htry : Enters e (.stmt (.block .none ([shadowedVariable] ++
          [.try .none (.block .none []) "E" (.block .none [])]))) b
          (.stmt (.try .none (.block .none []) "E" (.block .none []))) b₁ := .statement hbefore
      exact ⟨_, _, (Reaches.refl.enter htry).enter (.handler hcaught rfl), h⟩
    · exact absurd h.symm hnames
  · exact absurd h.symm hnames

/-- A program that is compiled without messages, in which a handler sees two variables of one name. -/
theorem exists_reaches_not_distinct : ∃ c statement b part b' p b'', b.stack.symbols = [] ∧
    Reaches (c.environment (nestingBound b)) (.stmt statement) (b.enter []) part b' ∧
    ¬ b'.stack.Distinct ∧ Builder.build c statement b = (.ok p, b'') ∧ b''.messages = [] := by
  let b := Builder.start {} { catalog := errorCatalog }
  have hnames : handlerNames (({} : Compiler).environment (nestingBound b)) (b.enter []) =
      ["E", "e"] := by decide +kernel
  have hbuild : (Builder.build {} shadowingProgram b).1.isOk ∧
      (Builder.build {} shadowingProgram b).2.messages = [] := by decide +kernel
  obtain ⟨part, b', hreach, hvisible⟩ := exists_reaches_of_handlerNames hnames (by simp)
  rcases hrun : Builder.build {} shadowingProgram b with ⟨_ | p, b''⟩ <;> rw [hrun] at hbuild
  · cases hbuild.1
  · refine ⟨{}, shadowingProgram, b, part, b', p, b'', rfl, hreach, ?_, hrun, hbuild.2⟩
    unfold Stack.Distinct DistinctNames
    rw [hvisible]
    decide +kernel

end Compiler

end Relational
