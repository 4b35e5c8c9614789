import Relational.Proofs.Compile.Expression
import Relational.Proofs.Compile.Placeholders

/-!
# Compiled statements

Compiling a statement leaves the setting as it is, but for the variable that it declares; the plan is a
statement of the setting. A statement that fails declares nothing. Errors are recorded if and only if there
are placeholders in the plan.
-/

namespace Relational

open Compiling Vocabulary

variable {e : Environment} {Γ : Setting} {opts : CompilerOptions} {b : Builder} {pos : Position}
  {cause : Cause}

/-! ### Steps of statements -/

/-- From a setting, and after messages with errors or not, an action ends in settings as stated, and it
tells by its value whether there are errors then. -/
structure Compiles {α : Type} (e : Environment) (Γ : Setting) (told : Bool) (action : Compiling α)
    (ok : α → Setting → Prop) (err : Setting → Prop) (hasErrors : α → Bool) : Prop where
  runs : Runs Γ action ok err
  tells : ∀ {c : Compiler}, e.Warns c → Tells c Γ told action hasErrors

/-- An action that leaves the symbol that its plan declares, with errors if there are placeholders. -/
def CompilesPlan (e : Environment) (Γ : Setting) (told : Bool) (action : Compiling Plan)
    (Q : Plan → Prop) : Prop :=
  Compiles e Γ told action (fun p Γ' => Γ' = Γ.declare p ∧ Q p) (· = Γ) Plan.hasNoOp

section Steps

variable {α β : Type} {told : Bool} {act : Compiling α} {Q : α → Prop} {next : α → Compiling β}
  {ok : β → Setting → Prop} {hasErrors : β → Bool}

/-- A step that records warnings only. -/
theorem Keeps.bind_compiles (h : Keeps Γ act Q) (hwarns : ∀ {c}, e.Warns c → Warns c act)
    (hnext : ∀ val, Q val → Compiles e Γ told (next val) ok (· = Γ) hasErrors) :
    Compiles e Γ told (act >>= next) ok (· = Γ) hasErrors where
  runs := h.bind_runs fun val hval => (hnext val hval).runs
  tells hc := (Tells.of_warns (hwarns hc)).bind_keeps h fun val hval => (hnext val hval).tells hc

namespace Compiles

theorem bind {hasErrors' : α → Bool}
    (h : Compiles e Γ false act (fun val Γ' => Γ' = Γ ∧ Q val) (· = Γ) hasErrors')
    (hnext : ∀ val, Q val → Compiles e Γ (told || hasErrors' val) (next val) ok (· = Γ) hasErrors) :
    Compiles e Γ told (act >>= next) ok (· = Γ) hasErrors where
  runs := Keeps.bind_runs h.runs fun val hval => (hnext val hval).runs
  tells hc := (h.tells hc).after.bind_keeps h.runs fun val hval => (hnext val hval).tells hc

theorem absent : Compiles e Γ told (throw Abort.absent) ok (· = Γ) hasErrors :=
  ⟨Runs.throw rfl, fun _ => Tells.throw (Abort.isOrderly_fault rfl)⟩

theorem make {con : Construct} {p : Position} {children : List Plan}
    {Q : Plan → Prop} (h : Q (.make con none p children)) (hkids : children.any Plan.hasNoOp = told)
    (hnone : (Plan.make con none p children).declaredSymbol? = none)
    (hkind : decide (con.kind = .noOp) = false) :
    CompilesPlan e Γ told (pure (.make con none p children)) Q := by
  refine ⟨Declares.of_keeps (Keeps.pure ⟨hnone, h⟩), fun _ => Tells.pure ?_⟩
  rw [Plan.hasNoOp_make, hkind, Bool.false_or, hkids]

theorem raise (h : cause.blamesStack = false) :
    Compiles e Γ told (Compiling.raise pos cause) ok (· = Γ) hasErrors :=
  ⟨Runs.throw rfl, fun _ => Tells.throw ((Abort.isMild_ofCause h).isOrderly.at_ pos)⟩

theorem raise_bind (h : cause.blamesStack = false) :
    Compiles e Γ told (Compiling.raise pos cause >>= next) ok (· = Γ) hasErrors :=
  Keeps.bind_compiles (Q := fun _ => False) Keeps.raise (fun _ => .raise h) fun _ h => h.elim

end Compiles

namespace CompilesPlan

variable {act : Compiling Plan} {Q : Plan → Prop}

theorem inScope {syms : List Symbol} (h : CompilesPlan e (Γ.enter syms) false act Q) :
    Compiles e Γ false (Compiling.inScope syms act) (fun p Γ' => Γ' = Γ ∧ Q p) (· = Γ) Plan.hasNoOp :=
  ⟨Declares.inScope h.runs, fun hc => (h.tells hc).inScope⟩

theorem within {place : Enclosure} (h : CompilesPlan e (Γ.within place) false act Q) :
    CompilesPlan e Γ false (Compiling.within place act) Q :=
  ⟨Declares.within h.runs, fun hc => (h.tells hc).within⟩

end CompilesPlan

end Steps

/-! ### Blocks -/

theorem isBlock_nil : IsBlock opts Γ [] := by
  simp [IsBlock]

theorem isBlock_cons {p : Plan} {ps : List Plan} (hp : IsStatement opts Γ p)
    (hps : IsBlock opts (Γ.declare p) ps) : IsBlock opts Γ (p :: ps) := by
  intro i q hq
  cases i with
  | zero =>
    cases hq
    exact hp
  | succ i =>
    rw [List.take_succ_cons, Setting.declareAll_cons]
    exact hps i q hq

/-! ### Variables -/

theorem Builder.In.push (h : b.In Γ) (sym : Symbol) :
    Builder.In (Γ.push [sym]) { b with stack := b.stack.push sym } :=
  h.pushAll [sym]

theorem keeps_typedValue (he : e.Sound) (type : Option Ty) {default : Option (Option Position × Plan)}
    (hdefault : ∀ entry ∈ default, IsExpression e.options Γ.hide entry.2) :
    Keeps Γ (typedValue e type default) fun x => (∀ q ∈ x.2, IsExpression e.options Γ.hide q) ∧
      ∀ declared ∈ x.1, ∀ q ∈ x.2, q.StoredAs e.options.widen declared := by
  rcases default with _ | ⟨pos, val⟩
  · exact .pure (by simp)
  · have hval := hdefault _ rfl
    cases type with
    | none => exact .pure (by simpa using ⟨hval, fun _ => .of_type⟩)
    | some type =>
      exact ((he.types Γ Γ.hide).convert pos hval trivial).bind fun q hq =>
        Keeps.pure ⟨by simpa using hq.1, by simpa using hq.2⟩

theorem compiles_declare (he : e.Sound) (p : Position) {name : String} (type : Option Ty)
    (default : Option (Option Position × Plan)) (isConstant : Bool) (hnew : IsNewName Γ.names name)
    (hdefault : ∀ entry ∈ default, IsExpression e.options Γ.hide entry.2) :
    CompilesPlan e Γ false (declare e p name type default isConstant) (IsStatement e.options Γ) := by
  unfold declare
  refine (keeps_typedValue he type hdefault).bind_compiles
    (·.steps.typedValue (expresses_all type) (expresses_all default)) fun x hx => ?_
  unfold declareAs
  split
  · exact ⟨Runs.throw rfl, fun _ => Tells.throw (Abort.isOrderly_missingType name p)⟩
  · rename_i declared hdecl
    split
    · exact Compiles.raise_bind rfl
    · have hpush : ∀ sym, Runs Γ (push sym) (fun _ Γ' => Γ' = Γ.push [sym]) (· = Γ) :=
        fun sym => Runs.modify fun b hb => hb.push sym
      refine ⟨(hpush _).bind ?_, fun {c} _ => ?_⟩
      · rintro _ _ rfl
        exact Runs.pure ⟨rfl, .declaration hnew hx.1
          (hx.2 declared (Option.eq_some_of_filter_eq_some hdecl))⟩
      · have hwarns : ∀ sym, Warns c (push sym) := fun _ => Warns.modify fun _ => .refl _
        refine (Tells.of_warns (hwarns _)).bind (hpush _) fun _ _ _ => Tells.pure ?_
        rw [Plan.hasNoOp_make]
        simpa [Construct.kind] using fun q hq => (hx.1 q hq).hasNoOp_eq

theorem keeps_assignmentTarget (he : e.Sound) (p : Position) (name : String) :
    Keeps Γ (assignmentTarget e p name) fun res => ∃ sym,
      Γ.visible[res.1.index]? = some sym ∧ sym.name = res.1.name ∧ sym.name ≠ "" ∧
        sym.isConstant = false ∧ sym.type = res.2 ∧ res.1.column = none := by
  refine (keeps_lookUp he .symbols p name).bind fun found hfound => ?_
  split
  · rename_i location sym _
    obtain ⟨hsym, hname⟩ := hfound _ _ _ rfl
    split
    · exact .raise
    · rename_i hcol
      split
      · exact .raise
      · rename_i hconst
        have hnone : location.column = none := by simpa [Location.isColumn] using hcol
        have hvar : sym.isConstant = false := by simpa using hconst
        exact .pure ⟨_, hsym, (hname hnone).1.symm, (hname hnone).2, hvar, rfl, hnone⟩
  · exact Keeps.get.bind fun _ _ => Keeps.raise

theorem keeps_checkLoopVariable (p : Position) (name : String) (type : Ty) :
    Keeps Γ (checkLoopVariable p name type) fun _ => True := by
  unfold checkLoopVariable
  split
  · split
    · exact Keeps.pure trivial
    · exact Keeps.raise
  · refine Keeps.get.bind fun b _ => ?_
    dsimp only
    split
    · exact Keeps.pure trivial
    · exact Keeps.raise

/-! ### Statements -/

theorem Builder.In.nesting_eq (h : b.In Γ) : b.nesting = Γ.nesting := by
  rw [← h.setting]
  rfl

theorem Setting.Extends.of_declare {Γ' : Setting} {p : Plan} (h : Γ'.Extends (Γ.declare p)) :
    Γ'.Extends Γ := by
  obtain ⟨more, rfl⟩ := h
  exact ⟨_, Γ.push_push _ more⟩

mutual

/-- The plan of a statement is a statement of the setting, which stays as it is but for the variable that
the statement declares. Errors are recorded if and only if there are placeholders in it. -/
theorem compiles_compileStmt (he : e.Sound) (Γ : Setting) : (s : Stmt) →
    CompilesPlan e Γ false (compileStmt e s) (IsStatement e.options Γ)
  | .missing => Compiles.absent
  | .block p stmts => by
    rw [compileStmt]
    obtain ⟨hruns, htells⟩ := compiles_compileBlock he (Γ.enter []) stmts
    refine ⟨Declares.of_keeps (Keeps.inScope (hruns.bind ?_)), fun hc => Tells.inScope ?_⟩
    · rintro ps _ ⟨rfl, hblock⟩
      exact Runs.pure ⟨⟨_, rfl⟩, rfl, .block hblock⟩
    · exact (htells hc).bind hruns fun ps _ _ => Tells.pure (Plan.hasNoOp_make .block none p ps)
  | .declaration p name spec default isConstant => by
    rw [compileStmt]
    have hdeclare : IsNewName Γ.names name → ∀ type, CompilesPlan e Γ false (if default.isMissing then
          declare e p name type none isConstant
        else do
          let val ← inWindow (compileExpr e default)
          declare e p name type (some (default.position?, val)) isConstant)
        (IsStatement e.options Γ) := by
      intro hnew type
      split
      · exact compiles_declare he p type none isConstant hnew (by simp)
      · refine (Keeps.inWindow (he.compileExpr Γ.hide default)).bind_compiles
          (warns_compileExpr · default |>.inWindow) fun val hval => ?_
        exact compiles_declare he p type _ isConstant hnew (by simpa using hval)
    refine Keeps.get.bind_compiles (fun _ => Warns.get) fun b hb => ?_
    dsimp only
    split
    · rename_i hcolls
      have hnew := hb.collisions_eq_nil_iff.mp (List.isEmpty_iff.mp hcolls)
      split
      · exact hdeclare hnew none
      · have htype : Keeps Γ (some <$> compileType e spec) fun _ => True :=
          Keeps.map (((he.types Γ Γ).compileType spec).imp fun _ _ => trivial)
        exact htype.bind_compiles (·.steps.compileType spec |>.map some) fun type _ =>
          hdeclare hnew type
    · exact Compiles.raise_bind rfl
  | .assignment p name val => by
    refine (keeps_assignmentTarget he p name).bind_compiles (·.steps.assignmentTarget p name) ?_
    rintro ⟨location, type⟩ ⟨sym, hsym, hname, hnamed, hconst, htype, hcol⟩
    refine (he.compileExpr Γ val).bind_compiles (warns_compileExpr · val) fun q hq => ?_
    split
    · exact Compiles.absent
    · refine ((he.types Γ Γ).convert _ hq trivial).bind_compiles
        (·.steps.convert _ (expresses_all q) (expresses_all _)) fun q' hq' => ?_
      refine (Keeps.markModified _).bind_compiles (fun _ => Warns.markModified _) fun _ _ => ?_
      exact .make (.assignment hsym hname hnamed hconst hq'.1
        (fun declared hdecl => Option.some.inj (htype.symm.trans hdecl) ▸ hq'.2) hcol)
        (by simp [hq'.1.hasNoOp_eq]) rfl rfl
  | .conditional p cond thenBranch elseBranch => by
    refine (he.compileExpr Γ cond).bind_compiles (warns_compileExpr · cond) fun q hq => ?_
    refine ((he.calls Γ).asCondition _ hq).bind_compiles
      (·.steps.asCondition _ (expresses_all q)) fun q' hq' => ?_
    refine ((he.calls Γ).checkReachable p q' _).bind_compiles
      (·.steps.checkReachable p q' _) fun _ _ => ?_
    refine (compiles_compileStmt he (Γ.enter []) thenBranch).inScope.bind fun first hfirst => ?_
    split
    · exact .make (.conditional hq' (by simpa using hfirst) (.inl rfl)) (by simp [hq'.hasNoOp_eq]) rfl rfl
    · refine (compiles_compileStmt he (Γ.enter []) elseBranch).inScope.bind fun second hsecond => ?_
      exact .make (.conditional hq' (by simpa using ⟨hfirst, hsecond⟩) (.inr rfl)) (by simp [hq'.hasNoOp_eq])
        rfl rfl
  | .case p sel items elseBranch => by
    rw [compileStmt]
    have hbranches : ∀ sel' : Option Plan, (∀ q ∈ sel', IsExpression e.options Γ q) →
        CompilesPlan e Γ false (do
          let branches ← compileBranches e sel' items
          if elseBranch.isMissing then return .make .case none p (caseChildren branches none)
          let last ← inScope [] (compileStmt e elseBranch)
          return .make .case none p (caseChildren branches (some last))) (IsStatement e.options Γ) := by
      intro sel' hsel
      refine (compiles_compileBranches he Γ hsel items).bind fun branches hbranches => ?_
      have hconds := fun branch hbranch => (hbranches branch hbranch).1
      have hbodies := fun branch hbranch => (hbranches branch hbranch).2
      split
      · exact .make (.case hconds hbodies (by simp)) (by simp [Plan.any_caseChildren]) rfl rfl
      · refine (compiles_compileStmt he (Γ.enter []) elseBranch).inScope.bind fun last hlast => ?_
        exact .make (.case hconds hbodies (by simpa using hlast)) (by simp [Plan.any_caseChildren]) rfl rfl
    split
    · exact hbranches none (by simp)
    · have hsel : Keeps Γ (some <$> compileExpr e sel) fun res =>
          ∀ q ∈ res, IsExpression e.options Γ q :=
        Keeps.map ((he.compileExpr Γ sel).imp fun _ hq => by simpa using hq)
      exact hsel.bind_compiles (warns_compileExpr · sel |>.map some) hbranches
  | .while p cond body => by
    refine (he.compileExpr Γ cond).bind_compiles (warns_compileExpr · cond) fun q hq => ?_
    refine ((he.calls Γ).asCondition _ hq).bind_compiles
      (·.steps.asCondition _ (expresses_all q)) fun q' hq' => ?_
    obtain ⟨hkeeps, htells⟩ := (compiles_compileStmt he ((Γ.within .loop).enter []) body).inScope
    refine Compiles.bind ⟨Keeps.within hkeeps, fun hc => (htells hc).within⟩ fun body' hbody => ?_
    exact .make (.whileLoop hq' hbody) (by simp [hq'.hasNoOp_eq]) rfl rfl
  | .forEach p name src body => by
    refine (he.compileExpr Γ src).bind_compiles (warns_compileExpr · src) fun q hq => ?_
    refine ((he.calls Γ).elementType _ hq).bind_compiles
      (·.steps.elementType _ (expresses_all q)) fun type _ => ?_
    refine (keeps_checkLoopVariable p name type).bind_compiles
      (·.compositional.checkLoopVariable p name type) fun _ _ => ?_
    refine (compiles_compileStmt he ((Γ.enter [{ name, type := some type }]).within .loop)
      body).within.inScope.bind fun body' hbody => ?_
    exact .make (.forEach hq hbody) (by simp [hq.hasNoOp_eq]) rfl rfl
  | .break p => by
    refine Keeps.get.bind_compiles (fun _ => Warns.get) fun b hb => ?_
    split
    · exact Compiles.raise_bind rfl
    · rename_i hloops
      exact .make (.breakLoop (hb.nesting_eq ▸ Nat.pos_of_ne_zero hloops)) rfl rfl rfl
  | .continue p => by
    refine Keeps.get.bind_compiles (fun _ => Warns.get) fun b hb => ?_
    split
    · exact Compiles.raise_bind rfl
    · rename_i hloops
      exact .make (.continueLoop (hb.nesting_eq ▸ Nat.pos_of_ne_zero hloops)) rfl rfl rfl
  | .try p body name handler => by
    refine (compiles_compileStmt he (Γ.enter []) body).inScope.bind fun body' hbody => ?_
    refine ((he.calls Γ).errorType p name).bind_compiles (·.steps.errorType p name) fun type _ => ?_
    split
    · have hplan : IsStatement e.options Γ (.make (.tryHandler name type) none p
          (body' :: (none : Option Plan).toList)) := .tryHandler hbody (by simp)
      exact .make hplan (by simp) rfl rfl
    · refine (compiles_compileStmt he ((Γ.enter (if name = "" then [] else
        [{ name, type }])).within .handler) handler).within.inScope.bind fun handler' hhandler => ?_
      have hplan : IsStatement e.options Γ (.make (.tryHandler name type) none p
          (body' :: (some handler').toList)) := .tryHandler hbody (by simpa using hhandler)
      exact .make hplan (by simp) rfl rfl
  | .raise p error => by
    rw [compileStmt]
    split
    · refine Keeps.get.bind_compiles (fun _ => Warns.get) fun b hb => ?_
      split
      · exact Compiles.raise_bind rfl
      · rename_i hhandlers
        have hplan : IsStatement e.options Γ (.make .raise none p (none : Option Plan).toList) :=
          .raise (fun _ => hb.nesting_eq ▸ Nat.pos_of_ne_zero hhandlers) (by simp)
        exact .make hplan rfl rfl rfl
    · refine (he.compileExpr Γ error).bind_compiles (warns_compileExpr · error) fun q hq => ?_
      refine ((he.calls Γ).systemType p "Error").bind_compiles
        (·.steps.systemType p "Error") fun type htype => ?_
      refine ((he.types Γ Γ).convert _ hq htype).bind_compiles
        (·.steps.convert _ (expresses_all q) (expresses_all type)) fun q' hq' => ?_
      have hplan : IsStatement e.options Γ (.make .raise none p (some q').toList) :=
        .raise (fun hnone => nomatch hnone) (by simpa using hq'.1)
      exact .make hplan (by simp [hq'.1.hasNoOp_eq]) rfl rfl
  | .expression _ val => by
    rw [compileStmt, ← bind_pure (compileExpr e val)]
    refine (he.compileExpr Γ val).bind_compiles (warns_compileExpr · val) fun q hq => ?_
    exact ⟨Declares.of_keeps (Keeps.pure ⟨hq.declaredSymbol?_eq, .expression hq⟩),
      fun _ => Tells.pure hq.hasNoOp_eq⟩
  | .other p => Compiles.raise rfl

/-- The plans of the statements of a block, which leave their variables. -/
theorem compiles_compileBlock (he : e.Sound) (Γ : Setting) : (ss : List Stmt) →
    Compiles e Γ false (compileBlock e ss)
      (fun ps Γ' => Γ' = Γ.declareAll ps ∧ IsBlock e.options Γ ps) (·.Extends Γ)
      fun ps => ps.any Plan.hasNoOp
  | [] => ⟨Runs.pure ⟨rfl, isBlock_nil⟩, fun _ => Tells.pure rfl⟩
  | s :: ss => by
    rw [compileBlock]
    obtain ⟨hdeclares, htells⟩ := compiles_compileStmt he Γ s
    have hfirst := Declares.safely hdeclares (.noOp ·) s.position?
    have hrest := fun first => compiles_compileBlock he (Γ.declare first) ss
    refine ⟨Runs.bind (hfirst.imp (fun _ _ => id) fun _ => ?_) ?_, fun hc => ?_⟩
    · rintro rfl
      exact .refl _
    · rintro first _ ⟨rfl, hfirst⟩
      refine Runs.bind ((hrest first).runs.imp (fun _ _ => id) fun _ => Setting.Extends.of_declare) ?_
      rintro rest _ ⟨rfl, hrest⟩
      exact Runs.pure ⟨(Γ.declareAll_cons first rest).symm, isBlock_cons hfirst hrest⟩
    · refine ((htells hc).safely hdeclares s.position?).bind hfirst ?_
      rintro first _ ⟨rfl, -⟩
      exact ((hrest first).tells hc).after.bind (hrest first).runs fun rest _ _ => Tells.pure rfl

theorem compiles_compileBranches (he : e.Sound) (Γ : Setting) {sel : Option Plan}
    (hsel : ∀ q ∈ sel, IsExpression e.options Γ q) : (items : List (Expr × Stmt)) →
    Compiles e Γ false (compileBranches e sel items) (fun branches Γ' => Γ' = Γ ∧
      ∀ branch ∈ branches, IsExpression e.options Γ branch.1 ∧
        IsStatement e.options (Γ.enter []) branch.2) (· = Γ)
      fun branches => branches.any fun branch => branch.1.hasNoOp || branch.2.hasNoOp
  | [] => ⟨Keeps.pure (by simp), fun _ => Tells.pure rfl⟩
  | (cond, stmt) :: rest => by
    rw [compileBranches]
    refine (he.compileExpr Γ cond).bind_compiles (warns_compileExpr · cond) fun q hq => ?_
    refine ((he.calls Γ).branchCondition _ hsel hq).bind_compiles
      (·.steps.branchCondition _ (expresses_all sel) (expresses_all q)) fun q' hq' => ?_
    refine (compiles_compileStmt he (Γ.enter []) stmt).inScope.bind fun branch hbranch => ?_
    refine (compiles_compileBranches he Γ hsel rest).bind fun branches hbranches => ?_
    exact ⟨Keeps.pure (List.forall_mem_cons.mpr ⟨⟨hq', hbranch⟩, hbranches⟩),
      fun _ => Tells.pure (by simp [hq'.hasNoOp_eq])⟩

end

theorem declares_compileStmt (he : e.Sound) (Γ : Setting) (s : Stmt) :
    Declares Γ (compileStmt e s) (IsStatement e.options Γ) :=
  (compiles_compileStmt he Γ s).runs

theorem tells_compileStmt {c : Compiler} (hs : e.Sound) (he : e.Warns c) (Γ : Setting) (s : Stmt) :
    Tells c Γ false (compileStmt e s) Plan.hasNoOp :=
  (compiles_compileStmt hs Γ s).tells he

end Relational
