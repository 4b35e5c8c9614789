import Relational.Proofs.Compile.Neighbours

/-!
# Failures of parts

A fatal failure of a part ends the compilation of the part around it with the same failure, since nothing
on the way recovers from it: expressions fail with any of their parts, scopes are left with the outcome of
what was compiled in them, and a block only goes on after failures that are not fatal.
-/

namespace Relational

open Compiling List

variable {e : Environment} {Γ Γ' : Setting} {b b' : Builder} {fail : Failure} {syms : List Symbol}
  {x y : Expr} {part : Part}

variable {s : Stmt}

namespace Builder.In

theorem enter (h : b.In Γ) (syms : List Symbol) : (b.enter syms).In (Γ.enter syms) :=
  h.openFrame.pushAll syms

theorem of_enter (h : (b.enter syms).In Γ) : b.In b.setting := by
  have hframes := h.frames
  simp only [Builder.enter, Stack.pushAll_eq, Stack.openFrame, length_append, length_take,
    length_cons, length_drop] at hframes
  exact ⟨rfl, by omega⟩

theorem within (h : b.In Γ) (place : Enclosure) : (b.within place).In (Γ.within place) :=
  ⟨by rw [← h.setting]; rfl, h.frames⟩

end Builder.In

/-! ### Failures of actions -/

/-- An action that ends with a failure. -/
def Fails {α : Type} (action : Compiling α) (b : Builder) (failure : Failure) : Prop :=
  (action b).1 = .error (.raised failure)

namespace Fails

variable {α β : Type} {act : Compiling α} {val : α} {next : α → Compiling β}

theorem bind (h : Fails act b fail) (next : α → Compiling β) : Fails (act >>= next) b fail := by
  unfold Fails at h ⊢
  rw [bind_apply]
  rcases hrun : act b with ⟨_ | _, b'⟩ <;> rw [hrun] at h
  · cases h
    rfl
  · cases h

theorem after (heq : act b = (.ok val, b')) (h : Fails (next val) b' fail) : Fails (act >>= next) b fail := by
  unfold Fails
  rw [bind_apply, heq]
  exact h

/-- The steps that another action takes first succeed here as well. -/
theorem follow {γ : Type} {next' : α → Compiling γ} {last : β} (heq : (act >>= next) b = (.ok last, b'))
    (h : ∀ val b₁, next val b₁ = (.ok last, b') → Fails (next' val) b₁ fail) :
    Fails (act >>= next') b fail := by
  obtain ⟨val, b₁, hfirst, hrest⟩ := exists_of_bind_ok heq
  exact .after hfirst (h val b₁ hrest)

theorem map (h : Fails act b fail) (f : α → β) : Fails (f <$> act) b fail := by
  exact h.bind _

theorem inScope {Q : α → Prop} (h : Fails act (b.enter syms) fail) (hb : b.In Γ)
    (hruns : Runs (Γ.enter syms) act (fun val Γ' => Γ'.Extends (Γ.enter syms) ∧ Q val)
      (·.Extends (Γ.enter syms))) : Fails (Compiling.inScope syms act) b fail :=
  (inScope_fst hruns hb).trans h

theorem inWindow {Q : α → Prop} (h : Fails act b.hide fail) (hb : b.In Γ)
    (hkeeps : Keeps Γ.hide act Q) : Fails (Compiling.inWindow act) b fail := by
  have hends := hkeeps b.hide hb.openWindow
  change (leaveScope (b.stack.guard true) (act b.hide)).1 = _
  unfold Fails at h
  rcases hrun : act b.hide with ⟨abort | value, b'⟩ <;> rw [hrun] at h hends
  · obtain ⟨_, hb', rfl⟩ := hends
    obtain ⟨b'', heq, -⟩ := hb.leaveWindow [] hb' (.error abort : Except Abort α)
    rw [heq]
    exact h
  · cases h

theorem within {place : Enclosure} (h : Fails act (b.within place) fail) :
    Fails (Compiling.within place act) b fail :=
  h

theorem safely {act : Compiling Plan} (h : Fails act b fail) (hfatal : fail.isFatal)
    (pos : Position) : Fails (Compiling.safely (some pos) act) b fail := by
  unfold Fails at h ⊢
  unfold Compiling.safely
  rcases hrun : act b with ⟨abort | p, b'⟩ <;> rw [hrun] at h
  · obtain rfl : abort = .raised fail := Except.error.inj h
    have hraised : (Abort.raised fail).toFailure pos = fail := rfl
    simp only [hraised, hfatal, if_true]
  · cases h

end Fails

/-! ### Parts in a row -/

theorem compileArguments_append (before rest : List Expr) : compileArguments e (before ++ rest) = do
      let first ← compileArguments e before
      return first ++ (← compileArguments e rest) := by
  induction before with
  | nil => simp [compileArguments]
  | cons x before ih => simp [compileArguments, ih]

theorem compileBranches_append (s : Option Plan) (before rest : List (Expr × Stmt)) :
    compileBranches e s (before ++ rest) = do
      let first ← compileBranches e s before
      return first ++ (← compileBranches e s rest) := by
  induction before with
  | nil => simp [compileBranches]
  | cons item before ih => simp [compileBranches, ih]

theorem compileRows_append (cols : Option Columns) (before rest : List Expr) :
    compileRows e cols (before ++ rest) = do
      let first ← compileRows e cols before
      let last ← compileRows e first.1 rest
      return (last.1, first.2 ++ last.2) := by
  induction before generalizing cols with
  | nil => simp [compileRows]
  | cons x before ih =>
    rw [cons_append, compileRows, compileRows, bind_assoc]
    refine bind_congr fun q => ?_
    cases q.type.filter Ty.isRow with
    | none =>
      rw [bind_assoc]
      rfl
    | some type => simp [ih]

theorem compileElements_append (isInferred : Bool) (type : Option Ty) (before rest : List Expr) :
    compileElements e isInferred type (before ++ rest) = do
      let first ← compileElements e isInferred type before
      let last ← compileElements e isInferred first.1 rest
      return (last.1, first.2 ++ last.2) := by
  induction before generalizing type with
  | nil => simp [compileElements]
  | cons x before ih => cases isInferred <;> simp [compileElements, ih]

theorem compileItems_append (s : Option Plan) (type : Option Ty) (before rest : List (Expr × Expr)) :
    compileItems e s type (before ++ rest) = do
      let first ← compileItems e s type before
      let last ← compileItems e s first.2 rest
      return (first.1 ++ last.1, last.2) := by
  induction before generalizing type with
  | nil => simp [compileItems]
  | cons item before ih => simp [compileItems, ih]

theorem compileColumns_append (p : Position) (syms : List Symbol) (done : Columns)
    (before rest : List (String × Expr)) : compileColumns e p syms done (before ++ rest) = do
      let first ← compileColumns e p syms done before
      return first ++ (← compileColumns e p syms
        (done ++ first.map fun (name, type, _) => (name, type)) rest) := by
  induction before generalizing done with
  | nil => simp [compileColumns]
  | cons col before ih =>
    rw [cons_append, compileColumns, compileColumns]
    split
    · rfl
    · rw [bind_assoc]
      refine bind_congr fun plan => ?_
      cases plan.type with
      | none =>
        rw [bind_assoc]
        rfl
      | some type => simp [ih]

/-! ### Steps before a part -/

section Prefixes

variable (he : e.Sound)

include he

theorem keeps_branchesBefore (sel : Expr) (items : List (Expr × Stmt)) : Keeps Γ (do
    compileBranches e (← selectorPlan e sel) items) fun _ => True :=
  (he.scopes.selectorPlan Γ sel).bind fun _ hs =>
    .imp (compiles_compileBranches he Γ hs items).runs fun _ _ => trivial

theorem keeps_branchTested (sel cond : Expr) (items : List (Expr × Stmt)) : Keeps Γ (do
    let s ← selectorPlan e sel
    let _ ← compileBranches e s items
    branchCondition e cond.position? s (← compileExpr e cond)) fun _ => True :=
  (he.scopes.selectorPlan Γ sel).bind fun _ hs => .bind (compiles_compileBranches he Γ hs items).runs
    fun _ _ => (he.compileExpr Γ cond).bind fun _ hq =>
      ((he.calls Γ).branchCondition _ hs hq).imp fun _ _ => trivial

theorem keeps_loopVariable (p : Position) (name : String) (src : Expr) :
    Keeps Γ (loopVariable e p name src) fun _ => name = "" ∨ IsNewName Γ.names name := by
  refine (he.compileExpr Γ src).bind fun _ hsrc => ?_
  refine ((he.calls Γ).elementType _ hsrc).bind fun type _ => ?_
  have hcheck : Keeps Γ (checkLoopVariable p name type) fun _ =>
      name = "" ∨ IsNewName Γ.names name := by
    unfold checkLoopVariable
    split
    · rename_i hname
      split
      · exact Keeps.pure (.inl hname)
      · exact Keeps.raise
    · refine Keeps.get.bind fun b hb => ?_
      dsimp only
      split
      · rename_i hcolls
        exact Keeps.pure (.inr (hb.collisions_eq_nil_iff.mp (isEmpty_iff.mp hcolls)))
      · exact Keeps.raise
  exact hcheck.bind fun _ hname => Keeps.pure hname

theorem keeps_caughtType (p : Position) (body : Stmt) (name : String) :
    Keeps Γ (caughtType e p body name) fun _ => True :=
  (declares_compileStmt he (Γ.enter []) body).inScope.bind fun _ _ =>
    ((he.calls Γ).errorType p name).imp fun _ _ => trivial

end Prefixes

/-! ### Steps into parts -/

theorem fails_first (h : x.first? = some y) (hfails : Fails (compileExpr e y) b fail) :
    Fails (compileExpr e x) b fail := by
  cases x with
  | chain p parts =>
    rw [Expr.first?] at h
    split at h
    · cases h
    · rename_i hnames
      obtain ⟨hcall, hname⟩ := Bool.or_eq_false_iff.mp (Bool.eq_false_iff.mpr hnames)
      obtain ⟨rest, rfl⟩ := head?_eq_some_iff.mp h
      rw [compileExpr, hcall, hname]
      have hfirst : Fails (compileFirst e (y :: rest)) b fail := hfails
      exact hfirst.bind _
  | binary | unary =>
    obtain ⟨name, hname, heq⟩ := Option.map_eq_some_iff.mp h
    obtain rfl := heq
    rw [compileExpr, hname]
    exact hfails.bind _
  | case p sel items last =>
    rw [Expr.first?] at h
    split at h
    · cases h
    · rename_i hsel
      cases h
      rw [compileExpr, if_neg hsel]
      exact (hfails.map some).bind _
  | conditional | restrict | project | remove | rename | extend | join =>
    cases h
    exact hfails.bind _
  | _ => cases h

theorem fails_firstOf (h : s.first? = some y) (hfails : Fails (compileExpr e y) b fail) :
    Fails (compileStmt e s) b fail := by
  cases s with
  | case p sel items last =>
    rw [Stmt.first?] at h
    split at h
    · cases h
    · rename_i hsel
      cases h
      rw [compileStmt, if_neg hsel]
      exact (hfails.map some).bind _
  | raise p error =>
    rw [Stmt.first?] at h
    split at h
    · cases h
    · rename_i herror
      cases h
      rw [compileStmt, if_neg herror]
      exact hfails.bind _
  | expression p val =>
    cases h
    exact hfails
  | conditional | «while» | forEach =>
    cases h
    exact hfails.bind _
  | _ => cases h

theorem selectorPlan_bind {α : Type} (sel : Expr) (next : Option Plan → Compiling α) :
    (if sel.isMissing then pure none >>= next else some <$> compileExpr e sel >>= next) =
      selectorPlan e sel >>= next := by
  unfold selectorPlan
  split <;> rfl

theorem fails_compileBlock (hfatal : fail.isFatal) (hfails : Fails (compileStmt e s) b fail)
    (after : List Stmt) : Fails (compileBlock e (s :: after)) b fail := by
  have hs : s ≠ .missing := by
    rintro rfl
    cases hfails
  obtain ⟨pos, hpos⟩ := Stmt.exists_position hs
  rw [compileBlock, hpos]
  exact (hfails.safely hfatal pos).bind _

theorem compileChainCall_concat (names : List String) (parts : List Expr) (q : Position) (name : String)
    (args : List Expr) : compileChainCall e names (parts ++ [.call q name args]) =
      compileArguments e args >>= compileCall e q (".".intercalate (names ++ [name])) := by
  induction parts with
  | nil => rw [nil_append, compileChainCall]
  | cons part parts ih =>
    rw [cons_append, compileChainCall, ih]
    simp

section Scopes

variable (he : e.Sound) (hb : (b.enter syms).In Γ)

include he hb

theorem fails_inScope_compileExpr (h : Fails (compileExpr e x) (b.enter syms) fail) :
    Fails (inScope syms (compileExpr e x)) b fail :=
  h.inScope hb.of_enter (he.compileExpr _ x).extending

theorem fails_inScope_condition (h : Fails (compileExpr e x) (b.enter syms) fail) :
    Fails (inScope syms do asCondition e x.position? (← compileExpr e x)) b fail :=
  (h.bind _).inScope hb.of_enter
    (Keeps.extending ((he.compileExpr _ x).bind fun _ hq => (he.calls _).asCondition _ hq))

theorem fails_inScope_compileStmt (h : Fails (compileStmt e s) (b.enter syms) fail) :
    Fails (inScope syms (compileStmt e s)) b fail :=
  h.inScope hb.of_enter (declares_compileStmt he _ s).extending

end Scopes

theorem Enters.fails_of_expr (h : Enters e (.expr x) b part b') (he : e.Sound) (hb' : b'.In Γ)
    (hfails : Fails (part.compile e) b' fail) : Fails (compileExpr e x) b fail := by
  cases h with
  | first h => exact fails_first h hfails
  | argument h =>
    rw [compileExpr, compileArguments_append, compileArguments]
    exact (Fails.after h ((hfails.bind _).bind _)).bind _
  | @chainArgument _ _ p q name parts before after x _ h =>
    have hcall : endsWithCall (parts ++ [.call q name (before ++ x :: after)]) := by
      simp [endsWithCall]
    rw [compileExpr, if_pos hcall, dropLast_concat]
    refine .follow h fun _ _ h => ?_
    rw [compileChainCall_concat, compileArguments_append, compileArguments]
    exact (Fails.after h ((hfails.bind _).bind _)).bind _
  | rightOperand hname h =>
    rw [compileExpr, hname]
    exact .follow h fun _ _ h => .after h (hfails.bind _)
  | thenValue h =>
    exact .follow h fun _ _ h => .follow h fun _ _ h =>
      .after h ((fails_inScope_compileExpr he hb' hfails).bind _)
  | elseValue h hsecond =>
    obtain ⟨_, b₁, h, hfirst⟩ := exists_of_bind_ok h
    refine .follow h fun _ _ h => .follow h fun _ _ h => .after h (.after hfirst ?_)
    rw [hsecond]
    exact (fails_inScope_compileExpr he hb' hfails).bind _
  | caseCondition h =>
    rw [compileExpr, selectorPlan_bind]
    refine .follow h fun _ _ h => Fails.bind ?_ _
    rw [compileItems_append]
    refine Fails.after h ?_
    exact (hfails.bind _).bind _
  | caseValue h =>
    rw [compileExpr, selectorPlan_bind]
    refine .follow h fun _ _ h => Fails.bind ?_ _
    obtain ⟨done, b₁, hbefore, h⟩ := exists_of_bind_ok h
    rw [compileItems_append]
    refine Fails.after hbefore (Fails.bind ?_ _)
    exact .follow h fun _ _ h => .after h ((fails_inScope_compileExpr he hb' hfails).bind _)
  | caseElse h hlast =>
    rw [compileExpr, selectorPlan_bind]
    refine .follow h fun _ _ h => .after h ?_
    rw [hlast]
    exact (fails_inScope_compileExpr he hb' hfails).bind _
  | column h hname =>
    rw [compileExpr, compileColumns_append]
    refine (Fails.after h ?_).bind _
    rw [compileColumns, if_neg (by simpa [Columns.has] using hname)]
    exact ((fails_inScope_compileExpr he hb' hfails).bind _).bind _
  | row h =>
    refine .follow h fun _ _ h => Fails.bind ?_ _
    rw [compileRows_append]
    refine Fails.after h ?_
    exact (hfails.bind _).bind _
  | element h =>
    refine .follow h fun _ _ h => Fails.bind ?_ _
    rw [compileElements_append]
    refine Fails.after h ?_
    exact (hfails.bind _).bind _
  | restriction h =>
    exact .follow h fun _ _ h => .after h ((fails_inScope_condition he hb' hfails).bind _)
  | @computed _ _ _ p src val name before after heading vals hhead h hname =>
    refine .follow hhead fun _ _ hhead => .after hhead ?_
    rw [compileColumns_append]
    refine (Fails.after h ?_).bind _
    have hhas : ¬ Columns.has (heading.columns ++ vals.map fun (name, type, _) => (name, type))
        name := by
      simpa [Columns.has, Columns.names, not_or] using hname
    rw [compileColumns, if_neg hhas]
    exact ((fails_inScope_compileExpr he hb' hfails).bind _).bind _
  | joinRight h =>
    exact Fails.after h (hfails.bind _)
  | joinCondition h hcond =>
    refine .follow h fun _ _ h => .follow h fun _ _ h => .follow h fun _ _ h => .follow h fun _ _ h => ?_
    obtain ⟨_, b₁, hdisjoint, h⟩ := exists_of_bind_ok h
    cases h
    rw [hcond]
    exact .after hdisjoint ((fails_inScope_condition he hb' hfails).bind _)

theorem Enters.fails_of_stmt (h : Enters e (.stmt s) b part b') (he : e.Sound) (hb : b.In Γ)
    (hb' : b'.In Γ') (hfatal : fail.isFatal) (hfails : Fails (part.compile e) b' fail) :
    Fails (compileStmt e s) b fail := by
  cases h with
  | firstOf h => exact fails_firstOf h hfails
  | @statement _ _ p before after s plans h =>
    refine .inScope (Q := fun _ => True) (.bind ?_ _) hb ?_
    · rw [compileBlock_append]
      exact .after h ((fails_compileBlock hfatal hfails after).bind _)
    · refine (compiles_compileBlock he (Γ.enter []) _).runs.bind ?_
      rintro ps _ ⟨rfl, -⟩
      exact .pure ⟨⟨_, rfl⟩, trivial⟩
  | @defaultValue _ _ p name spec _ isConstant type hnew h hdefault =>
    have hb₁ := (Keeps.ends h hb ((he.types Γ Γ).specifiedType _)).1
    have hval := Fails.inWindow hfails hb₁ (he.compileExpr _ _)
    have hget : (get : Compiling Builder) b = (.ok b, b) := rfl
    refine .after hget ?_
    rw [hnew, if_pos isEmpty_nil, hdefault]
    cases spec <;> exact .after h (hval.bind _)
  | assigned h =>
    exact .after h (hfails.bind _)
  | thenBranch h =>
    exact .follow h fun _ _ h => .follow h fun _ _ h =>
      .after h ((fails_inScope_compileStmt he hb' hfails).bind _)
  | elseBranch h hsecond =>
    obtain ⟨_, b₁, h, hfirst⟩ := exists_of_bind_ok h
    refine .follow h fun _ _ h => .follow h fun _ _ h => .after h (.after hfirst ?_)
    rw [hsecond]
    exact (fails_inScope_compileStmt he hb' hfails).bind _
  | branchCondition h =>
    rw [compileStmt, selectorPlan_bind]
    refine .follow h fun _ _ h => .bind ?_ _
    rw [compileBranches_append, compileBranches]
    exact .after h ((hfails.bind _).bind _)
  | branch h =>
    rw [compileStmt, selectorPlan_bind]
    refine .follow h fun _ _ h => .bind ?_ _
    obtain ⟨done, b₁, hbefore, h⟩ := exists_of_bind_ok h
    rw [compileBranches_append, compileBranches]
    refine .after hbefore (.bind ?_ _)
    exact .follow h fun _ _ h => .after h ((fails_inScope_compileStmt he hb' hfails).bind _)
  | lastBranch h hlast =>
    rw [compileStmt, selectorPlan_bind]
    refine .follow h fun _ _ h => .after h ?_
    rw [hlast]
    exact (fails_inScope_compileStmt he hb' hfails).bind _
  | whileBody h =>
    have hbody := Fails.inScope hfails hb'.of_enter (declares_compileStmt he _ _).extending
    exact .follow h fun _ _ h => .after h (hbody.within.bind _)
  | loopBody h =>
    refine .follow h fun _ _ h => .follow h fun _ _ h => ?_
    obtain ⟨_, b₁, hnew, h⟩ := exists_of_bind_ok h
    cases h
    refine .after hnew (.bind ?_ _)
    exact .inScope (.within hfails) (.of_enter ⟨rfl, hb'.frames⟩)
      (declares_compileStmt he _ _).within.extending
  | tryBody =>
    exact (fails_inScope_compileStmt he hb' hfails).bind _
  | handler h hhandler =>
    refine .follow h fun _ _ h => .after h ?_
    rw [hhandler]
    refine .bind ?_ _
    exact .inScope (.within hfails) (.of_enter ⟨rfl, hb'.frames⟩)
      (declares_compileStmt he _ _).within.extending

/-- A fatal failure of a part is the failure of the part around it. -/
theorem Enters.fails {part' : Part} (h : Enters e part b part' b') (he : e.Sound) (hb : b.In Γ)
    (hb' : b'.In Γ') (hfatal : fail.isFatal) (hfails : Fails (part'.compile e) b' fail) :
    Fails (part.compile e) b fail := by
  cases part with
  | expr x => exact h.fails_of_expr he hb' hfails
  | stmt s => exact h.fails_of_stmt he hb hb' hfatal hfails

end Relational
