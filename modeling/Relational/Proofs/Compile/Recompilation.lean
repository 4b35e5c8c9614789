import Relational.Proofs.Compile.Nesting
import Relational.Proofs.Compile.Reports
import Relational.Proofs.Optimize.Congruence
import Relational.Proofs.Resolution.Evolution

/-!
# Compiling again, all or nothing

While a program is compiled, the body of an operator that was put off may be compiled, and it may be found
out what a stale derived table variable reads. Either is noted only in the end, when nothing has failed.
So whatever becomes of the program, no operator is left with a body that has placeholders, and no table
variable with what only a part of its definition reads.
-/

namespace Relational

open Compiling List

/-! ### What a plan reads -/

/-- The names are those of the table variables that a plan reads, in order and without repetition. For the
copy of a transaction it is the name of what is copied. -/
def Plan.ReadsExactly (p : Plan) (names : List String) : Prop :=
  names.Pairwise (· < ·) ∧ ∀ name, name ∈ names ↔
    ∃ node ∈ p.nodes, ∃ tv, node.construct = .tableVarReference tv ∧ tv.sourceName = name

variable {tv : TableVar} {b : Builder} {body : Plan} (name : String) (expr : Expr)

theorem Plan.readsExactly_referencedNames (p : Plan) : p.ReadsExactly (referencedNames p) := by
  refine ⟨pairwise_sortedNames _, fun name => ?_⟩
  rw [referencedNames, mem_sortedNames, mem_map]
  constructor
  · rintro ⟨tv, htv, hname⟩
    obtain ⟨node, hnode, hcon⟩ := mem_tableVars.mp htv
    exact ⟨node, hnode, tv, hcon, hname⟩
  · rintro ⟨node, hnode, tv, hcon, hname⟩
    exact ⟨tv, mem_tableVars.mpr ⟨node, hnode, hcon⟩, hname⟩

theorem Messages.failure?_eq_none_iff {ms : Messages} : ms.failure? = none ↔ ms.hasErrors = false := by
  have hparts : ∀ parts : List Failure, Failure.ofParts parts = none ↔ parts = [] := by
    intro parts
    rcases parts with _ | ⟨first, _ | ⟨second, rest⟩⟩ <;> simp [Failure.ofParts]
  rw [failure?, hparts, map_eq_nil_iff, errors, filter_eq_nil_iff, hasErrors, any_eq_false]

/-! ### Objects that are compiled again -/

section Steps

variable {α : Type} {c : Compiler} {e : Environment} {op : Operator} {b' : Builder}

theorem guardRecompile_of_not_mem {key : String} (act : Compiling α) (h : key ∉ b.recompiling) :
    guardRecompile key name act b = ((act { b with recompiling := key :: b.recompiling }).1,
        { (act { b with recompiling := key :: b.recompiling }).2 with
          recompiling := (act { b with recompiling := key :: b.recompiling }).2.recompiling.erase key }) := by
  unfold guardRecompile
  change (if b.recompiling.contains key then _ else _ : Compiling α) b = _
  rw [if_neg (by simpa using h)]
  rfl

theorem isolate_apply {opts : CompilerOptions} {syms : List Symbol} {act : Compiling α}
    {res : Except Abort α} (h : act { b.isolated opts with
      stack := (b.isolated opts).stack.pushAll syms } = (res, b')) :
    isolate opts syms act b = (res.map fun val => (val, b'.messages),
      { b with workspace := b'.workspace, recompiling := b'.recompiling }) := by
  unfold isolate
  dsimp only
  rw [h]

theorem raiseErrors_apply (msgs : Messages) (b : Builder) : raiseErrors msgs b =
    (msgs.failure?.elim (.ok ()) fun fail => .error (.raised fail), b) := by
  unfold raiseErrors
  cases msgs.failure? <;> rfl

/-- The state in which a body or a definition is compiled on its own, while an object is compiled
again. -/
def Builder.anew (b : Builder) (c : Compiler) (key : String) (symbols : List Symbol) : Builder :=
  { Builder.start c.options b.workspace with
    stack := (Builder.start c.options b.workspace).stack.pushAll symbols
    recompiling := key :: b.recompiling }

theorem Builder.in_anew (b : Builder) (c : Compiler) (key : String) (syms : List Symbol) :
    (b.anew c key syms).In (b.anew c key syms).setting := by
  have hstart : Builder.In _ (start c.options b.workspace) := ⟨rfl, Nat.le_refl _⟩
  exact ⟨rfl, (hstart.pushAll syms).frames⟩

/-- What is done with the plan of a definition and its messages. -/
def noteRead (name : String) (result : Option Plan × Messages) : Compiling Unit := do
  raiseErrors result.2
  match result.1 with
  | some p => modify fun b =>
      { b with workspace := b.workspace.noteReferences name (referencedNames p) }
  | none => throw .absent

theorem noteRead_apply (plan : Option Plan) (msgs : Messages) (b : Builder) :
    noteRead name (plan, msgs) b = msgs.failure?.elim (plan.elim (.error .absent, b) fun p =>
        (.ok (), { b with workspace := b.workspace.noteReferences name (referencedNames p) }))
      fun fail => (.error (.raised fail), b) := by
  rw [noteRead, bind_apply, raiseErrors_apply]
  cases msgs.failure? with
  | some fail => rfl
  | none => cases plan <;> rfl

theorem inferReferences_of_missing (h : tv.definition = .missing) :
    inferReferences c e tv b = (.ok (), { b with workspace := b.workspace.noteReferences tv.name [] }) := by
  unfold inferReferences
  rw [h]
  rfl

theorem inferReferences_eq (h : tv.definition ≠ .missing) : inferReferences c e tv =
    guardRecompile ("table " ++ tv.name) tv.name
      (isolate c.options [] (compileAlone e tv.definition) >>= noteRead tv.name) := by
  unfold inferReferences
  cases hcase : tv.definition
  case missing => exact absurd hcase h
  all_goals rfl

section Alone

variable (he : e.Sound) (hdef : tv.definition ≠ .missing)
include he

theorem recompiling_compileAlone {res : Except Abort (Option Plan)}
    (h : compileAlone e tv.definition (b.anew c ("table " ++ tv.name) []) = (res, b')) :
    b'.recompiling.erase ("table " ++ tv.name) = b.recompiling := by
  have hin := Builder.in_of_ends (keeps_compileAlone he tv.definition _
    (b.in_anew c ("table " ++ tv.name) []))
    (fun _ _ hval => hval.1) fun _ hend => hend
  rw [h] at hin
  have hbusy : b'.recompiling = ("table " ++ tv.name) :: b.recompiling :=
    congrArg Setting.recompiling hin.setting
  rw [hbusy, erase_cons_head]

variable (hfree : "table " ++ tv.name ∉ b.recompiling)
include hdef hfree

theorem inferReferences_of_error {abort : Abort}
    (h : compileAlone e tv.definition (b.anew c ("table " ++ tv.name) []) = (.error abort, b')) :
    inferReferences c e tv b = (.error abort, { b with workspace := b'.workspace }) := by
  have hbusy := recompiling_compileAlone he h
  rw [inferReferences_eq hdef, guardRecompile_of_not_mem _ _ hfree, bind_apply, isolate_apply h]
  dsimp only [Except.map]
  rw [hbusy]

theorem inferReferences_of_ok {plan : Option Plan}
    (h : compileAlone e tv.definition (b.anew c ("table " ++ tv.name) []) = (.ok plan, b')) :
    inferReferences c e tv b =
      noteRead tv.name (plan, b'.messages) { b with workspace := b'.workspace } := by
  have hbusy := recompiling_compileAlone he h
  rw [inferReferences_eq hdef, guardRecompile_of_not_mem _ _ hfree, bind_apply, isolate_apply h]
  dsimp only [Except.map]
  rw [noteRead_apply, noteRead_apply]
  cases b'.messages.failure? <;> cases plan <;> simp only [Option.elim_none, Option.elim_some, hbusy]

/-- What a table variable reads is noted if its definition is compiled without errors; else nothing is
but the changes of the workspace in between. -/
theorem inferReferences_cases {res : Except Abort (Option Plan)}
    (h : compileAlone e tv.definition (b.anew c ("table " ++ tv.name) []) = (res, b')) :
    (∃ p, res = .ok (some p) ∧ b'.messages.hasErrors = false ∧ inferReferences c e tv b = (.ok (),
        { b with workspace := b'.workspace.noteReferences tv.name (referencedNames p) })) ∨
      ∃ abort, inferReferences c e tv b = (.error abort, { b with workspace := b'.workspace }) := by
  rcases res with abort | plan
  · exact .inr ⟨abort, inferReferences_of_error he hdef hfree h⟩
  rw [inferReferences_of_ok he hdef hfree h, noteRead_apply]
  cases hfail : b'.messages.failure? with
  | some fail => exact .inr ⟨_, rfl⟩
  | none =>
    cases plan with
    | none => exact .inr ⟨_, rfl⟩
    | some p => exact .inl ⟨p, rfl, Messages.failure?_eq_none_iff.mp hfail, rfl⟩

end Alone

/-- What is done with the plan of a body and its messages. -/
def noteBody (op : Operator) (result : Plan × Messages) : Compiling Unit := do
  modify fun b => { b with messages := b.messages ++ result.2.warnings }
  raiseErrors result.2
  note
  modify fun b => { b with workspace := b.workspace.bind op (.plan result.1) }

theorem noteBody_cases (op : Operator) (body : Plan) (msgs : Messages) (b : Builder) :
    (msgs.hasErrors = false ∧
      (noteBody op (body, msgs) b).2.workspace = b.workspace.bind op (.plan body)) ∨
      (noteBody op (body, msgs) b).2.workspace = b.workspace := by
  have hrun : noteBody op (body, msgs) b = (raiseErrors msgs >>= fun _ => note >>= fun _ =>
      modify fun b => { b with workspace := b.workspace.bind op (.plan body) } : Compiling Unit)
        { b with messages := b.messages ++ msgs.warnings } := rfl
  rw [hrun, bind_apply, raiseErrors_apply]
  cases hfail : msgs.failure? with
  | some fail => exact .inr rfl
  | none =>
    obtain ⟨⟨_, _, _ | session, _, _, _⟩, _⟩ := b
    · exact .inr rfl
    · exact .inl ⟨Messages.failure?_eq_none_iff.mp hfail, rfl⟩

theorem recompileOperator_eq {store : DeclarationStore} {parse : String → Except Abort OperatorDeclaration}
    (hstore : c.store = some store) (hparse : c.parse = some parse) : recompileOperator c e op =
      guardRecompile ("operator " ++ op.name) op.name (readDeclaration store parse op >>= fun decl =>
        isolate c.options (parameterSymbols decl op)
          (safely decl.body.position? (compileStmt e decl.body)) >>= noteBody op) := by
  unfold recompileOperator
  rw [hstore, hparse]
  rfl

/-- The body of an operator is noted if it is compiled without errors; else nothing is but the changes of
the workspace in between. -/
theorem recompileOperator_cases (c : Compiler) (e : Environment) (op : Operator) (b : Builder) :
    (recompileOperator c e op b).2.workspace = b.workspace ∨
      ∃ declaration res b', safely declaration.body.position? (compileStmt e declaration.body)
          (b.anew c ("operator " ++ op.name) (parameterSymbols declaration op)) = (res, b') ∧
        ((recompileOperator c e op b).2.workspace = b'.workspace ∨
          ∃ body, res = .ok body ∧ b'.messages.hasErrors = false ∧
            (recompileOperator c e op b).2.workspace = b'.workspace.bind op (.plan body)) := by
  rcases hstore : c.store with _ | store
  · exact .inl (by rw [recompileOperator, hstore]; rfl)
  rcases hparse : c.parse with _ | parse
  · exact .inl (by rw [recompileOperator, hstore, hparse]; rfl)
  rw [recompileOperator_eq hstore hparse]
  by_cases hbusy : "operator " ++ op.name ∈ b.recompiling
  · exact .inl (by rw [guardRecompile_of_mem _ _ hbusy])
  rw [guardRecompile_of_not_mem _ _ hbusy, bind_apply]
  rcases hread : readDeclaration store parse op
    { b with recompiling := ("operator " ++ op.name) :: b.recompiling } with ⟨abort | declaration, b₁⟩
  all_goals
    have hb₁ := (Parallel.readDeclaration (R := Same (· = { b with
      recompiling := ("operator " ++ op.name) :: b.recompiling })) store parse op _ _
        ⟨rfl, rfl⟩).related.holds
    rw [hread] at hb₁
    subst hb₁
  · exact .inl rfl
  rcases hinner : safely declaration.body.position? (compileStmt e declaration.body)
    (b.anew c ("operator " ++ op.name) (parameterSymbols declaration op)) with ⟨abort | body, b'⟩
  all_goals
    refine .inr ⟨declaration, _, b', hinner, ?_⟩
    dsimp only
    rw [bind_apply, isolate_apply hinner]
  · exact .inl rfl
  · obtain ⟨herrors, hnote⟩ | hnote := noteBody_cases op body b'.messages { b with
      recompiling := b'.recompiling, workspace := b'.workspace }
    · exact .inr ⟨body, rfl, herrors, hnote⟩
    · exact .inl hnote

end Steps

/-! ### What is noted -/

/-- An object with its table variable changed, if it is one. -/
def CatalogObject.mapTableVar (change : TableVar → TableVar) : CatalogObject → CatalogObject
  | .tableVar tv => .tableVar (change tv)
  | .scalarType type => .scalarType type

theorem Catalog.object?_updateTableVar (c : Catalog) (name key : String)
    (change : TableVar → TableVar) : (c.updateTableVar name change).object? key =
      (c.object? key).map (if key = name then CatalogObject.mapTableVar change else id) := by
  unfold Catalog.updateTableVar Catalog.object?
  induction c.objects with
  | nil => rfl
  | cons entry objs ih =>
    obtain ⟨other, type | tv⟩ := entry
    all_goals
      rw [map_cons, lookup_cons, lookup_cons]
      cases hkey : key == other with
      | true =>
        obtain rfl : key = other := by simpa using hkey
        by_cases hname : key = name <;> simp [hname, CatalogObject.mapTableVar]
      | false => exact ih

theorem Catalog.IsKeyed.updateTableVar {c : Catalog} (h : c.IsKeyed) (name : String)
    {change : TableVar → TableVar} (hchange : ∀ tv, (change tv).name = tv.name) :
    (c.updateTableVar name change).IsKeyed := by
  intro entry hentry
  obtain ⟨⟨key, type | tv⟩, hmem, rfl⟩ := mem_map.mp hentry
  · exact h _ hmem
  · have hkey : tv.name = key := h _ hmem
    dsimp only
    split
    · exact (hchange tv).trans hkey
    · exact hkey

section Notes

variable {F : Findings} {w w' : Workspace} {references : List String}

theorem Workspace.Evolves.bind (h : w.Evolves F w') {op : Operator}
    (hdeferred : (w.operatorState op).isDeferred) (hbody : F.body body) :
    w.Evolves F (w'.bind op (.plan body)) := by
  refine ⟨h.catalog, fun other => ?_⟩
  rw [operatorState_bind]
  split
  · rename_i hserial
    have hsame : w.operatorState other = w.operatorState op := by
      rw [operatorState, operatorState, hserial]
    exact .inr ⟨hsame ▸ hdeferred, body, hbody, rfl⟩
  · exact h.states other

/-- It is noted what a table variable reads that was stale at first, whatever has changed in between. -/
theorem Workspace.Evolves.noteReferences (h : w.Evolves F w')
    (hstands : (CatalogObject.tableVar tv).Stands w) (hderived : tv.isDerived) (hstale : tv.isStale)
    (hreads : F.reads tv references) : w.Evolves F (w'.noteReferences tv.name references) := by
  refine ⟨⟨h.catalog.operators, h.catalog.conversions, fun name obj hobj => ?_,
    fun name obj' hnone hsome => ?_, h.catalog.pending, fun hkeyed =>
      (h.catalog.keyed hkeyed).updateTableVar tv.name fun _ => rfl⟩, h.states⟩
  · obtain ⟨obj', hobj', hsettles⟩ := h.catalog.objects name obj hobj
    have hlookup : (w'.noteReferences tv.name references).catalog.object? name = _ :=
      w'.catalog.object?_updateTableVar tv.name name _
    rw [hobj', Option.map_some] at hlookup
    refine ⟨_, hlookup, ?_⟩
    by_cases hname : name = tv.name
    · rw [if_pos hname]
      obtain rfl : obj = .tableVar tv := Option.some.inj (hobj.symm.trans (hname ▸ hstands))
      obtain ⟨tv', rfl, htv'⟩ := hsettles.tableVar
      -- what was noted in between is noted anew
      have hsame : tv'.setReferences references = tv.setReferences references := by
        obtain rfl | ⟨-, -, _, -, rfl⟩ := htv' <;> rfl
      exact .inr ⟨tv, _, rfl, congrArg _ hsame, .inr ⟨hderived, hstale, references, hreads, rfl⟩⟩
    · rw [if_neg hname]
      exact hsettles
  · have hname : name ≠ tv.name := by
      rintro rfl
      exact absurd (hnone.symm.trans hstands) (by simp)
    have hlookup : (w'.noteReferences tv.name references).catalog.object? name = _ :=
      w'.catalog.object?_updateTableVar tv.name name _
    rw [if_neg hname, Option.map_id_fun, id] at hlookup
    exact h.catalog.declared name obj' hnone (hlookup.symm.trans hsome)

theorem Workspace.Advances.noteReferences (h : w.Advances F w')
    (hstands : (CatalogObject.tableVar tv).Stands w) (hderived : tv.isDerived) (hstale : tv.isStale)
    (hreads : F.reads tv references) : w.Advances F (w'.noteReferences tv.name references) := by
  refine ⟨h.evolves.noteReferences hstands hderived hstale hreads, h.steps.tail ?_⟩
  obtain ⟨_, hobj', hsettles⟩ := h.evolves.catalog.objects _ _ hstands
  obtain ⟨tv', rfl, hlater⟩ := hsettles.tableVar
  have hderived' : tv'.isDerived := by
    rcases hlater with rfl | ⟨-, -, _, -, rfl⟩
    · exact hderived
    · exact hderived
  exact .note references hobj' hderived'

end Notes

/-! ### What is found out -/

namespace Compiler

variable {depth : Nat}

/-- A table variable reads what its definition reads, compiled on its own in a workspace without errors.
One without a definition reads nothing. -/
def IsReading (c : Compiler) (w : Workspace) (tv : TableVar) (references : List String) : Prop :=
  tv.definition = .missing ∧ references = [] ∨
    ∃ depth busy p b, compileAlone (c.environment depth) tv.definition
        { Builder.start c.options w with recompiling := busy } = (.ok (some p), b) ∧
      b.messages.hasErrors = false ∧ p.ReadsExactly references

/-- What is found out by compiling again, from a workspace on: bodies have no placeholders, and table
variables read what their definitions read in the workspace at that time. -/
def findings (c : Compiler) (w : Workspace) : Findings where
  body p := p.hasNoOp = false
  reads tv references := ∃ w', w.Evolves .any w' ∧ c.IsReading w' tv references

/-- A body that is noted has no placeholders, and it is a statement that stands in no loop and no
handler. -/
def IsBody (c : Compiler) (p : Plan) : Prop :=
  p.hasNoOp = false ∧ ∃ Γ : Setting, Γ.nesting = {} ∧ IsStatement c.options Γ p

/-- What is noted by compiling again, from a workspace on. -/
def notes (c : Compiler) (w : Workspace) : Findings :=
  { c.findings w with body := c.IsBody }

variable {c : Compiler} {w w' w'' : Workspace}

theorem Implies.notes {F : Findings} (h : w.Evolves F w') : (c.notes w').Implies (c.notes w) where
  body _ hp := hp
  reads _ _ := fun ⟨w'', hw'', hreading⟩ => ⟨w'', (h.imp (.any F)).trans hw'', hreading⟩

theorem Implies.findings : (c.notes w).Implies (c.findings w) :=
  ⟨fun _ hp => hp.1, fun _ _ => id⟩

/-- What compiling again makes of a workspace. -/
abbrev Turns (c : Compiler) (w w' : Workspace) : Prop :=
  w.Advances (c.notes w) w'

theorem Turns.trans (h : c.Turns w w') (h' : c.Turns w' w'') : c.Turns w w'' :=
  Workspace.Advances.trans h (h'.imp (Implies.notes h.evolves))

/-- A state that a workspace has come to. -/
structure Reaches (c : Compiler) (w : Workspace) (b : Builder) : Prop where
  keyed : w.catalog.IsKeyed
  turns : c.Turns w b.workspace

/-- An environment in which compiling again comes to what is to be found out. It is asked for operators
that were put off, and for stale derived table variables of the catalog. -/
structure Settles (c : Compiler) (e : Environment) : Prop where
  recompile : ∀ (op : Operator) (b : Builder), b.workspace.catalog.IsKeyed →
    (b.workspace.operatorState op).isDeferred → c.Turns b.workspace (e.recompile op b).2.workspace
  infer : ∀ (tv : TableVar) (b : Builder), b.workspace.catalog.IsKeyed →
    (CatalogObject.tableVar tv).Stands b.workspace → tv.isDerived → tv.isStale →
      c.Turns b.workspace (e.infer tv b).2.workspace

namespace Reaches

variable {α β : Type} {b' : Builder} {P : α → Workspace → Prop} {act : Resolving α}

theorem start (h : w.catalog.IsKeyed) (hb : b.workspace = w) : c.Reaches w b :=
  ⟨h, hb ▸ .refl _⟩

theorem of_eq (h : c.Reaches w b) (hws : b'.workspace = b.workspace) : c.Reaches w b' :=
  ⟨h.keyed, hws ▸ h.turns⟩

theorem step (h : c.Reaches w b) (hstep : c.Turns b.workspace b'.workspace) : c.Reaches w b' :=
  ⟨h.keyed, h.turns.trans hstep⟩

theorem isKeyed (h : c.Reaches w b) : b.workspace.catalog.IsKeyed :=
  h.turns.evolves.catalog.keyed h.keyed

theorem resolve_bind {next : α → Compiling β} (hact : ∀ F, (Contract.advancing F).Met act P)
    (hnext : ∀ value b, c.Reaches w b → P value b.workspace →
      InStep (Same (c.Reaches w)) (fun _ => True) (next value b) (next value b)) :
    Upholds (c.Reaches w) (MonadResolving.resolve act >>= next) fun _ => True := by
  rintro _ b ⟨rfl, hb⟩
  obtain ⟨hturns, hval, -⟩ := hact (c.notes b.workspace) b.workspace hb.isKeyed
  refine .of_same ?_ fun _ _ => trivial
  rcases hout : act b.workspace with ⟨abort | value, w'⟩
  all_goals
    rw [hout] at hturns hval
    have hb' : c.Reaches w { b with workspace := w' } := hb.step hturns
    simp only [bind_apply, MonadResolving.resolve, hout]
  · exact hb'
  · exact (hnext value _ hb' (hval value rfl)).related.holds

theorem resolve (hact : ∀ F, (Contract.advancing F).Met act P) :
    Upholds (c.Reaches w) (MonadResolving.resolve act : Compiling α) fun _ => True := by
  rintro _ b ⟨rfl, hb⟩
  exact .of_same (hb.step (hact _ _ hb.isKeyed).leads) fun _ _ => trivial

end Reaches

/-! ### Statements -/

section Congruence

variable {e : Environment} (he : c.Settles e)

include he

/-- An object that takes effect stands in the catalog; only a stale derived table variable is asked
about. -/
theorem Settles.bindObject {obj : CatalogObject} (hb : c.Reaches w b) (hobj : obj.Stands b.workspace) :
    InStep (Same (c.Reaches w)) (fun _ => True) (bindObject e.infer obj b) (bindObject e.infer obj b) := by
  have hcopy : ∀ obj, Upholds (c.Reaches w)
      (MonadResolving.resolve (copyObject obj) : Compiling CatalogObject) fun _ => True :=
    fun obj => Reaches.resolve fun _ => Advancing.copyObject obj
  unfold Relational.bindObject
  cases hstale : staleTableVar? obj with
  | none => exact hcopy obj b b ⟨rfl, hb⟩
  | some tv =>
    obtain ⟨rfl, hderived, hstale⟩ := eq_of_staleTableVar? hstale
    have hinfer : InStep (Same (c.Reaches w)) (fun _ => True) (e.infer tv b) (e.infer tv b) :=
      .of_same (hb.step (he.infer tv b hb.isKeyed hobj hderived hstale)) fun _ _ => trivial
    refine hinfer.bind fun _ _ => ?_
    exact (Reaches.resolve (P := fun _ _ => True) fun _ => Contract.refreshed fun _ => trivial).bind
      fun found _ => hcopy found

theorem Settles.lookUp (binding : Binding) (pos : Position) (name : String) :
    Upholds (c.Reaches w) (Compiling.lookUp e binding pos name) fun _ => True := by
  refine Same.get_bind fun b hb => Parallel.at_ ?_ pos b b ⟨rfl, hb⟩
  refine (Reaches.resolve fun _ => Contract.findSymbol b.stack binding name).bind fun res _ => ?_
  split
  · exact Parallel.pure trivial
  · exact Parallel.pure trivial
  · refine Reaches.resolve_bind (fun _ => Advancing.findObject e.options.resolution b.scope name)
      fun obj b hb hobj => ?_
    cases obj with
    | none => exact Parallel.pure trivial b b ⟨rfl, hb⟩
    | some obj =>
      exact (he.bindObject hb (hobj obj rfl)).bind fun _ _ => Parallel.pure trivial

theorem Settles.overloadFor (args : List Plan) :
    Upholds (c.Reaches w) (Compiling.overloadFor e name args) fun _ => True := by
  refine Same.get_bind fun b hb => ?_
  refine (Reaches.resolve fun _ => Advancing.selectOperator _ _ name _ false).bind
    (fun found _ => ?_) b b ⟨rfl, hb⟩
  refine Hosts.isDeferred_bind found.operator fun b hb => ?_
  split
  · rename_i hdeferred
    have hrecompile : InStep (Same (c.Reaches w)) (fun _ => True) (e.recompile found.operator b)
        (e.recompile found.operator b) :=
      .of_same (hb.step (he.recompile _ b hb.isKeyed hdeferred)) fun _ _ => trivial
    exact hrecompile.bind fun _ _ => Parallel.pure trivial
  · exact Parallel.pure trivial b b ⟨rfl, hb⟩

theorem Settles.upkeep : Upkeep .all (c.Reaches w) e e where
  symbols _ _ _ _ _ := trivial
  closed hb hws _ _ _ := hb.of_eq hws
  lookUp binding pos name :=
    (he.lookUp binding pos name).imp fun _ _ found _ => Holdings.designated_all found
  conversionBetween _ _ _ := by
    rintro _ b ⟨rfl, hb⟩
    exact .of_same (hb.step (.of_memories rfl)) fun _ _ => trivial
  overloadFor name args := (he.overloadFor name args).imp fun _ _ =>
    ⟨trivial, fun _ _ _ _ => trivial, False.elim⟩

/-- All steps of compiling statements come to what is to be found out. -/
theorem Settles.steps : IsStmtStepwise .all e e fun _ [_] act act' =>
    Agree (c.Reaches w) act act' Vocabulary.all.Expresses :=
  he.upkeep.steps (Holdings.describes_all fun _ => trivial)

theorem Settles.compileAlone : Upholds (c.Reaches w) (Relational.compileAlone e expr) fun _ => True :=
  (he.upkeep.compileAlone (Holdings.describes_all fun _ => trivial) expr).imp fun _ _ => trivial

end Congruence

/-! ### Compiling again at any depth -/

theorem isBody_of_compileStmt {stmt : Stmt} {b' : Builder} (hb : b.In b.setting)
    (hmsgs : b.messages = []) (hnesting : b.nesting = {}) (hb' : b'.messages.hasErrors = false)
    (h : safely stmt.position? (compileStmt (c.environment depth) stmt) b = (.ok body, b')) :
    c.IsBody body := by
  have hs := c.sound_environment depth
  have hdeclares := declares_compileStmt hs b.setting stmt
  constructor
  · have htold := (tells_compileStmt hs (c.warns_environment depth) b.setting stmt).safely hdeclares
      stmt.position? [] b hb (hmsgs ▸ .refl _)
    rw [h] at htold
    obtain ⟨new, hnew, herrors, -, -⟩ := htold
    rw [nil_append] at hnew
    rw [← herrors, ← hnew, hb']
  · obtain ⟨_, -, -, hbody⟩ := Runs.ends h hb (hdeclares.safely (.noOp ·) stmt.position?)
    rw [c.options_environment] at hbody
    exact ⟨b.setting, hnesting, hbody⟩

theorem Settles.recompileOperator (he : c.Settles (c.environment depth)) {op : Operator}
    (hkeyed : b.workspace.catalog.IsKeyed) (hdeferred : (b.workspace.operatorState op).isDeferred) :
    c.Turns b.workspace (recompileOperator c (c.environment depth) op b).2.workspace := by
  obtain heq | ⟨decl, res, b', hinner, hcases⟩ :=
    recompileOperator_cases c (c.environment depth) op b
  · exact heq ▸ .refl _
  have hsteps := he.steps (w := b.workspace)
  have hreaches := ((hsteps.safely (hsteps.compileStmt decl.body)
    decl.body.position?) _ _ ⟨rfl, Reaches.start hkeyed (b := b.anew c ("operator " ++ op.name)
      (parameterSymbols decl op)) rfl⟩).related.holds
  rw [hinner] at hreaches
  obtain heq | ⟨body, rfl, herrors, heq⟩ := hcases
  · exact heq ▸ hreaches.turns
  · rw [heq]
    exact ⟨hreaches.turns.evolves.bind hdeferred
      (isBody_of_compileStmt (b.in_anew c _ _) rfl rfl herrors hinner),
        hreaches.turns.steps.tail (.bind _ op body)⟩

theorem Settles.inferReferences (he : c.Settles (c.environment depth)) {tv : TableVar}
    (hkeyed : b.workspace.catalog.IsKeyed) (hstands : (CatalogObject.tableVar tv).Stands b.workspace)
    (hderived : tv.isDerived) (hstale : tv.isStale) :
    c.Turns b.workspace (inferReferences c (c.environment depth) tv b).2.workspace := by
  by_cases hdef : tv.definition = .missing
  · rw [inferReferences_of_missing hdef]
    exact Workspace.Advances.noteReferences (.refl _) hstands hderived hstale
      ⟨_, .refl _, .inl ⟨hdef, rfl⟩⟩
  by_cases hbusy : "table " ++ tv.name ∈ b.recompiling
  · rw [inferReferences_refused hdef hbusy]
    exact .refl _
  rcases hinner : Relational.compileAlone (c.environment depth) tv.definition
    (b.anew c ("table " ++ tv.name) []) with ⟨res, b'⟩
  have hreaches := (he.compileAlone tv.definition _ _ ⟨rfl, Reaches.start hkeyed
    (b := b.anew c ("table " ++ tv.name) []) rfl⟩).related.holds
  rw [hinner] at hreaches
  obtain ⟨p, rfl, herrors, heq⟩ | ⟨abort, heq⟩ :=
    inferReferences_cases (c.sound_environment depth) hdef hbusy hinner
  · rw [heq]
    exact hreaches.turns.noteReferences hstands hderived hstale ⟨b.workspace, .refl _,
      .inr ⟨depth, _, p, b', hinner, herrors, p.readsExactly_referencedNames⟩⟩
  · rw [heq]
    exact hreaches.turns

theorem settles_environment (c : Compiler) (depth : Nat) : c.Settles (c.environment depth) := by
  induction depth with
  | zero => exact ⟨fun _ _ _ _ => .refl _, fun _ _ _ _ _ _ => .refl _⟩
  | succ depth ih =>
    exact ⟨fun _ _ hkeyed hdeferred => ih.recompileOperator hkeyed hdeferred,
      fun _ _ hkeyed hstands hderived hstale => ih.inferReferences hkeyed hstands hderived hstale⟩

end Compiler

/-! ### Programs -/

namespace Builder

variable {c : Compiler}

theorem workspace_build (c : Compiler) (stmt : Stmt) (b : Builder) :
    (build c stmt b).2.workspace = (outcome c stmt b).2.workspace := by
  rcases hout : outcome c stmt b with ⟨(fail | text) | p, b'⟩
  · cases hpos : stmt.position? with
    | none => rw [build_of_raised_missing hpos hout]
    | some pos => rw [build_of_raised hpos hout]
  · rw [build_of_fault hout]
  · rw [build_of_ok hout]

theorem evolves_build (stmt : Stmt) (h : b.workspace.catalog.IsKeyed) :
    b.workspace.Evolves (c.notes b.workspace) (build c stmt b).2.workspace := by
  have hsteps := (c.settles_environment (Compiler.nestingBound b)).steps (w := b.workspace)
  rw [workspace_build]
  exact (hsteps.inScope Vocabulary.expresses_nil (hsteps.safely (hsteps.compileStmt stmt)
    stmt.position?) b b ⟨rfl, .start h rfl⟩).related.holds.turns.evolves

theorem evolves_buildExpression (h : b.workspace.catalog.IsKeyed) :
    b.workspace.Evolves (c.notes b.workspace) (buildExpression c expr b).2.workspace :=
  ((c.settles_environment _).compileAlone expr b b ⟨rfl, .start h rfl⟩).related.holds.turns.evolves

/-- Compiling again is all or nothing, whatever becomes of the program or the expression that asks for
it. An operator that was put off is as it was, or it has a body without placeholders. A stale derived table
variable is as it was, or it is fresh and knows the table variables that its definition reads, in order;
that includes one that a device held. -/
theorem unchanged_or_settled_of_build (c : Compiler) {b : Builder}
    (hkeyed : b.workspace.catalog.IsKeyed) {w' : Workspace}
    (h : (∃ statement, w' = (build c statement b).2.workspace) ∨
      ∃ expr, w' = (buildExpression c expr b).2.workspace) :
    (∀ op, (b.workspace.operatorState op).isDeferred →
      w'.operatorState op = b.workspace.operatorState op ∨
        ∃ p, p.hasNoOp = false ∧ w'.operatorState op = { isDeferred := false, body := some (.plan p) }) ∧
    (∀ name tv, b.workspace.catalog.object? name = some (.tableVar tv) → tv.isDerived → tv.isStale →
      w'.catalog.object? name = some (.tableVar tv) ∨
        ∃ references w₁, b.workspace.Evolves .any w₁ ∧ c.IsReading w₁ tv references ∧
          w'.catalog.object? name = some (.tableVar (tv.setReferences references))) ∧
    ∀ name tv', b.workspace.catalog.object? name = none →
      w'.catalog.object? name = some (.tableVar tv') → tv'.isDerived →
        ∃ tv, b.workspace.catalog.IsPending tv ∧ tv.Settles (c.findings b.workspace) tv' := by
  have hevolves : b.workspace.Evolves (c.findings b.workspace) w' := by
    obtain ⟨statement, rfl⟩ | ⟨expr, rfl⟩ := h
    · exact (evolves_build statement hkeyed).imp Compiler.Implies.findings
    · exact (evolves_buildExpression expr hkeyed).imp Compiler.Implies.findings
  refine ⟨fun op _ => (hevolves.states op).imp_right And.right, fun name tv htv _ _ => ?_,
    fun name tv' hnone hsome hderived => ?_⟩
  · obtain ⟨_, hobject', hsettles⟩ := hevolves.catalog.objects name _ htv
    obtain ⟨tv', rfl, htv'⟩ := hsettles.tableVar
    obtain rfl | ⟨-, -, references, ⟨w₁, hw₁, hreading⟩, rfl⟩ := htv'
    · exact .inl hobject'
    · exact .inr ⟨references, w₁, hw₁, hreading, hobject'⟩
  · obtain ⟨_, heq, horigin⟩ := hevolves.catalog.declared name _ hnone hsome
    cases heq
    exact horigin hderived

end Builder

/-! ### A view and an operator -/

namespace Compiler

/-- A compiler that takes every operator to do nothing. -/
def idle : Compiler where
  store := some (.memory { entries := [("f", "f", [])] })
  parse := some fun name => .ok
    { position := .none, name, parameters := [], returnType := .missing, body := .block .none [] }

/-- The operator `f` of the workspace. -/
def idleOperator : Operator :=
  { serial := 1, name := "f", signature := [], returnType := none }

/-- A workspace with a table `T`, a view `V` of it that has not been read yet, and an operator `f` that has
not been compiled. -/
def viewWorkspace : Workspace where
  catalog :=
    { objects :=
        [("T", .tableVar (.base "T" (some []) "" [])),
          ("V", .tableVar (.derived "V" (some []) (.identifier .none "T")))]
      operators := [("f", { name := "f", operators := [idleOperator] })] }
  session := some {}
  operatorStates := [(1, { isDeferred := true })]

/-- A program that reads the view and calls the operator, and then fails. -/
def viewProgram : Stmt :=
  .block .none [.expression .none (.identifier .none "V"), .expression .none (.call .none "f" []),
    .expression .none (.identifier .none "X")]

/-- A program that fails compiles the operator all the same, and finds out what the view reads. -/
theorem unchanged_or_settled_of_build_view :
    let b := Builder.start {} viewWorkspace
    let w' := (Builder.build idle viewProgram b).2.workspace
    b.workspace.catalog.IsKeyed ∧
      (w'.operatorState idleOperator = b.workspace.operatorState idleOperator ∨
        ∃ p, p.hasNoOp = false ∧
          w'.operatorState idleOperator = { isDeferred := false, body := some (.plan p) }) ∧
      (w'.operatorState idleOperator).isDeferred = false ∧
      (w'.catalog.tableVars.map fun tv => (tv.name, tv.isStale, tv.references)) =
        [("T", false, []), ("V", false, ["T"])] ∧
      (Builder.build idle viewProgram b).2.messages.hasErrors = true := by
  intro b w'
  have hkeyed : b.workspace.catalog.IsKeyed := by
    intro entry hentry
    obtain rfl | rfl : entry = _ ∨ entry = _ := by simpa [b, Builder.start, viewWorkspace] using hentry
    · rfl
    · rfl
  have hsettled := Builder.unchanged_or_settled_of_build idle hkeyed (.inl ⟨viewProgram, rfl⟩)
  exact ⟨hkeyed, hsettled.1 idleOperator rfl, by decide +kernel, by decide +kernel, by decide +kernel⟩

end Compiler

end Relational
