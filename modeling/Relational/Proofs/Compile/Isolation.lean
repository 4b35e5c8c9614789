import Relational.Proofs.Compile.Course
import Relational.Proofs.Compile.Recompilation

/-!
# Windows isolate

A window hides all symbols, so that what is compiled inside cannot depend on them. Two compilations that
share everything but their symbols, whose stacks may be any, come to the same result when an expression
is compiled in a window: the same plan or the same failure, with the same messages. Inside the window the
only symbols that come into scope are rows, so no plan refers to a variable and none is marked as
modified. Objects that are compiled again in between start from stacks of their own.
-/

namespace Relational

open Compiling Vocabulary List

variable {b b' a a' : Builder}

/-- The vocabulary of compilations in which rows are in scope, but no variables. -/
def Vocabulary.rowsOnly : Vocabulary :=
  .ofScalars (fun _ => True) False trivial trivial

theorem Vocabulary.isUniform_rowsOnly : rowsOnly.IsUniform :=
  isUniform_uniform (isPlanning_scalarTypes _ _ _ _)

/-- A stack with the symbols, frames and windows of another one. It may remember other marks of closed
frames and another greatest depth. -/
structure Stack.Kept (s s' : Stack) : Prop where
  symbols : s'.symbols = s.symbols
  frameCount : s'.frameCount = s.frameCount
  windows : s'.windows = s.windows
  policy : s'.policy = s.policy

theorem Stack.Kept.refl (s : Stack) : s.Kept s :=
  ⟨rfl, rfl, rfl, rfl⟩

variable {s s' : Stack} (obj : CatalogObject)

namespace Stack.Kept

variable (h : s.Kept s')

include h

theorem trans {s'' : Stack} (h' : s'.Kept s'') : s.Kept s'' :=
  ⟨h'.symbols.trans h.symbols, h'.frameCount.trans h.frameCount, h'.windows.trans h.windows,
    h'.policy.trans h.policy⟩

theorem base_eq : s'.base = s.base := by
  rw [base, base, h.windows]

theorem depth_eq : s'.depth = s.depth := by
  rw [depth, depth, h.symbols]

theorem visible_eq : s'.visible = s.visible := by
  rw [visible, visible, h.symbols, h.base_eq, h.depth_eq]

end Stack.Kept

namespace Builder

/-- Compilations that share the compiler, the session and what they declare, and that are compiling the
same objects again. Their symbols, messages, loops and handlers may differ. -/
structure Shares (b b' : Builder) : Prop where
  workspace : b'.workspace = b.workspace
  scope : b'.scope = b.scope
  recompiling : b'.recompiling = b.recompiling
  policy : b'.stack.policy = b.stack.policy

/-- Compilations that see the same symbols, which are rows. -/
structure Screened (b b' : Builder) : Prop where
  visible : b'.stack.visible = b.stack.visible
  rows : rowsOnly.Expresses b.stack.visible
  base_le : b.stack.base ≤ b.stack.depth
  base_le' : b'.stack.base ≤ b'.stack.depth

/-- Compilations that share the compiler, and that have kept their symbols and added the same messages
since they were in other states. -/
structure Follows (a a' b b' : Builder) : Prop extends Shares b b' where
  kept : a.stack.Kept b.stack
  kept' : a'.stack.Kept b'.stack
  added : ∃ added, b.messages = a.messages ++ added ∧ b'.messages = a'.messages ++ added

theorem Shares.follows (h : b.Shares b') : b.Follows b' b b' :=
  ⟨h, .refl _, .refl _, [], (append_nil _).symm, (append_nil _).symm⟩

theorem Follows.screened (h : a.Follows a' b b') (ha : a.Screened a') : b.Screened b' where
  visible := h.kept'.visible_eq.trans (ha.visible.trans h.kept.visible_eq.symm)
  rows := h.kept.visible_eq ▸ ha.rows
  base_le := h.kept.base_eq ▸ h.kept.depth_eq ▸ ha.base_le
  base_le' := h.kept'.base_eq ▸ h.kept'.depth_eq ▸ ha.base_le'

theorem Follows.with_workspace (h : a.Follows a' b b') (w : Workspace) :
    a.Follows a' { b with workspace := w } { b' with workspace := w } :=
  { h with workspace := rfl }

theorem isRecording_follows : IsRecording (a.Follows a') where
  session h := by rw [h.workspace]
  report := by
    intro b b' more h
    obtain ⟨added, hmsgs, hmsgs'⟩ := h.added
    refine { h with added := ⟨added ++ more, ?_, ?_⟩ }
    · rw [← append_assoc, ← hmsgs]
    · rw [← append_assoc, ← hmsgs']

end Builder

section Workspaces

variable {α : Type} {Q : α → Prop}

theorem Parallel.of_workspace {act : Compiling α} {f : Workspace → Except Abort α × Workspace}
    (h : ∀ b : Builder, act b = ((f b.workspace).1, { b with workspace := (f b.workspace).2 }))
    (hQ : ∀ w val, (f w).1 = .ok val → Q val) : Parallel (a.Follows a') act act Q := by
  intro b b' hb
  rw [h b, h b', hb.workspace]
  exact ⟨rfl, hb.with_workspace _, hQ b.workspace⟩

theorem Parallel.resolve {act : Resolving α} (hQ : ∀ w val, (act w).1 = .ok val → Q val) :
    Parallel (a.Follows a') (MonadResolving.resolve act : Compiling α) (MonadResolving.resolve act) Q :=
  of_workspace (f := act) (fun _ => rfl) hQ

/-! ### Objects that are compiled again -/

theorem Parallel.isolate_follows (opts : CompilerOptions) (syms : List Symbol) (act : Compiling α) :
    Parallel (a.Follows a') (isolate opts syms act) (isolate opts syms act) fun _ => True := by
  have hsame : Upholds (fun _ => True) act fun _ => True := by
    rintro _ b ⟨rfl, -⟩
    exact .of_same trivial fun _ _ => trivial
  refine hsame.isolate opts syms (fun b b' hb => ⟨?_, trivial⟩) ?_
  · rw [Builder.isolated, Builder.isolated, hb.workspace, hb.recompiling]
  · rintro b b' _ b₁ hb ⟨rfl, -⟩
    exact ⟨rfl, { hb with workspace := rfl, recompiling := rfl }⟩

theorem Parallel.guardRecompile_follows {act act' : Compiling Unit} (key name : String)
    (h : Parallel (a.Follows a') act act' fun _ => True) :
    Parallel (a.Follows a') (guardRecompile key name act) (guardRecompile key name act') fun _ => True :=
  .guardRecompile _ name (fun _ _ hb => hb.recompiling)
    (fun _ _ hb _ => h _ _ { hb with recompiling := congrArg (key :: ·) hb.recompiling })
    fun _ _ hb => { hb with recompiling := congrArg (·.erase key) hb.recompiling }

end Workspaces

/-- An environment in which objects are compiled again without a look at the symbols. -/
structure Environment.IsIsolating (e : Environment) : Prop where
  recompile : ∀ op {a a' : Builder}, Parallel (a.Follows a') (e.recompile op) (e.recompile op) fun _ => True
  infer : ∀ tv {a a' : Builder}, Parallel (a.Follows a') (e.infer tv) (e.infer tv) fun _ => True

theorem Compiler.isolating_environment (c : Compiler) (depth : Nat) : (c.environment depth).IsIsolating := by
  cases depth with
  | zero => exact ⟨fun _ _ _ => .throw, fun _ _ _ => .throw⟩
  | succ depth =>
    refine ⟨fun op a a' => ?_, fun tv a a' => ?_⟩
    · refine Parallel.recompileOperator Builder.isRecording_follows
        (fun _ _ h => .guardRecompile_follows _ _ (h trivial)) (fun _ _ => .isolate_follows _ _ _) ?_
      intro b b' body hb
      rw [hb.workspace]
      exact hb.with_workspace _
    · refine .inferReferences (fun _ _ h => .guardRecompile_follows _ _ (h trivial))
        (fun _ => .isolate_follows _ _ _) ?_
      rintro _ (rfl | rfl) b b' refs hb
      all_goals
        rw [hb.workspace]
        exact hb.with_workspace _

/-! ### Scopes and windows -/

section Scopes

variable {α : Type} {act act' : Compiling α} {Q : α → Prop} {syms : List Symbol}

theorem Stack.Kept.release_frame (h : (s.openFrame.pushAll syms).Kept s') :
    (s'.release (s.guard false)).2.2 = none ∧ s.Kept (s'.release (s.guard false)).1 := by
  obtain ⟨hsyms, hwins, hframes, -⟩ := s.openFrame.pushAll_eq syms
  have hsyms' : s'.symbols = syms.reverse ++ s.symbols := h.symbols.trans hsyms
  have hcount : s'.frameCount = s.frameCount + 1 := h.frameCount.trans hframes
  have hdepth : s'.depth = syms.reverse.length + s.depth := by
    rw [depth, hsyms', length_append, depth]
  unfold release guard
  simp only [hcount, hdepth, Bool.false_eq_true, if_false, ne_eq, not_true, Nat.not_lt.mpr,
    Nat.le_add_left]
  refine ⟨trivial, ?_, rfl, h.windows.trans hwins, h.policy.trans (policy_pushAll _ _)⟩
  rw [truncate, hdepth, Nat.add_sub_cancel, hsyms', drop_left]

theorem Stack.Kept.release_window (h : (s.openWindow 0).Kept s') :
    (s'.release (s.guard true)).2.2 = none ∧ s.Kept (s'.release (s.guard true)).1 := by
  have hwins : s'.windows = s.depth :: s.windows := h.windows
  have hdepth : s'.symbols.length = s.depth := congrArg length h.symbols
  unfold release guard
  simp only [hwins, length_cons, Bool.false_eq_true, if_false, if_true, ne_eq, not_true,
    depth, hdepth, Nat.lt_irrefl, tail_cons]
  refine ⟨trivial, ?_, rfl, rfl, h.policy⟩
  rw [truncate, depth, hdepth, depth, Nat.sub_self, drop_zero]
  exact h.symbols

theorem Stack.visible_openFrame_pushAll (h : s.base ≤ s.depth) (syms : List Symbol) :
    (s.openFrame.pushAll syms).visible = syms.reverse ++ s.visible ∧
      (s.openFrame.pushAll syms).base ≤ (s.openFrame.pushAll syms).depth := by
  obtain ⟨hsyms, hwins, -⟩ := s.openFrame.pushAll_eq syms
  have hbase : (s.openFrame.pushAll syms).base = s.base := by
    rw [base, hwins]
    rfl
  have hdepth : (s.openFrame.pushAll syms).depth = syms.reverse.length + s.depth := by
    rw [depth, hsyms, length_append]
    rfl
  refine ⟨?_, by rw [hbase, hdepth]; omega⟩
  rw [visible, hbase, hdepth, hsyms, Nat.add_sub_assoc h, take_length_add_append]
  rfl

theorem Builder.Screened.openFrame (h : b.Screened b') (hsyms : rowsOnly.Expresses syms) :
    Builder.Screened { b with stack := b.stack.openFrame.pushAll syms }
      { b' with stack := b'.stack.openFrame.pushAll syms } := by
  obtain ⟨hvis, hbase⟩ := Stack.visible_openFrame_pushAll h.base_le syms
  obtain ⟨hvis', hbase'⟩ := Stack.visible_openFrame_pushAll h.base_le' syms
  refine ⟨?_, ?_, hbase, hbase'⟩
  · exact hvis'.trans (by rw [h.visible]; exact hvis.symm)
  · change rowsOnly.Expresses (b.stack.openFrame.pushAll syms).visible
    rw [hvis]
    exact forall_mem_append.mpr ⟨fun sym hsym => hsyms sym (mem_reverse.mp hsym), h.rows⟩

theorem Builder.screened_openWindow (b b' : Builder) :
    Builder.Screened { b with stack := b.stack.openWindow 0 }
      { b' with stack := b'.stack.openWindow 0 } := by
  have hvis : ∀ s : Stack, (s.openWindow 0).visible = [] := by
    intro s
    change s.symbols.take (s.depth - (s.depth - 0)) = []
    rw [Nat.sub_zero, Nat.sub_self, take_zero]
  refine ⟨(hvis _).trans (hvis _).symm, ?_, Nat.sub_le _ _, Nat.sub_le _ _⟩
  rw [hvis]
  exact expresses_nil

theorem Builder.Follows.leaveScope (isWindow : Bool) (hb : a.Follows a' b b') (hpolicy : s'.policy = s.policy)
    (h : Parallel (Builder.Follows { b with stack := s } { b' with stack := s' }) act act' Q)
    (hs : ∀ s₁, s.Kept s₁ → (s₁.release (b.stack.guard isWindow)).2.2 = none ∧
      b.stack.Kept (s₁.release (b.stack.guard isWindow)).1)
    (hs' : ∀ s₁, s'.Kept s₁ → (s₁.release (b'.stack.guard isWindow)).2.2 = none ∧
      b'.stack.Kept (s₁.release (b'.stack.guard isWindow)).1) :
    InStep (a.Follows a') Q (Compiling.leaveScope (b.stack.guard isWindow) (act { b with stack := s }))
      (Compiling.leaveScope (b'.stack.guard isWindow) (act' { b' with stack := s' })) := by
  have hshares : Builder.Shares { b with stack := s } { b' with stack := s' } :=
    ⟨hb.workspace, hb.scope, hb.recompiling, hpolicy⟩
  refine (h _ _ hshares.follows).leaveScope fun b₁ b₁' hb₁ => ?_
  obtain ⟨hcause, hkept⟩ := hs _ hb₁.kept
  obtain ⟨hcause', hkept'⟩ := hs' _ hb₁.kept'
  obtain ⟨added, hmsgs, hmsgs'⟩ := hb.added
  obtain ⟨more, hmore, hmore'⟩ := hb₁.added
  refine ⟨hcause'.trans hcause.symm, ⟨hb₁.workspace, hb₁.scope, hb₁.recompiling, ?_⟩,
    hb.kept.trans hkept, hb.kept'.trans hkept', added ++ more, ?_, ?_⟩
  · exact hkept'.policy.trans (hb.policy.trans hkept.policy.symm)
  · rw [← append_assoc, ← hmsgs]
    exact hmore
  · rw [← append_assoc, ← hmsgs']
    exact hmore'

/-- Two actions do the same after any states that see the same rows. -/
def Alongside {α : Type} (action action' : Compiling α) (Q : α → Prop) : Prop :=
  ∀ a a' : Builder, a.Screened a' → Parallel (a.Follows a') action action' Q

theorem Alongside.inScope (h : Alongside act act' Q) (hsyms : rowsOnly.Expresses syms) :
    Alongside (Compiling.inScope syms act) (Compiling.inScope syms act') Q := by
  intro a a' ha b b' hb
  refine hb.leaveScope false ?_ (h _ _ ((hb.screened ha).openFrame hsyms))
    (fun _ => Stack.Kept.release_frame) fun _ => Stack.Kept.release_frame
  exact (Stack.policy_pushAll b'.stack.openFrame _).trans
    (hb.policy.trans (Stack.policy_pushAll b.stack.openFrame _).symm)

theorem Alongside.inWindow (h : Alongside act act' Q) :
    Parallel (a.Follows a') (Compiling.inWindow act) (Compiling.inWindow act') Q := by
  intro b b' hb
  exact hb.leaveScope true hb.policy (h _ _ (Builder.screened_openWindow b b'))
    (fun _ => Stack.Kept.release_window) fun _ => Stack.Kept.release_window

end Scopes

/-! ### Expressions -/

section Expressions

variable {e : Environment} (he : e.IsIsolating)

theorem expresses_object : rowsOnly.Expresses obj := by
  cases obj with
  | scalarType => exact trivial
  | tableVar => exact fun _ _ => trivial

theorem Stack.expresses_findSymbol (h : rowsOnly.Expresses s.visible) (binding : Binding)
    (name : String) (w : Workspace) {found : Option ResolvedName}
    (hfound : (findSymbol (some s) binding name w).1 = .ok found) : rowsOnly.Expresses found := by
  intro val hval
  obtain ⟨location, sym, shadowed, rfl, hvis, hname⟩ :=
    (Contract.findSymbol (C := .mild) s binding name w trivial).value found hfound val hval
  have hsym := h sym (mem_of_getElem? hvis)
  exact ⟨hsym, fun hcol => hsym.2 (hname hcol).2⟩

include he

namespace Environment.IsIsolating

theorem bindObject :
    Parallel (a.Follows a') (Relational.bindObject e.infer obj) (Relational.bindObject e.infer obj)
      fun _ => True := by
  unfold Relational.bindObject
  split
  · refine (he.infer _).bind fun _ _ => ?_
    exact .bind (Q := fun _ => True) (.resolve fun _ _ _ => trivial) fun obj _ =>
      .resolve fun _ _ _ => trivial
  · exact .resolve fun _ _ _ => trivial

theorem lookUp {binding : Binding} (pos : Position) {name : String}
    (h : ∀ b b' : Builder, a.Follows a' b b' →
      findSymbol (some b'.stack) binding name = findSymbol (some b.stack) binding name ∧
        ∀ w found, (findSymbol (some b.stack) binding name w).1 = .ok found → rowsOnly.Expresses found) :
    Parallel (a.Follows a') (lookUp e binding pos name) (lookUp e binding pos name) rowsOnly.Expresses := by
  refine Parallel.get_bind fun b b' hb => Parallel.at_ ?_ pos b b' hb
  obtain ⟨hsym, hrows⟩ := h b b' hb
  unfold Relational.resolveName
  rw [hsym, hb.scope]
  refine (Parallel.resolve (hrows ·)).bind fun found hfound => ?_
  split
  · exact .pure hfound
  · exact .pure expresses_none
  · refine Parallel.bind (Q := fun _ => True) (.resolve fun _ _ _ => trivial) fun obj _ => ?_
    cases obj with
    | none => exact .pure expresses_none
    | some obj =>
      exact (he.bindObject obj).bind fun obj _ =>
        .pure (expresses_some (expresses_object obj))

theorem scalarType (pos : Position) (name : String) :
    Parallel (a.Follows a') (Compiling.scalarType e pos name)
      (Compiling.scalarType e pos name) rowsOnly.Expresses := by
  have hlookUp : Parallel (a.Follows a') (.lookUp e .objects pos name)
      (.lookUp e .objects pos name) rowsOnly.Expresses :=
    he.lookUp pos fun b b' hb => ⟨rfl, fun w found hfound => by
      cases hfound
      exact expresses_none⟩
  refine hlookUp.bind fun found _ => ?_
  split
  · exact .pure trivial
  · exact .raise
  · refine .get_bind fun b b' hb => ?_
    rw [suggestName, hb.workspace]
    exact Parallel.raise b b' hb

theorem isTypewise (a a' : Builder) : IsTypewise rowsOnly e e fun _ _ act act' =>
      Parallel (a.Follows a') act act' rowsOnly.Expresses where
  pure := .pure
  bind := .bind
  fault _ := .throw
  raise _ := .raise
  warn pos _ _ := Parallel.warn Builder.isRecording_follows pos _
  scalarType := he.scalarType
  conversionBetween _ _ := .of_workspace
    (f := fun w => (.ok (w.findConversion e.options.widen _ _).1, (w.findConversion e.options.widen _ _).2))
    (fun _ => rfl) fun _ _ _ => ⟨fun _ _ => trivial, fun _ _ => trivial⟩

theorem overloadFor (name : String) (args : List Plan) :
    Parallel (a.Follows a') (Compiling.overloadFor e name args)
      (Compiling.overloadFor e name args) rowsOnly.Expresses := by
  refine Parallel.get_bind fun b b' hb => ?_
  rw [hb.scope]
  refine Parallel.bind (Q := rowsOnly.Expresses) (.resolve fun _ _ _ => ?_) (fun found hfound => ?_)
    b b' hb
  · exact ⟨fun _ _ _ _ => trivial, fun _ _ _ _ => ⟨fun _ _ => trivial, fun _ _ => trivial⟩,
      fun _ _ _ _ _ _ _ _ _ => trivial⟩
  · refine Parallel.bind (Q := fun _ => True) (.resolve fun _ _ _ => trivial) fun isDeferred _ => ?_
    split
    · exact (he.recompile _).bind fun _ _ => .pure hfound
    · exact .pure hfound

theorem isStepwise : IsStepwise rowsOnly e e fun _ _ act act' =>
    Alongside act act' rowsOnly.Expresses where
  pure hval _ _ _ := .pure hval
  bind hact hnext a a' ha := (hact a a' ha).bind fun val hval => hnext val hval a a' ha
  fault _ _ _ _ := .throw
  raise _ _ _ _ := .raise
  warn pos _ _ _ _ _ := Parallel.warn Builder.isRecording_follows pos _
  scalarType pos name _ _ _ := he.scalarType pos name
  conversionBetween hsrc htgt a a' _ := (he.isTypewise a a').conversionBetween hsrc htgt
  uniform := isUniform_rowsOnly
  fatal _ _ _ := .fatal
  at_ hact pos a a' ha := (hact a a' ha).at_ pos
  inScope hsyms hact := hact.inScope hsyms
  systemType pos name _ _ _ := .get_bind fun b b' hb => by
    rw [hb.workspace]
    refine (?_ : Parallel _ _ _ rowsOnly.Expresses) b b' hb
    split
    · exact .pure fun _ _ => trivial
    · exact .fatal
  unknownName pos name a a' ha := .get_bind fun b b' hb => by
    have hnames : b'.stack.visibleNames = b.stack.visibleNames := by
      rw [Stack.visibleNames, Stack.visibleNames, (hb.screened ha).visible]
    rw [suggestName, suggestName, hb.workspace, Option.map_some, Option.map_some, hnames]
    exact Parallel.raise b b' hb
  checkReference pos arg harg _ _ _ := by
    -- No plan refers to a variable, so nothing is passed by reference.
    unfold checkReference
    split
    · rename_i href
      exact (harg.2 (congrArg Construct.kind href)).elim
    · exact .raise
  lookUp_bind binding pos name hnext _ a a' ha := by
    refine .bind (he.lookUp pos fun b b' hb => ⟨?_, fun w found =>
      Stack.expresses_findSymbol (hb.screened ha).rows binding name w⟩) fun found hfound =>
        hnext found hfound a a' ha
    have hresolve : b'.stack.resolve name = b.stack.resolve name := by
      rw [Stack.resolve, Stack.resolve, Stack.candidates, Stack.candidates, (hb.screened ha).visible,
        hb.policy]
    funext w
    rw [findSymbol_apply, findSymbol_apply, Stack.designated, Stack.designated, hresolve]
  overloadFor name _ _ _ _ _ := he.overloadFor name _
  overloadForTables pos name _ hoperands _ _ _ := 
    .overloadForTables isUniform_rowsOnly he.overloadFor pos name hoperands

end Environment.IsIsolating

end Expressions

/-! ### The outcome in two states -/

/-- From two states, an action has the same result, leaves the same workspace and adds the same
messages. -/
def SameOutcome {α : Type} (action : Compiling α) (b b' : Builder) : Prop :=
  (action b').1 = (action b).1 ∧ (action b').2.workspace = (action b).2.workspace ∧
    ∃ added, (action b).2.messages = b.messages ++ added ∧ (action b').2.messages = b'.messages ++ added

theorem Parallel.sameOutcome {α : Type} {act : Compiling α} {Q : α → Prop}
    (h : Parallel (b.Follows b') act act Q) (hb : b.Shares b') : SameOutcome act b b' := by
  obtain ⟨hres, hfollows, -⟩ := h b b' hb.follows
  exact ⟨hres, hfollows.workspace, hfollows.added⟩

theorem Parallel.bind_sameOutcome {α β : Type} {act : Compiling α} {next : α → Compiling β}
    {Q : α → Prop} (h : Parallel (b.Follows b') act act Q)
    (hnext : ∀ val, Q val → ∀ b b', Builder.Shares b b' → SameOutcome (next val) b b')
    (hb : b.Shares b') : SameOutcome (act >>= next) b b' := by
  unfold SameOutcome
  rw [bind_apply, bind_apply]
  refine (h b b' hb.follows).elim fun res b₁ b₁' hb₁ hval => ?_
  obtain ⟨added, hadded, hadded'⟩ := hb₁.added
  cases res with
  | error abort => exact ⟨rfl, hb₁.workspace, added, hadded, hadded'⟩
  | ok val =>
    obtain ⟨hres, hws, more, hmore, hmore'⟩ :=
      hnext val (hval val rfl) _ _ hb₁.toShares
    refine ⟨hres, hws, added ++ more, ?_, ?_⟩
    · rw [← append_assoc, ← hadded]
      exact hmore
    · rw [← append_assoc, ← hadded']
      exact hmore'

namespace SameOutcome

variable {α β : Type}

theorem get_bind {next : Builder → Compiling α} (hnext : next b' = next b)
    (h : SameOutcome (next b) b b') : SameOutcome (get >>= next) b b' := by
  change (next b' b').1 = (next b b).1 ∧ (next b' b').2.workspace = (next b b).2.workspace ∧
    ∃ added, (next b b).2.messages = b.messages ++ added ∧ (next b' b').2.messages = b'.messages ++ added
  rw [hnext]
  exact h

theorem step_unless {q : Prop} [Decidable q] {pos : Position} {cause : Cause}
    {rest : β → Compiling α} {val : β} (hb : b.Shares b') (h : SameOutcome (rest val) b b') :
    SameOutcome (if q then rest val else raise pos cause >>= rest) b b' := by
  split
  · exact h
  · exact ⟨rfl, hb.workspace, [], (append_nil _).symm, (append_nil _).symm⟩

end SameOutcome

section Declarations

variable {e : Environment} (he : e.IsIsolating)

include he

theorem sameOutcome_declare (p : Position) (name : String) (type : Option Ty)
    {default : Option (Option Position × Plan)} (hdefault : rowsOnly.Expresses default)
    (isConstant : Bool) (hb : b.Shares b') : SameOutcome (declare e p name type default isConstant) b b' := by
  unfold declare
  refine ((he.isTypewise b b').typedValue (fun _ _ _ _ => trivial) hdefault).bind_sameOutcome
    (fun x _ b b' hb => ?_) hb
  unfold declareAs
  split
  · exact (Parallel.throw (Q := fun _ => True)).sameOutcome hb
  · split
    all_goals exact ⟨rfl, hb.workspace, [], (append_nil _).symm, (append_nil _).symm⟩

theorem Environment.IsIsolating.inWindow_compileExpr (x : Expr) :
    Parallel (a.Follows a') (Compiling.inWindow (compileExpr e x))
      (Compiling.inWindow (compileExpr e x)) rowsOnly.Expresses :=
  Alongside.inWindow (he.isStepwise.compileExpr x)

theorem sameOutcome_declaration (p : Position) (name : String) (spec : TypeSpec) (x : Expr)
    (isConstant : Bool) (hb : b.Shares b') (hname : b'.stack.collisions name = b.stack.collisions name) :
    SameOutcome (compileStmt e (.declaration p name spec x isConstant)) b b' := by
  have hdeclare : ∀ type b b', Builder.Shares b b' → SameOutcome
      (if x.isMissing then declare e p name type none isConstant
      else do
        let val ← inWindow (compileExpr e x)
        declare e p name type (some (x.position?, val)) isConstant) b b' := by
    intro type b b' hb
    split
    · exact sameOutcome_declare he p name type expresses_none isConstant hb
    · refine (he.inWindow_compileExpr x).bind_sameOutcome (fun val hval b b' hb => ?_) hb
      exact sameOutcome_declare he p name type (expresses_some ⟨expresses_position _, hval⟩) isConstant hb
  refine .get_bind (by simp only [hname]) ?_
  refine .step_unless hb ?_
  split
  · exact hdeclare none b b' hb
  · have htypes := he.isTypewise b b'
    have htype := htypes.map (β := Option Ty) (htypes.compileType spec) fun _ => expresses_some
    exact htype.bind_sameOutcome (fun type _ => hdeclare type) hb

end Declarations

namespace Compiler

end Compiler

end Relational
