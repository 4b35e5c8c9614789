import Relational.Proofs.Compile.Stepwise

/-!
# Properties of all steps of a compilation

Some properties of actions hold whatever the steps before hand on, so actions in a row and also actions
after failures have them. Such a property that all steps have, and that actions in scopes have if their
parts do, is a property of compiling any expression. Statements add to the steps of expressions: they
declare symbols, hide symbols behind windows, count loops and handlers, and record failures.

Steps may read the state. What they make of it must not depend on messages and on marks of modified
symbols.
-/

namespace Relational

open Compiling Vocabulary

namespace Builder

variable {b b' : Builder}

/-- States of a compilation that differ in messages and in marks of modified symbols only. -/
structure Like (b b' : Builder) : Prop where
  setting : b'.setting = b.setting
  workspace : b'.workspace = b.workspace
  policy : b'.stack.policy = b.stack.policy

theorem map_visible (b : Builder) : b.stack.visible.map Symbol.unmodified = b.setting.visible := by
  unfold Stack.visible Setting.visible Builder.setting
  rw [List.map_take, List.length_map]
  rfl

theorem Like.alike (h : b.Like b') : b.Alike b' where
  visible := by rw [map_visible, map_visible, h.setting]
  nesting := congrArg Setting.nesting h.setting

theorem Like.suggestName_eq (h : b.Like b') (name : String) :
    suggestName b'.workspace.catalog (some b'.stack) name =
      suggestName b.workspace.catalog (some b.stack) name := by
  rw [suggestName, suggestName, h.workspace, Option.map_some, Option.map_some, h.alike.visibleNames_eq]

theorem Like.peek_eq (h : b.Like b') (idx : Nat) :
    (b'.stack.peek idx).map Symbol.unmodified = (b.stack.peek idx).map Symbol.unmodified := by
  have hsyms : ∀ b : Builder, (b.stack.peek idx).map .unmodified = b.setting.symbols[idx]? := by
    intro b
    rw [Builder.setting, List.getElem?_map]
    rfl
  rw [hsyms, hsyms, h.setting]

end Builder

section Recovery

variable {α β : Type} {act : Compiling α} {handler : Abort → Compiling α} {b b' : Builder}
  {abort : Abort} {f : α → β}

theorem tryCatch_of_ok {val : α} (h : act b = (.ok val, b')) :
    (tryCatch act handler : Compiling α) b = (.ok val, b') := by
  change (ExceptT.tryCatch act handler : Compiling α) b = _
  simp only [ExceptT.tryCatch, ExceptT.mk, bind, StateT.bind, h]
  rfl

theorem tryCatch_of_error (h : act b = (.error abort, b')) :
    (tryCatch act handler : Compiling α) b = handler abort b' := by
  change (ExceptT.tryCatch act handler : Compiling α) b = _
  simp only [ExceptT.tryCatch, ExceptT.mk, bind, StateT.bind, h]

theorem map_of_ok {val : α} (h : act b = (.ok val, b')) : (f <$> act) b = (.ok (f val), b') := by
  rw [map_eq_pure_bind, bind_apply, h]
  rfl

theorem map_of_error (h : act b = (.error abort, b')) : (f <$> act) b = (.error abort, b') := by
  rw [map_eq_pure_bind, bind_apply, h]

end Recovery

theorem overloadForTables_eq (e : Environment) (pos : Position) (name : String)
    (operands : List Plan) : overloadForTables e pos name operands =
      tryCatch ((·, operands) <$> Compiling.overloadFor e name operands) fun abort =>
        if isMismatch abort then
          (asTables? pos operands).elim (throw abort) fun tables =>
            tryCatch ((·, tables) <$> Compiling.overloadFor e name tables) fun second =>
              throw (if isFinal second then second else abort)
        else throw abort := by
  funext b
  unfold overloadForTables
  rcases hfirst : overloadFor e name operands b with ⟨abort | found, b'⟩
  · rw [tryCatch_of_error (map_of_error hfirst)]
    dsimp only
    cases isMismatch abort with
    | false => rfl
    | true =>
      cases asTables? pos operands with
      | none => rfl
      | some tables =>
        rcases hsecond : overloadFor e name tables b' with ⟨second | found, b''⟩
        · simp only [hsecond, if_true, Option.elim_some, tryCatch_of_error (map_of_error hsecond)]
          rfl
        · simp only [hsecond, if_true, Option.elim_some, tryCatch_of_ok (map_of_ok hsecond)]
  · rw [tryCatch_of_ok (map_of_ok hfirst)]
/-- A property of actions that the steps of compiling expressions have, and that actions in a row, in
scopes and after failures have if their parts do. -/
structure Compositional (e : Environment) (J : (α : Type) → Compiling α → Prop) : Prop where
  pure : ∀ {α : Type} (value : α), J α (Pure.pure value)
  bind : ∀ {α β : Type} {action : Compiling α} {next : α → Compiling β}, J α action →
    (∀ value, J β (next value)) → J β (action >>= next)
  fault : ∀ {α : Type} {text : String}, (Cause.internal text).blamesStack = false →
    J α (throw (.fault text))
  raise : ∀ {α : Type} {position : Position} {cause : Cause}, cause.blamesStack = false →
    J α (Compiling.raise position cause)
  fatal : ∀ {α : Type} {position : Position} {name : String},
    J α (Compiling.fatal position (.missingType name))
  warn : ∀ (position : Position) {cause : Cause}, cause.blamesStack = false →
    J Unit (Compiling.warn position cause)
  at_ : ∀ {α : Type} {action : Compiling α}, J α action → ∀ position,
    J α (Compiling.at_ position action)
  recover : ∀ {α : Type} {action : Compiling α} {handler : Abort → Compiling α}, J α action →
    (∀ abort, J α (throw abort) → J α (handler abort)) → J α (tryCatch action handler)
  inScope : ∀ {α : Type} {action : Compiling α} (symbols : List Symbol), J α action →
    J α (Compiling.inScope symbols action)
  get_bind : ∀ {α : Type} {next : Builder → Compiling α}, (∀ b, J α (next b)) →
    (∀ b b' : Builder, b.Like b' → next b' = next b) → J α (get >>= next)
  markModified : ∀ index, J Unit (Compiling.markModified index)
  lookUp_bind : ∀ {α : Type} {next : Option ResolvedName → Compiling α} (binding : Binding)
    (position : Position) (name : String), (∀ found, J α (next found)) →
    (∀ found, next (found.map ResolvedName.unmodified) = next found) →
    J α (Compiling.lookUp e binding position name >>= next)
  conversionBetween : ∀ source target : Ty, J ConversionContext (Compiling.conversionBetween e source target)
  overloadFor : ∀ (name : String) (arguments : List Plan), J OverloadMatch
    (Compiling.overloadFor e name arguments)

namespace Compositional

variable {e : Environment} {J : (α : Type) → Compiling α → Prop} (h : Compositional e J)
  (pos : Position) (name : String)

include h

theorem map {α β : Type} {act : Compiling α} (hact : J α act) (f : α → β) : J β (f <$> act) := by
  exact h.bind hact fun _ => h.pure _

theorem scalarType : J ScalarType (Compiling.scalarType e pos name) := by
  refine h.lookUp_bind .objects pos name (fun found => ?_) fun found => ?_
  · split
    · exact h.pure _
    · exact h.raise rfl
    · exact h.get_bind (fun _ => h.raise rfl) fun b b' hlike => by rw [hlike.workspace]
  · rcases found with _ | _ | _
    all_goals rfl

theorem systemType : J Ty (Compiling.systemType pos name) := by
  refine h.get_bind (fun b => ?_) fun b b' hlike => by simp only [hlike.workspace]
  split
  · exact h.pure _
  · exact h.fatal

protected theorem checkReference (arg : Plan) : J Unit (checkReference pos arg) := by
  rw [checkReference]
  split
  · refine h.get_bind (fun b => ?_) fun b b' hlike => ?_
    · split
      · exact h.fault rfl
      · split
        · exact h.raise rfl
        · exact h.markModified _
    · -- Whether a symbol is constant is not told by its mark.
      rename_i name idx _
      have hpeek := hlike.peek_eq idx
      cases hsym : b.stack.peek idx with
      | none =>
        rw [hsym, Option.map_none, Option.map_eq_none_iff] at hpeek
        rw [hpeek]
      | some sym =>
        rw [hsym, Option.map_some, Option.map_eq_some_iff] at hpeek
        obtain ⟨sym', hsym', heq⟩ := hpeek
        have hconst : sym'.unmodified.isConstant = sym.unmodified.isConstant :=
          congrArg Symbol.isConstant heq
        change sym'.isConstant = sym.isConstant at hconst
        simp only [hsym', hconst]
  · exact h.raise rfl
protected theorem overloadForTables (operands : List Plan) :
    J (OverloadMatch × List Plan) (overloadForTables e pos name operands) := by
  rw [overloadForTables_eq]
  refine h.recover (h.map (h.overloadFor name operands) _) fun abort habort => ?_
  split
  · cases asTables? pos operands with
    | none => exact habort
    | some tables =>
      refine h.recover (h.map (h.overloadFor name tables) _) fun second hsecond => ?_
      cases isFinal second with
      | true => exact hsecond
      | false => exact habort
  · exact habort

/-- Nothing is asked of what the steps hand on. -/
theorem isStepwise : IsStepwise .all e e fun α _ act _ => J α act where
  uniform := isUniform_uniform _
  pure _ := h.pure _
  bind hact hnext := h.bind hact fun val => hnext val (expresses_all val)
  fault := h.fault
  raise := h.raise
  fatal := h.fatal
  warn := h.warn
  at_ := h.at_
  inScope _ hact := h.inScope _ hact
  systemType := h.systemType
  scalarType := h.scalarType
  unknownName _ name := h.get_bind (fun _ => h.raise rfl) fun b b' hlike => by
    rw [hlike.suggestName_eq]
  checkReference pos _ _ := h.checkReference pos _
  lookUp_bind binding pos name hnext :=
    h.lookUp_bind binding pos name fun found => hnext found (expresses_all found)
  conversionBetween _ _ := h.conversionBetween _ _
  overloadFor name _ _ := h.overloadFor name _
  overloadForTables pos name _ _ := h.overloadForTables pos name _

protected theorem checkLoopVariable (type : Ty) : J Unit (checkLoopVariable pos name type) := by
  rw [checkLoopVariable]
  split
  · split
    · exact h.pure _
    · exact h.raise rfl
  · refine h.get_bind (fun b => ?_) fun b b' hlike => by simp only [hlike.alike.collisions_eq]
    dsimp only
    split
    · exact h.pure _
    · exact h.raise rfl

end Compositional

/-- A property of actions that the steps of compiling statements have as well, and that actions in windows,
loops and handlers and actions whose failures are recorded have if their parts do. -/
structure StmtCompositional (e : Environment) (J : (α : Type) → Compiling α → Prop) : Prop
    extends Compositional e J where
  inWindow : ∀ {α : Type} {action : Compiling α}, J α action → J α (Compiling.inWindow action)
  within : ∀ {α : Type} {place} {action : Compiling α}, J α action → J α (Compiling.within place action)
  push : ∀ symbol, J Unit (Compiling.push symbol)
  safely : ∀ {action : Compiling Plan}, J Plan action → ∀ position,
    J Plan (Compiling.safely position action)

theorem StmtCompositional.isStmtStepwise {e : Environment} {J : (α : Type) → Compiling α → Prop}
    (h : StmtCompositional e J) : IsStmtStepwise .all e e fun α _ act _ => J α act where
  toIsStepwise := h.isStepwise
  symbol _ _ _ _ := trivial
  inWindow := h.inWindow
  within := h.within
  push _ := h.push _
  markModified := h.markModified
  safely := h.safely
  get_bind hnext hread := h.get_bind hnext fun b b' hlike => hread b b' hlike.alike

end Relational
