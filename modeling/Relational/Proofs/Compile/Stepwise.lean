import Relational.Proofs.Compile.Points
import Relational.Proofs.Compile.Setting
import Relational.Proofs.Compile.Vocabulary
import Relational.Proofs.Conversion.Fitting
import Relational.Proofs.Resolution.Failures

/-!
# Compilations step by step

Expressions and statements are compiled by steps that look up names, choose operators, find conversions,
record messages, open scopes and give up. A relation between the actions of two compilations that all
these steps are in, and that actions in a row are in if the actions are, relates the compilations of any
expression and any statement. In a row, the later action need only be looked at for results of the earlier
one that the vocabulary of the compilations expresses.
-/

namespace Relational

open Compiling Vocabulary List

variable {type : Option Ty} {p : Plan} {pos : Position}

/-- States of a compilation with the same symbols visible, up to their marks, within as many loops and
handlers. -/
structure Builder.Alike (b b' : Builder) : Prop where
  visible : b'.stack.visible.map Symbol.unmodified = b.stack.visible.map Symbol.unmodified
  nesting : b'.nesting = b.nesting

namespace Builder.Alike

variable {b b' : Builder} (h : b.Alike b')

include h

theorem visibleNames_eq : b'.stack.visibleNames = b.stack.visibleNames := by
  have hnames : ∀ b : Builder, b.stack.visibleNames =
      (b.stack.visible.map Symbol.unmodified).flatMap fun sym =>
        (if sym.name = "" then [] else [sym.name]) ++ sym.columns.names := by
    intro b
    rw [flatMap_map]
    rfl
  rw [hnames, hnames, h.visible]

theorem collisions_eq (name : String) : b'.stack.collisions name = b.stack.collisions name := by
  have hcolls : ∀ b : Builder, b.stack.collisions name =
      ((b.stack.visible.map Symbol.unmodified).filter fun sym =>
        sym.name ≠ "" ∧ Text.equalFold sym.name name).map (·.name) := by
    intro b
    rw [filter_map, map_map]
    rfl
  rw [hcolls, hcolls, h.visible]

end Builder.Alike

/-- What a name designates, without the mark of its symbol. -/
def ResolvedName.unmodified : ResolvedName → ResolvedName
  | .symbol place found shadowed => .symbol place found.unmodified shadowed
  | .object found => .object found

/-- Relations of actions, one for each way to express what the actions give. -/
abbrev StepRelation :=
  (α : Type) → [Expressible α] → Compiling α → Compiling α → Prop

/-- An action is in a relation with itself. -/
abbrev Alone (J : StepRelation) {α : Type} [Expressible α] (action : Compiling α) : Prop :=
  J α action action

/-- What is done in two environments is in a relation. -/
abbrev Both (J : StepRelation) (e e' : Environment) {α : Type} [Expressible α]
    (action : Environment → Compiling α) : Prop :=
  J α (action e) (action e')

/-- A relation of actions, each in an environment of its own, that the steps of compiling types and
conversions are in, and that actions in a row are in if their parts are. What comes out of one step is
expressed by a vocabulary, and the next ones need only take that. -/
structure IsTypewise (V : Vocabulary) (e e' : Environment) (J : StepRelation) : Prop where
  pure : ∀ {α : Type} {_ : Expressible α} {value : α}, V.Expresses value →
    J α (Pure.pure value) (Pure.pure value)
  bind : ∀ {α β : Type} {_ : Expressible α} {_ : Expressible β} {action action' : Compiling α}
    {next next' : α → Compiling β}, J α action action' →
    (∀ value, V.Expresses value → J β (next value) (next' value)) →
      J β (action >>= next) (action' >>= next')
  fault : ∀ {α : Type} {_ : Expressible α} {text : String},
    (Cause.internal text).blamesStack = false → J α (throw (.fault text)) (throw (.fault text))
  raise : ∀ {α : Type} {_ : Expressible α} {position : Position} {cause : Cause},
    cause.blamesStack = false →
      J α (Compiling.raise position cause) (Compiling.raise position cause)
  warn : ∀ (position : Position) {cause : Cause}, cause.blamesStack = false →
    Alone J (Compiling.warn position cause)
  scalarType : ∀ position name,
    Both J e e' fun e => Compiling.scalarType e position name
  conversionBetween : ∀ {source target : Ty}, V.Expresses source → V.Expresses target →
    @J ConversionContext (.between source target) (Compiling.conversionBetween e source target)
      (Compiling.conversionBetween e' source target)

variable {α β : Type} {cause : Cause} {args children operands : List Plan}

namespace IsTypewise

variable {V : Vocabulary} {e e' : Environment} {J : StepRelation} (h : IsTypewise V e e' J)

include h

variable {A : Expressible α} {ctx : ConversionContext}

theorem absent : J α (throw Abort.absent) (throw Abort.absent) :=
  h.fault rfl

theorem imp {B : Expressible α} {act act' : Compiling α} (hact : @J α A act act')
    (hAB : ∀ val, @Expresses α A V val → @Expresses α B V val) : @J α B act act' := by
  rw [← bind_pure act, ← bind_pure act']
  exact h.bind hact fun val hval => h.pure (hAB val hval)

theorem map {B : Expressible β} {act act' : Compiling α} (hact : J α act act') {f : α → β}
    (hf : ∀ val, V.Expresses val → V.Expresses (f val)) : J β (f <$> act) (f <$> act') := by
  exact h.bind hact fun val hval => h.pure (hf val hval)

theorem locate (pos : Option Position) : Alone J (Compiling.locate pos) := by
  cases pos with
  | none => exact h.absent
  | some pos => exact h.pure trivial

theorem raise_bind (hcause : cause.blamesStack = false) {next next' : β → Compiling α} :
    J α (Compiling.raise pos cause >>= next) (Compiling.raise pos cause >>= next') := by
  exact h.raise hcause

theorem raise_located (pos : Option Position) (hcause : cause.blamesStack = false) :
    J α (Compiling.locate pos >>= fun pos => Compiling.raise pos cause)
      (Compiling.locate pos >>= fun pos => Compiling.raise pos cause) :=
  h.bind (h.locate pos) fun _ _ => h.raise hcause

section Branches

variable {B : Expressible β} {q : Prop} [Decidable q]

variable {step step' : Compiling PUnit} {rest rest' : PUnit → Compiling α}

theorem step_unless (hstep : J PUnit step step') (hrest : J α (rest ⟨⟩) (rest' ⟨⟩)) :
    J α (if q then rest ⟨⟩ else step >>= rest) (if q then rest' ⟨⟩ else step' >>= rest') := by
  split
  · exact hrest
  · exact h.bind hstep fun _ _ => hrest

theorem step_checked (P : Expressible PUnit) (hstep : @J PUnit P step step')
    (hrest : (q → @Expresses PUnit P V ⟨⟩) → J α (rest ⟨⟩) (rest' ⟨⟩)) :
    J α (if q then step >>= rest else rest ⟨⟩) (if q then step' >>= rest' else rest' ⟨⟩) := by
  split
  · exact h.bind hstep fun _ hdone => hrest fun _ => hdone
  · rename_i hnot
    exact hrest fun hq => absurd hq hnot

theorem step_if (hstep : J PUnit step step') (hrest : J α (rest ⟨⟩) (rest' ⟨⟩)) :
    J α (if q then step >>= rest else rest ⟨⟩) (if q then step' >>= rest' else rest' ⟨⟩) := by
  split
  · exact h.bind hstep fun _ _ => hrest
  · exact hrest

theorem step_ite {first first' second second' : Compiling β} {rest rest' : β → Compiling α}
    (hfirst : J β first first') (hsecond : J β second second')
    (hrest : ∀ val, V.Expresses val → J α (rest val) (rest' val)) :
    J α (if q then first >>= rest else second >>= rest)
      (if q then first' >>= rest' else second' >>= rest') := by
  split
  · exact h.bind hfirst hrest
  · exact h.bind hsecond hrest

end Branches

/-! ### Conversions and types -/

protected theorem applyConversion {A : Expressible Plan} (happlied : V.Expresses (p.applied pos ctx)) :
    Alone J (applyConversion pos p ctx) := by
  unfold Plan.applied at happlied
  rw [applyConversion]
  split
  · rw [if_pos ‹_›] at happlied
    exact h.pure happlied
  · rw [if_neg ‹_›] at happlied
    refine h.step_if (h.warn pos rfl) ?_
    split
    · rw [if_pos ‹_›] at happlied
      exact h.pure happlied
    · rw [if_neg ‹_›] at happlied
      exact h.pure happlied

omit h in
theorem blamesStack_of_check (hcause : ctx.check = some cause) : cause.blamesStack = false := by
  unfold ConversionContext.check at hcause
  split at hcause
  · cases hcause
  · split at hcause
    · cases hcause
      rfl
    · cases hcause
      rfl

protected theorem convert (pos : Option Position) (hp : V.Expresses p) {tgt : Ty}
    (htgt : V.Expresses tgt) : @Both J e e' _ (.stored tgt) fun e => convert e pos p tgt := by
  simp only [convert]
  split
  · exact h.raise_located pos rfl
  · rename_i src hsrc
    split
    · exact h.pure (V.stored_same hp hsrc ‹_›)
    · refine h.bind (h.conversionBetween (V.plan_type hp src hsrc) htgt) fun ctx hctx => ?_
      split
      · rename_i cause hcause
        exact h.raise_located pos (blamesStack_of_check hcause)
      · exact h.bind (h.locate pos) fun pos _ =>
          h.applyConversion (V.stored_applied pos hp hsrc hctx ‹_›)

theorem convertAll {tgt : Ty} (htgt : V.Expresses tgt)
    {plans : List (Option Position × Plan)} (hplans : V.Expresses plans) :
    @Both J e e' _ (.allStored tgt) fun e => Relational.convertAll e tgt plans := by
  induction plans with
  | nil => exact h.pure expresses_nil
  | cons entry rest ih =>
    obtain ⟨hentry, hrest⟩ := forall_mem_cons.mp hplans
    exact h.bind (h.convert _ hentry.2 htgt) fun _ hfirst => h.bind (ih hrest) fun _ hlater =>
      h.pure (expresses_cons hfirst hlater)

mutual

theorem compileType : (spec : TypeSpec) → Both J e e' fun e => Relational.compileType e spec
  | .missing => h.absent
  | .named p name => h.bind (h.scalarType p name) fun _ htype => h.pure (V.type_scalar htype)
  | .rows form p cols => h.bind (compileColumnTypes p V.columns_nil cols) fun _ hcols =>
      h.pure (V.type_rows.mpr hcols)
  | .list _ element => h.bind (compileType element) fun _ htype => h.pure (V.type_list.mpr htype)
  | .generic p kind => by
    simp only [Relational.compileType]
    split
    · exact h.pure (V.type_generic ‹_›)
    · exact h.raise rfl
  | .other p => h.raise rfl

theorem compileColumnTypes (p : Position) {done : Columns} (hdone : V.Expresses done) :
    (cols : List (String × TypeSpec)) → Both J e e' fun e => Relational.compileColumnTypes e p done cols
  | [] => h.pure hdone
  | (name, spec) :: rest => by
    simp only [Relational.compileColumnTypes]
    split
    · exact h.raise rfl
    · refine h.bind (compileType spec) fun type htype => ?_
      exact compileColumnTypes p (V.columns_concat hdone ‹_› htype) rest

end

theorem specifiedType (spec : TypeSpec) : Both J e e' fun e => Relational.specifiedType e spec := by
  cases spec with
  | missing => exact h.pure expresses_none
  | _ => exact h.map (h.compileType _) fun _ => expresses_some

protected theorem unify (pos : Option Position) {left right : Option Ty} (hleft : V.Expresses left)
    (hright : V.Expresses right) : Both J e e' fun e => unify e pos left right := by
  unfold unify
  split
  · exact h.pure hright
  · split
    · exact h.pure expresses_none
    · exact h.pure hleft
  · rename_i l r
    have hl : V.Expresses l := hleft l rfl
    have hr : V.Expresses r := hright r rfl
    split
    · exact h.pure hright
    · split
      · exact h.pure hleft
      · split
        · exact h.pure hright
        · refine h.bind (h.conversionBetween hr hl) fun _ _ => ?_
          split
          · exact h.pure hleft
          · refine h.bind (h.conversionBetween hl hr) fun _ _ => ?_
            split
            · exact h.pure hright
            · exact h.raise_located pos rfl

theorem typedValue (htype : V.Expresses type) {default : Option (Option Position × Plan)}
    (hdefault : V.Expresses default) : Both J e e' fun e => Relational.typedValue e type default := by
  rcases default with _ | ⟨pos, val⟩
  · exact h.pure ⟨htype, expresses_none⟩
  · have hval := (hdefault _ rfl).2
    cases type with
    | none => exact h.pure ⟨V.plan_type hval, expresses_some hval⟩
    | some type =>
      exact h.bind (h.convert pos hval (htype _ rfl)) fun val hval =>
        h.pure ⟨htype, expresses_some (V.stored_plan hval)⟩

end IsTypewise

/-- A relation of actions that the steps of compiling names and calls are in as well. What follows on the
lookup of a name may be asked not to depend on the mark of a symbol. -/
structure IsCallwise (V : Vocabulary) (e e' : Environment) (J : StepRelation) : Prop
    extends IsTypewise V e e' J where
  fatal : ∀ {α : Type} {_ : Expressible α} {position : Position} {name : String},
    J α (Compiling.fatal position (.missingType name)) (Compiling.fatal position (.missingType name))
  at_ : ∀ {α : Type} {_ : Expressible α} {action action' : Compiling α}, J α action action' →
    ∀ position, J α (Compiling.at_ position action) (Compiling.at_ position action')
  systemType : ∀ position name,
    Alone J (Compiling.systemType position name)
  unknownName : ∀ {α : Type} {_ : Expressible α} (position : Position) (name : String),
    Alone J (α := α) (get >>= fun b => Compiling.raise position
      (.unknownIdentifier name (suggestName b.workspace.catalog (some b.stack) name)))
  checkReference : ∀ (position : Position) {argument : Plan}, V.Expresses argument →
    @J Unit (.reference argument) (Relational.checkReference position argument)
      (Relational.checkReference position argument)
  lookUp_bind : ∀ {α : Type} {_ : Expressible α} {next next' : Option ResolvedName → Compiling α}
    (binding : Binding) (position : Position) (name : String),
    (∀ found, V.Expresses found → J α (next found) (next' found)) →
    (∀ found, next (found.map ResolvedName.unmodified) = next found) →
    J α (Compiling.lookUp e binding position name >>= next)
      (Compiling.lookUp e' binding position name >>= next')
  overloadFor : ∀ (name : String) {arguments : List Plan}, V.Expresses arguments →
    Both J e e' fun e => Compiling.overloadFor e name arguments

namespace IsCallwise

variable {V : Vocabulary} {e e' : Environment} {J : StepRelation} {A : Expressible α}
  (h : IsCallwise V e e' J)

include h

variable {found : OverloadMatch}

/-! ### Names and calls -/

protected theorem namePlan (pos : Position) (name : String) {found : ResolvedName}
    (hfound : V.Expresses found) : Alone J (namePlan pos name found) := by
  unfold namePlan
  split
  · refine h.step_unless (h.warn pos rfl) ?_
    split
    · exact h.pure (V.plan_symbol hfound ‹_›)
    · split
      · exact h.pure (V.plan_column hfound ‹_›)
      · exact h.absent
  · exact h.pure (V.plan_plain rfl (expresses_some (V.object_type hfound)) expresses_nil)
  · exact h.raise rfl

omit h in
theorem namePlan_unmodified (pos : Position) (name : String) (found : ResolvedName) :
    namePlan pos name found.unmodified = namePlan pos name found := by
  cases found with
  | symbol | object => rfl

theorem compileName (pos : Position) (name : String) :
    Both J e e' fun e => Relational.compileName e pos name := by
  refine h.lookUp_bind .all pos name (fun found hfound => ?_) fun found => ?_
  · cases found with
    | some found => exact h.namePlan pos name (hfound found rfl)
    | none => exact h.unknownName pos name
  · cases found with
    | some found => exact namePlan_unmodified pos name found
    | none => rfl

protected theorem extractColumns (pos : Position) (hp : V.Expresses p) (cols : List String) :
    Alone J (extractColumns pos p cols) := by
  induction cols generalizing p with
  | nil => exact h.pure hp
  | cons col cols ih =>
    rw [extractColumns]
    split
    · rename_i type htype
      split
      · split
        · have hcols := V.columns_rowColumns (V.plan_type hp type htype)
          exact ih (V.plan_plain rfl (expresses_some (V.columns_type hcols (mem_of_lookup ‹_›)))
            (expresses_cons hp expresses_nil))
        · exact h.raise rfl
      · exact h.raise rfl
    · exact h.raise rfl

protected theorem chainNames (pos : Position) (parts : List Expr) : Alone J (chainNames pos parts) := by
  induction parts with
  | nil => exact h.pure expresses_nil
  | cons part parts ih =>
    unfold chainNames
    split
    · exact h.pure expresses_nil
    · rename_i heq
      cases heq
      exact h.bind ih fun _ hnames => h.pure (expresses_cons trivial hnames)
    · exact h.raise rfl

theorem compileNames (pos : Position) (before names : List String) :
    Both J e e' fun e => Relational.compileNames e pos before names := by
  induction names generalizing before with
  | nil => exact h.raise rfl
  | cons next rest ih =>
    refine h.lookUp_bind .all pos _ (fun found hfound => ?_) fun found => ?_
    · cases found with
      | none => exact ih _
      | some found =>
        exact h.bind (h.namePlan pos _ (hfound found rfl)) fun p hp =>
          h.extractColumns pos hp rest
    · cases found with
      | none => rfl
      | some found =>
        exact congrArg (· >>= fun p => extractColumns pos p rest) (namePlan_unmodified pos _ found)

protected theorem asCondition (pos : Option Position) (hp : V.Expresses p) :
    Both J e e' fun e => asCondition e pos p :=
  h.bind (h.locate pos) fun pos' _ => h.bind (h.systemType pos' _) fun _ htype =>
    h.imp (h.convert pos hp htype) fun _ => V.stored_plan

section

variable (pos : Position)

protected theorem bindArgument (hfound : V.Expresses found) (idx : Nat) {arg : Plan}
    (harg : V.Expresses arg) : @Alone J _ (.argument found.operator.signature[idx]?) (bindArgument pos
      found.operator.signature[idx]? found.arguments[idx]? arg) := by
  rw [bindArgument]
  refine h.step_checked (.reference arg) (h.checkReference pos harg) fun href => ?_
  split
  · rename_i ctx hctx
    obtain ⟨fit, hfit, hconv⟩ := Option.bind_eq_some_iff.mp hctx
    have hmem := hfound.2.1 fit (mem_of_getElem? hfit) ctx hconv
    exact h.applyConversion ⟨V.applied_of (fun hplain ht hq => V.plan_plain hplain (expresses_some ht)
      (expresses_cons hq expresses_nil)) harg hmem,
      fun hvar => hfound.2.2 idx fit hfit hvar ctx hconv pos arg (href hvar)⟩
  · exact h.pure ⟨harg, href⟩

theorem bindArguments (hfound : V.Expresses found) (start : Nat) (hargs : V.Expresses args) :
    @Alone J _ (.arguments found.operator.signature start)
      (Relational.bindArguments pos found start args) := by
  induction args generalizing start with
  | nil => exact h.pure ⟨by simp, by simp [Signature.Refers]⟩
  | cons arg args ih =>
    obtain ⟨hfirst, hrest⟩ := forall_mem_cons.mp hargs
    refine h.bind (h.bindArgument pos hfound start hfirst) fun bound hbound => ?_
    refine h.bind (ih (start + 1) hrest) fun later hlater => h.pure ⟨expresses_cons hbound.1 hlater.1, ?_⟩
    intro i p hp hvar
    cases i with
    | zero => exact Option.some.inj hp ▸ hbound.2 hvar
    | succ i => exact hlater.2 i p hp (by rwa [Nat.add_right_comm, Nat.add_assoc])

protected theorem bindCall (hfound : V.Expresses found) (hargs : V.Expresses args) :
    @Alone J _ (.arguments found.operator.signature 0) (bindCall pos found args) := by
  rw [bindCall]
  exact h.step_if (h.warn pos rfl) (h.bindArguments pos hfound 0 hargs)

theorem compileCall (name : String) (hargs : V.Expresses args) :
    Both J e e' fun e => Relational.compileCall e pos name args :=
  h.bind (h.at_ (h.overloadFor name hargs) pos) fun _ hfound =>
    h.bind (h.bindCall pos hfound hargs) fun _ hbound =>
      h.pure (V.plan_call (V.operator_type hfound.1) hbound.1 hbound.2)

/-! ### Literals and columns -/

protected theorem literalType (val : Value) (typeName : String) :
    Both J e e' fun e => literalType e pos val typeName := by
  simp only [literalType]
  split
  · exact h.bind (h.scalarType pos typeName) fun _ htype => h.pure (V.type_scalar htype)
  · split
    · exact h.systemType pos _
    · exact h.raise rfl

protected theorem compileLiteral (val : Value) (typeName : String) :
    Both J e e' fun e => compileLiteral e pos val typeName := by
  simp only [compileLiteral]
  split
  · exact h.pure (V.plan_literal V.type_nil)
  · refine h.bind (h.literalType pos val typeName) fun type htype => ?_
    split
    · exact h.pure (V.plan_literal htype)
    · exact h.raise rfl
    · exact h.fault rfl

end

protected theorem requireValue (pos : Option Position) (hp : V.Expresses p) :
    Alone J (requireValue pos p) := by
  rw [requireValue]
  split
  · exact h.raise_located pos rfl
  · exact h.pure hp

protected theorem relationHeading (pos : Option Position) (hp : V.Expresses p) :
    @Alone J _ (.heading p.type) (relationHeading pos p) := by
  have hpure : ∀ {type heading}, p.type = some type → relationHeading? (some type) = some heading →
      @Alone J _ (.heading p.type) (.pure heading) :=
    fun htype hhead => h.pure (V.heading_of hp (by rw [htype, hhead]))
  rw [relationHeading]
  split
  · exact hpure ‹_› rfl
  · exact hpure ‹_› rfl
  · exact hpure ‹_› rfl
  · exact hpure ‹_› rfl
  · exact h.raise_located pos rfl

protected theorem selectColumns (pos : Position) {heading : Heading} (hhead : V.columns heading.columns)
    {done : Columns} (hdone : V.Expresses done) (names : List String) :
    Alone J (selectColumns pos heading done names) := by
  induction names generalizing done with
  | nil => exact h.pure hdone
  | cons name names ih =>
    rw [selectColumns]
    split
    · exact h.raise rfl
    · rename_i type htype
      split
      · exact h.raise rfl
      · exact ih (V.columns_concat hdone ‹_› (V.columns_type hhead (mem_of_lookup htype)))

protected theorem renameColumns (pos : Position) (heading : Heading) {cols : Columns}
    (hcols : V.Expresses cols) (renames : List (String × String)) :
    Alone J (renameColumns pos heading cols renames) := by
  induction renames generalizing cols with
  | nil => exact h.pure hcols
  | cons rename renames ih =>
    rw [renameColumns]
    split
    · exact h.raise rfl
    · rename_i idx hold
      obtain ⟨hidx, -⟩ := findIdx?_eq_some_iff_getElem.mp hold
      split
      · rename_i other hnew
        split
        · exact h.raise rfl
        · rename_i hsame
          refine ih (V.columns_rename hcols hidx fun first hfirst => ?_)
          obtain rfl := Option.some.inj (hnew.symm.trans hfirst)
          exact not_not.mp hsame
      · rename_i hnew
        refine ih (V.columns_rename hcols hidx fun first hfirst => ?_)
        cases hnew.symm.trans hfirst

omit h in
/-- A natural join adds those columns of the right side that the left side does not have, unless a shared
column gets in the way. -/
theorem naturalColumns_cases (pos : Position) (left right : Columns) :
    naturalColumns pos left right = Pure.pure (right.filter fun col => !left.has col.1) ∨
      ∃ cause : Cause, cause.blamesStack = false ∧
        naturalColumns pos left right = Compiling.raise pos cause := by
  induction right with
  | nil => exact .inl rfl
  | cons col right ih =>
    obtain ⟨name, type⟩ := col
    rw [naturalColumns, filter_cons, Columns.has_eq_isSome_type?]
    cases left.type? name with
    | none =>
      refine ih.imp (fun heq => ?_) fun ⟨cause, hcause, heq⟩ => ⟨cause, hcause, ?_⟩
      · rw [heq]
        rfl
      · rw [heq]
        rfl
    | some leftType =>
      dsimp only
      split
      · exact ih
      · exact .inr ⟨_, rfl, rfl⟩

theorem naturalColumns_bind (pos : Position) {left right : Columns}
    {next next' : Columns → Compiling α} (hnext : J α (next (right.filter fun col => !left.has col.1))
      (next' (right.filter fun col => !left.has col.1))) :
    J α (naturalColumns pos left right >>= next) (naturalColumns pos left right >>= next') := by
  obtain heq | ⟨cause, hcause, heq⟩ := naturalColumns_cases pos left right
  · rw [heq]
    exact hnext
  · rw [heq]
    exact h.raise hcause

theorem disjointColumns_bind (pos : Position) {left right : Columns} {next next' : Unit → Compiling α}
    (hnext : (∀ name ∈ right.names, name ∉ left.names) → J α (next ()) (next' ())) :
    J α (disjointColumns pos left right >>= next) (disjointColumns pos left right >>= next') := by
  induction right with
  | nil => exact hnext (by simp [Columns.names])
  | cons col right ih =>
    rw [disjointColumns]
    split
    · exact h.raise rfl
    · rename_i hname
      exact ih fun hright => hnext (forall_mem_cons.mpr
        ⟨fun hmem => hname (Columns.has_iff.mpr hmem), hright⟩)

protected theorem disjointColumns (pos : Position) (left right : Columns) :
    Alone J (disjointColumns pos left right) := by
  rw [← bind_pure (disjointColumns pos left right)]
  exact h.disjointColumns_bind pos fun _ => h.pure trivial

protected theorem checkReachable (pos : Position) (condition : Plan) (hasElse : Bool) :
    Alone J (checkReachable pos condition hasElse) := by
  rw [checkReachable]
  split
  · exact h.warn pos rfl
  · split
    · exact h.warn pos rfl
    · exact h.pure trivial
  · exact h.pure trivial

protected theorem tableColumns? (spec : TypeSpec) : Both J e e' fun e => tableColumns? e spec := by
  unfold tableColumns?
  split
  · exact h.pure expresses_none
  · refine h.bind (h.compileType spec) fun type htype => ?_
    split
    · exact h.pure (expresses_some (V.type_rows.mp htype))
    · exact h.absent

protected theorem elementType? (spec : TypeSpec) : Both J e e' fun e => elementType? e spec := by
  unfold elementType?
  split
  · exact h.pure expresses_none
  · refine h.bind (h.compileType spec) fun type htype => ?_
    split
    · exact h.pure (expresses_some (V.type_list.mp htype))
    · exact h.absent

/-! ### Plans of expressions -/

theorem branchCondition (pos : Option Position) {sel : Option Plan}
    (hsel : V.Expresses sel) (hp : V.Expresses p) :
    Both J e e' fun e => Relational.branchCondition e pos sel p := by
  cases sel with
  | none => exact h.asCondition pos hp
  | some sel =>
    have hoperands : V.Expresses [sel, p] :=
      expresses_cons (hsel sel rfl) (expresses_cons hp expresses_nil)
    refine h.bind (h.locate pos) fun pos' _ => ?_
    exact h.bind (h.compileCall pos' _ hoperands) fun call hcall => h.asCondition pos hcall

theorem conditionalPlan (pos : Position) {condition thenBranch elseBranch : Plan}
    (hcond : V.Expresses condition) (hthen : V.Expresses thenBranch) (helse : V.Expresses elseBranch) :
    Both J e e' fun e => Relational.conditionalPlan e pos condition thenBranch elseBranch := by
  refine h.bind (h.unify _ (V.plan_type hthen) (V.plan_type helse)) fun type htype => ?_
  cases type with
  | none => exact h.raise rfl
  | some type =>
    refine h.bind (h.convert _ hthen (htype type rfl)) fun first hfirst => ?_
    refine h.bind (h.convert _ helse (htype type rfl)) fun second hsecond => ?_
    exact h.pure (V.plan_plain rfl htype (expresses_cons hcond
      (expresses_cons (V.stored_plan hfirst) (expresses_cons (V.stored_plan hsecond) expresses_nil))))

theorem casePlan (pos : Position) (htype : V.Expresses type)
    {branches : List (Plan × Option Position × Plan)} (hbranches : V.Expresses branches)
    {last : Option (Option Position × Plan)} (hlast : V.Expresses last) :
    Both J e e' fun e => Relational.casePlan e pos type branches last := by
  cases type with
  | none => exact h.raise rfl
  | some type =>
    have hvals : V.Expresses (branches.map Prod.snd) := by
      intro val hval
      obtain ⟨branch, hbranch, rfl⟩ := mem_map.mp hval
      exact (hbranches branch hbranch).2
    have hlast' : V.Expresses last.toList := fun val hval => hlast val (Option.mem_toList.mp hval)
    refine h.bind (h.convertAll (htype type rfl) hvals) fun vals hvals' => ?_
    refine h.bind (h.convertAll (htype type rfl) hlast') fun others hothers => ?_
    refine h.pure (V.plan_plain rfl htype fun child hkid => ?_)
    rcases mem_caseChildren hkid with ⟨branch, hbranch, rfl | rfl⟩ | hkid
    · obtain ⟨original, horiginal, heq⟩ := mem_map.mp (of_mem_zip hbranch).1
      exact heq ▸ (hbranches original horiginal).1
    · exact V.stored_plan (hvals' _ (of_mem_zip hbranch).2)
    · exact V.stored_plan (hothers child (mem_of_head? hkid))

protected theorem listPlan (pos : Position) (htype : V.Expresses type)
    {elements : List (Option Position × Plan)} (helements : V.Expresses elements) :
    Both J e e' fun e => listPlan e pos type elements := by
  simp only [listPlan]
  split
  · exact h.raise rfl
  · rename_i element hfilter
    have helement : V.Expresses element := htype element (Option.eq_some_of_filter_eq_some hfilter)
    exact h.bind (h.convertAll helement helements) fun _ hplans =>
      h.pure (V.plan_list helement hplans)

/-! ### Steps of statements -/

theorem assignmentTarget (p : Position) (name : String) :
    Both J e e' fun e => Relational.assignmentTarget e p name := by
  refine h.lookUp_bind .symbols p name (fun found hfound => ?_) fun found => ?_
  · split
    · split
      · exact h.raise rfl
      · split
        · exact h.raise rfl
        · exact h.pure ⟨trivial, V.place_type (hfound _ rfl)⟩
    · exact h.unknownName p name
  · rcases found with _ | _ | _
    all_goals rfl

protected theorem elementType (pos : Option Position) {src : Plan} (hsrc : V.Expresses src) :
    Alone J (elementType pos src) := by
  have htype := V.plan_type hsrc
  rw [elementType]
  split
  · exact h.pure (V.type_list.mp (htype _ ‹_›))
  · exact h.raise_located pos rfl
  iterate 2 exact h.pure (V.type_rows.mpr (V.type_rows.mp (htype _ ‹_›)))
  iterate 2 exact h.pure V.type_anyRow
  exact h.raise_located pos rfl

protected theorem errorType (p : Position) (name : String) : Alone J (errorType p name) := by
  rw [errorType]
  split
  · exact h.pure expresses_none
  · exact h.bind (h.systemType p "Error") fun _ htype => h.pure (expresses_some htype)

end IsCallwise

/-- Relations of actions, one for each setting, that the steps of compiling expressions are in. An action
in a scope is in the relation of a setting if its part is in that of the setting inside, and relational
constructs bring rows into scope. -/
structure IsScopewise {ι : Type} (enter : ι → List Symbol → ι) (V : ι → Vocabulary)
    (e e' : Environment) (J : ι → StepRelation) :
    Prop where
  calls : ∀ i, IsCallwise (V i) e e' (J i)
  inScope : ∀ {i symbols} {action action' : Compiling Plan}, (V i).Expresses symbols →
    J (enter i symbols) Plan action action' → @J i Plan (.inner symbols)
      (Compiling.inScope symbols action) (Compiling.inScope symbols action')
  compileRelational : ∀ {i} (position : Position) (name : String) {operands : List Plan},
    (∀ p ∈ operands, (V i).plan p ∨ ∃ symbols, (V i).inner symbols p) →
    (∃ p ∈ operands, ∃ heading, (V i).heading p.type heading) →
    @J i (Operator × List Plan) (.taken name operands)
      (Relational.compileRelational e position name operands)
      (Relational.compileRelational e' position name operands)

namespace IsScopewise

variable {ι : Type} {enter : ι → List Symbol → ι} {V : ι → Vocabulary} {e e' : Environment}
  {J : ι → StepRelation} (h : IsScopewise enter V e e' J)

include h

variable {i : ι}

/-! ### Relational expressions -/

section Relations

variable (pos : Position) {heading : Heading} {src : Plan} {cols : Columns} (hsrc : (V i).plan src)
  (hhead : (V i).heading src.type heading)

include hsrc hhead

theorem restrictPlan {condition : Plan} (hcond : (V i).inner [.ofRow heading] condition) :
    Both (J i) e e' fun e => Relational.restrictPlan e pos src condition := by
  refine (h.calls i).bind (h.compileRelational pos _ ?_ ⟨src, mem_cons_self, heading,
    hhead⟩) fun _ htaken => (h.calls i).pure ((V i).plan_restrict hsrc hhead hcond htaken)
  intro p hp
  rcases mem_pair.mp hp with rfl | rfl
  · exact .inl hsrc
  · exact .inr ⟨_, hcond⟩

theorem operator (name : String) : @Both (J i) e e' _ (.taken name [src])
      fun e => Relational.compileRelational e pos name [src] :=
  h.compileRelational pos name (fun _ hp => .inl (mem_singleton.mp hp ▸ hsrc))
    ⟨src, mem_cons_self, heading, hhead⟩

theorem plainRelation (name : String) (con : Operator → Construct)
    (hplain : ∀ op, (con op).isPlain 1) (hcols : (V i).columns cols) : Both (J i) e e' fun e => do
        let (op, operands) ← Relational.compileRelational e pos name [src]
        return Plan.make (con op) (some (.rows .table cols)) pos operands :=
  (h.calls i).bind (h.operator pos hsrc hhead name) fun _ htaken =>
    (h.calls i).pure ((V i).plan_taken (hplain _) hsrc htaken hcols)

theorem projectPlan (names : List String) :
    Both (J i) e e' fun e => Relational.projectPlan e pos heading src names := by
  refine (h.calls i).bind ((h.calls i).selectColumns pos
    ((V i).columns_of_toTy ((V i).heading_type hhead)) (V i).columns_nil names) fun cols hcols => ?_
  exact (h.calls i).step_if ((h.calls i).warn pos rfl)
    (h.plainRelation pos hsrc hhead _ (.project · cols.names) (fun _ => rfl) hcols)

theorem removePlan (names : List String) :
    Both (J i) e e' fun e => Relational.removePlan e pos heading src names := by
  have hcols := (V i).columns_of_toTy ((V i).heading_type hhead)
  refine (h.calls i).bind ((h.calls i).selectColumns pos hcols (V i).columns_nil names)
    fun removed _ => ?_
  exact (h.calls i).step_if ((h.calls i).warn pos rfl)
    (h.plainRelation pos hsrc hhead _ (.project · _) (fun _ => rfl) ((V i).columns_filter _ hcols))

theorem renamePlan (renames : List (String × String)) :
    Both (J i) e e' fun e => Relational.renamePlan e pos heading src renames :=
  (h.calls i).bind ((h.calls i).renameColumns pos heading
    ((V i).columns_of_toTy ((V i).heading_type hhead)) renames) fun _ hcols =>
      h.plainRelation pos hsrc hhead _ (.rename · renames) (fun _ => rfl) hcols

theorem extendPlan {vals : List (String × Ty × Plan)}
    (hvals : @Expresses _ (.values [.ofRow heading] heading.columns) (V i) vals) :
    Both (J i) e e' fun e => Relational.extendPlan e pos heading src vals := by
  refine (h.calls i).bind (h.operator pos hsrc hhead _) fun _ htaken =>
    (h.calls i).pure ((V i).plan_extend hsrc hhead (fun val hval => ?_) htaken hvals.1)
  obtain ⟨entry, hentry, rfl⟩ := mem_map.mp hval
  exact hvals.2 entry hentry

theorem joinPlan (kind : JoinKind) {right : Plan} {heading' : Heading} (hright : (V i).plan right)
    (hhead' : (V i).heading right.type heading') (condition : Option Plan)
    (hcond : ∀ p ∈ condition, (V i).inner [.ofRow heading, .ofRow heading'] p)
    (hcols : (V i).columns cols) : Both (J i) e e' fun e =>
        Relational.joinPlan e pos kind cols (src :: right :: condition.toList) := by
  refine (h.calls i).bind (h.compileRelational pos _ ?_ ⟨src, mem_cons_self, heading,
    hhead⟩) fun _ htaken => (h.calls i).pure ((V i).plan_join hsrc hright hhead hhead' hcond htaken hcols)
  intro p hp
  rcases mem_cons.mp hp with rfl | hp
  · exact .inl hsrc
  · rcases mem_cons.mp hp with rfl | hp
    · exact .inl hright
    · exact .inr ⟨_, hcond p (Option.mem_toList.mp hp)⟩

end Relations

omit h in
theorem expresses_row {heading : Heading} (hhead : (V i).heading type heading) :
    (V i).Expresses (Symbol.ofRow heading) :=
  (V i).symbol_row ((V i).heading_type hhead)

/-! ### Expressions -/

theorem condition {syms : List Symbol} (hsyms : (V i).Expresses syms) {x : Expr}
    (hx : Both (J (enter i syms)) e e' fun e => Relational.compileExpr e x) :
    @Both (J i) e e' _ (.inner syms) (fun e => Compiling.inScope syms do
      asCondition e x.position? (← Relational.compileExpr e x)) :=
  h.inScope hsyms ((h.calls _).bind hx fun _ hq => (h.calls _).asCondition _ hq)

theorem branch {act act' : Compiling Plan} (hact : J (enter i []) Plan act act') :
    J i Plan (Compiling.inScope [] act) (Compiling.inScope [] act') :=
  (h.calls i).imp (h.inScope expresses_nil hact) fun _ => (V i).inner_nil

mutual

/-- Compiling an expression in two environments is in every relation that its steps are in. -/
theorem compileExpr (i : ι) : (x : Expr) → Both (J i) e e' fun e => Relational.compileExpr e x
  | .missing => (h.calls i).raise rfl
  | .literal p val typeName => (h.calls i).compileLiteral p val typeName
  | .nil p => (h.calls i).pure ((V i).plan_literal (V i).type_nil)
  | .identifier p name => (h.calls i).compileName p name
  | .chain p parts => by
    simp only [Relational.compileExpr]
    have hi := h.calls i
    split
    · exact hi.bind (hi.chainNames p _) fun names _ => compileChainCall i names parts
    · split
      · exact hi.bind (hi.chainNames p _) fun names _ => hi.compileNames p [] names
      · refine hi.bind (compileFirst i parts) fun first hfirst => ?_
        exact hi.bind (hi.chainNames p _) fun names _ => hi.extractColumns p hfirst names
  | .call p name args => by
    simp only [Relational.compileExpr]
    exact (h.calls i).bind (compileArguments i args) fun _ hplans =>
      (h.calls i).compileCall p name hplans
  | .binary p operator left right => by
    simp only [Relational.compileExpr]
    have hi := h.calls i
    split
    · exact hi.raise rfl
    · refine hi.bind (compileExpr i left) fun l hl => ?_
      refine hi.bind (hi.requireValue _ hl) fun l' hl' => ?_
      refine hi.bind (compileExpr i right) fun r hr => ?_
      refine hi.bind (hi.requireValue _ hr) fun r' hr' => ?_
      exact hi.compileCall p _ (expresses_cons hl' (expresses_cons hr' expresses_nil))
  | .unary p operator operand => by
    simp only [Relational.compileExpr]
    have hi := h.calls i
    split
    · exact hi.raise rfl
    · refine hi.bind (compileExpr i operand) fun q hq => ?_
      refine hi.bind (hi.requireValue _ hq) fun q' hq' => ?_
      exact hi.compileCall p _ (expresses_cons hq' expresses_nil)
  | .conditional p condition thenBranch elseBranch => by
    simp only [Relational.compileExpr]
    have hi := h.calls i
    refine hi.bind (compileExpr i condition) fun q hq => ?_
    refine hi.bind (hi.asCondition _ hq) fun condition' hcond => ?_
    refine hi.bind (hi.checkReachable p condition' true) fun _ _ => ?_
    refine hi.bind (h.branch (compileExpr _ thenBranch)) fun first hfirst => ?_
    refine hi.step_ite (hi.pure ((V i).plan_literal (V i).type_nil)) (h.branch (compileExpr _ elseBranch))
      fun second hsecond => ?_
    exact hi.conditionalPlan p hcond hfirst hsecond
  | .case p sel items elseBranch => by
    simp only [Relational.compileExpr]
    have hi := h.calls i
    refine hi.step_ite (hi.pure expresses_none)
      (hi.map (compileExpr i sel) fun _ => expresses_some) fun sel' hsel => ?_
    refine hi.bind (compileItems i hsel expresses_none items) ?_
    rintro ⟨branches, type⟩ ⟨hbranches, htype⟩
    dsimp only
    split
    · exact hi.casePlan p htype hbranches expresses_none
    · refine hi.bind (h.branch (compileExpr _ elseBranch)) fun last hlast => ?_
      refine hi.bind (hi.unify _ htype ((V i).plan_type hlast)) fun type' htype' => ?_
      exact hi.casePlan p htype' hbranches (expresses_some ⟨expresses_position _, hlast⟩)
  | .row p cols spec => by
    simp only [Relational.compileExpr]
    have hi := h.calls i
    refine hi.bind (compileColumns i p expresses_nil (V i).columns_nil cols) fun vals hvals => ?_
    have hrow : (V i).Expresses (Plan.make (.rowSelector (vals.map Prod.fst))
        (some (.rows .row (vals.map fun (name, type, _) => (name, type)))) p
        (vals.map fun (_, _, val) => val)) := by
      refine (V i).plan_plain rfl ((V i).type_of_columns hvals.1) fun child hkid => ?_
      obtain ⟨val, hval, rfl⟩ := mem_map.mp hkid
      exact (V i).inner_nil (hvals.2 val hval)
    split
    · exact hi.pure hrow
    · exact hi.bind (hi.compileType spec) fun type htype =>
        hi.imp (hi.convert (some p) hrow htype) fun _ => (V i).stored_plan
  | .table p rows spec => by
    have hi := h.calls i
    refine hi.bind (hi.tableColumns? spec) fun cols hcols => ?_
    refine rows_bind i hcols (fun _ => ?_) (fun _ _ _ hchosen hrows => ?_) rows
    · exact hi.raise rfl
    · exact hi.pure ((V i).plan_table hchosen hrows)
  | .list p elements spec => by
    have hi := h.calls i
    refine hi.bind (hi.elementType? spec) fun type htype => ?_
    exact hi.bind (compileElements i type.isNone htype elements) fun (inferred, plans) hres =>
      hi.listPlan p hres.1 hres.2
  | .restrict p src condition => by
    have hi := h.calls i
    refine hi.bind (compileExpr i src) fun plan hplan => ?_
    refine hi.bind (hi.relationHeading _ hplan) fun heading hhead => ?_
    refine hi.bind (h.condition (expresses_cons (expresses_row hhead) expresses_nil)
      (compileExpr _ condition)) fun condition' hcond => ?_
    exact h.restrictPlan p hplan hhead hcond
  | .project p src names => by
    refine (h.calls i).bind (compileExpr i src) fun plan hplan => ?_
    exact (h.calls i).bind ((h.calls i).relationHeading _ hplan) fun heading hhead =>
      h.projectPlan p hplan hhead names
  | .remove p src names => by
    refine (h.calls i).bind (compileExpr i src) fun plan hplan => ?_
    exact (h.calls i).bind ((h.calls i).relationHeading _ hplan) fun heading hhead =>
      h.removePlan p hplan hhead names
  | .rename p src renames => by
    refine (h.calls i).bind (compileExpr i src) fun plan hplan => ?_
    exact (h.calls i).bind ((h.calls i).relationHeading _ hplan) fun heading hhead =>
      h.renamePlan p hplan hhead renames
  | .extend p src cols => by
    refine (h.calls i).bind (compileExpr i src) fun plan hplan => ?_
    refine (h.calls i).bind ((h.calls i).relationHeading _ hplan) fun heading hhead => ?_
    exact (h.calls i).bind (compileColumns i p (expresses_cons (expresses_row hhead) expresses_nil)
      ((V i).columns_of_toTy ((V i).heading_type hhead)) cols) fun vals hvals =>
        h.extendPlan p hplan hhead hvals
  | .join p kind left right condition => by
    have hi := h.calls i
    refine hi.bind (compileExpr i left) fun leftPlan hleft => ?_
    refine hi.bind (compileExpr i right) fun rightPlan hright => ?_
    refine hi.bind (hi.relationHeading _ hleft) fun leftHeading hhead => ?_
    refine hi.bind (hi.relationHeading _ hright) fun rightHeading hhead' => ?_
    have hcols := (V i).columns_of_toTy ((V i).heading_type hhead)
    have hcols' := (V i).columns_of_toTy ((V i).heading_type hhead')
    split
    · refine hi.naturalColumns_bind p ?_
      refine h.joinPlan p hleft hhead kind hright hhead' none (by simp)
        ((V i).columns_append hcols ((V i).columns_filter _ hcols') fun name hname => ?_)
      obtain ⟨col, hcol, rfl⟩ := mem_map.mp hname
      intro hmem
      simpa [Columns.has_iff.mpr hmem] using (mem_filter.mp hcol).2
    · refine hi.disjointColumns_bind p fun hdisjoint => ?_
      have hscope := expresses_cons (expresses_row hhead)
        (expresses_cons (expresses_row hhead') expresses_nil)
      refine hi.bind (h.condition hscope (compileExpr _ condition)) fun condition' hcond => ?_
      exact h.joinPlan p hleft hhead kind hright hhead' (some condition')
        (expresses_some hcond) ((V i).columns_append hcols hcols' hdisjoint)
  | .other p => (h.calls i).raise rfl

theorem compileArguments (i : ι) : (xs : List Expr) →
    Both (J i) e e' fun e => Relational.compileArguments e xs
  | [] => (h.calls i).pure expresses_nil
  | x :: xs => by
    simp only [Relational.compileArguments]
    refine (h.calls i).bind (compileExpr i x) fun first hfirst => ?_
    refine (h.calls i).bind ((h.calls i).requireValue _ hfirst) fun first' hfirst' => ?_
    exact (h.calls i).bind (compileArguments i xs) fun _ hrest =>
      (h.calls i).pure (expresses_cons hfirst' hrest)

theorem compileChainCall (i : ι) (names : List String) : (xs : List Expr) →
    Both (J i) e e' fun e => Relational.compileChainCall e names xs
  | [] => (h.calls i).absent
  | [first] => by
    cases first with
    | call p name args =>
      simp only [Relational.compileChainCall]
      exact (h.calls i).bind (compileArguments i args) fun _ hplans =>
        (h.calls i).compileCall p _ hplans
    | _ => exact (h.calls i).absent
  | first :: second :: rest => by
    have hskip : ∀ e, Relational.compileChainCall e names (first :: second :: rest) =
        Relational.compileChainCall e names (second :: rest) := by
      intro e
      cases first <;> rfl
    simp only [hskip]
    exact compileChainCall i names (second :: rest)

theorem compileFirst (i : ι) : (xs : List Expr) → Both (J i) e e' fun e => Relational.compileFirst e xs
  | [] => (h.calls i).absent
  | x :: _ => by
    simp only [Relational.compileFirst]
    exact compileExpr i x

theorem compileColumns (i : ι) (p : Position) {syms : List Symbol}
    (hsyms : (V i).Expresses syms) {done : Columns} (hdone : (V i).columns done) :
    (cols : List (String × Expr)) → @Both (J i) e e' _ (.values syms done)
      fun e => Relational.compileColumns e p syms done cols
  | [] => (h.calls i).pure ⟨(append_nil done).symm ▸ hdone, fun _ hv => absurd hv not_mem_nil⟩
  | (name, val) :: rest => by
    simp only [Relational.compileColumns]
    have hi := h.calls i
    split
    · exact hi.raise rfl
    · refine hi.bind (h.inScope hsyms (compileExpr _ val)) fun plan hplan => ?_
      split
      · exact hi.raise_located _ rfl
      · rename_i type htype
        have hdone' := (V i).columns_concat hdone ‹_› ((V i).inner_type hplan type htype)
        refine hi.bind (compileColumns i p hsyms hdone' rest) fun later hlater => hi.pure ⟨?_, ?_⟩
        · simpa using hlater.1
        · exact forall_mem_cons.mpr ⟨hplan, hlater.2⟩

theorem compileItems (i : ι) {sel : Option Plan} (hsel : (V i).Expresses sel)
    {type : Option Ty} (htype : (V i).Expresses type) : (items : List (Expr × Expr)) →
    Both (J i) e e' fun e => Relational.compileItems e sel type items
  | [] => (h.calls i).pure ⟨expresses_nil, htype⟩
  | (condition, val) :: items => by
    simp only [Relational.compileItems]
    have hi := h.calls i
    refine hi.bind (compileExpr i condition) fun q hq => ?_
    refine hi.bind (hi.branchCondition _ hsel hq) fun condition' hcond => ?_
    refine hi.bind (h.branch (compileExpr _ val)) fun plan hplan => ?_
    refine hi.bind (hi.unify _ htype ((V i).plan_type hplan)) fun type' htype' => ?_
    refine hi.bind (compileItems i hsel htype' items) fun (branches, last) hres => ?_
    exact hi.pure ⟨expresses_cons ⟨hcond, expresses_position _, hplan⟩ hres.1, hres.2⟩

theorem rows_bind (i : ι) {β : Type} {B : Expressible β} {cols : Option Columns}
    (hcols : (V i).Expresses cols) {next next' : Option Columns × List Plan → Compiling β}
    (hnone : cols = none → J i β (next (none, [])) (next' (none, [])))
    (hsome : ∀ chosen rows, (∀ given ∈ cols, given = chosen) → (V i).columns chosen →
      (∀ row ∈ rows, (V i).stored (.rows .row chosen) row) →
        J i β (next (some chosen, rows)) (next' (some chosen, rows))) : (rows : List Expr) →
    J i β (Relational.compileRows e cols rows >>= next) (Relational.compileRows e' cols rows >>= next')
  | [] => by
    cases cols with
    | none => exact hnone rfl
    | some cols => exact hsome cols [] (by simp) (hcols cols rfl) (by simp)
  | row :: rows => by
    rw [Relational.compileRows, Relational.compileRows, bind_assoc, bind_assoc]
    have hi := h.calls i
    refine hi.bind (compileExpr i row) fun plan hplan => ?_
    cases hfilter : plan.type.filter Ty.isRow with
    | none =>
      dsimp only
      rw [bind_assoc, bind_assoc]
      exact hi.bind (hi.locate _) fun _ _ => hi.raise_bind rfl
    | some type =>
      have hchosen : (V i).columns (cols.getD type.rowColumns) := by
        cases cols with
        | none =>
          exact (V i).columns_rowColumns
            ((V i).plan_type hplan type (Option.eq_some_of_filter_eq_some hfilter))
        | some cols => exact hcols cols rfl
      rw [bind_assoc, bind_assoc]
      refine hi.bind (hi.convert _ hplan ((V i).type_rows.mpr hchosen)) fun first hfirst => ?_
      rw [bind_assoc, bind_assoc]
      -- The columns are given from here on, and they stay the same.
      refine rows_bind i (expresses_some hchosen) (by simp) (fun _ rest hsame _ hrest => ?_) rows
      obtain rfl := hsame _ rfl
      exact hsome _ (first :: rest) (by simp +contextual) hchosen (forall_mem_cons.mpr ⟨hfirst, hrest⟩)

theorem compileElements (i : ι) (isInferred : Bool) {type : Option Ty}
    (htype : (V i).Expresses type) : (elements : List Expr) →
    Both (J i) e e' fun e => Relational.compileElements e isInferred type elements
  | [] => (h.calls i).pure ⟨htype, expresses_nil⟩
  | element :: elements => by
    simp only [Relational.compileElements]
    have hi := h.calls i
    refine hi.bind (compileExpr i element) fun plan hplan => ?_
    refine hi.step_ite (hi.unify _ htype ((V i).plan_type hplan)) (hi.pure htype) fun type' htype' => ?_
    refine hi.bind (compileElements i isInferred htype' elements) fun (last, rest) hres => ?_
    exact hi.pure ⟨hres.1, expresses_cons ⟨expresses_position _, hplan⟩ hres.2⟩

end

theorem tableRows (i : ι) {cols : Option Columns} (hcols : (V i).Expresses cols)
    (rows : List Expr) : J i (Option Columns × List Plan) (Relational.compileRows e cols rows)
      (Relational.compileRows e' cols rows) := by
  have hi := h.calls i
  rw [← bind_pure (compileRows e cols rows), ← bind_pure (compileRows e' cols rows)]
  refine h.rows_bind i hcols (fun _ => ?_) (fun _ _ _ hchosen hrows => ?_) rows
  · exact hi.pure ⟨expresses_none, expresses_nil⟩
  · exact hi.pure ⟨expresses_some hchosen, fun row hrow => (V i).stored_plan (hrows row hrow)⟩

/-! ### Steps before a part -/

section Prefixes

variable (i : ι)

protected theorem selectorPlan (sel : Expr) : Both (J i) e e' fun e => selectorPlan e sel := by
  simp only [selectorPlan]
  split
  · exact (h.calls i).pure expresses_none
  · exact (h.calls i).map (h.compileExpr i sel) fun _ => expresses_some

theorem testedCondition (p : Position) (condition : Expr) (hasElse : Bool) :
    Both (J i) e e' fun e => Relational.testedCondition e p condition hasElse :=
  (h.calls i).bind (h.compileExpr i condition) fun _ hq =>
    (h.calls i).bind ((h.calls i).asCondition _ hq) fun q' _ => (h.calls i).checkReachable p q' hasElse

theorem sourceHeading (src : Expr) :
    @Both (J i) e e' _ ⟨fun V heading => V.type (heading.toTy .row), fun _ => trivial⟩
      fun e => Relational.sourceHeading e src :=
  (h.calls i).bind (h.compileExpr i src) fun _ hp =>
    (h.calls i).imp ((h.calls i).relationHeading _ hp) fun _ => (V i).heading_type

theorem joinHeadings (p : Position) (left right : Expr) :
    @Both (J i) e e' _ .headings fun e => Relational.joinHeadings e p left right := by
  have hi := h.calls i
  refine hi.bind (h.compileExpr i left) fun _ hleft => hi.bind (h.compileExpr i right) fun _ hright => ?_
  refine hi.bind (hi.relationHeading _ hleft) fun _ hhead => ?_
  refine hi.bind (hi.relationHeading _ hright) fun _ hhead' => ?_
  exact hi.bind (hi.disjointColumns p _ _) fun _ _ =>
    hi.pure ⟨(V i).heading_type hhead, (V i).heading_type hhead'⟩

end Prefixes

end IsScopewise

/-- Where a part of an expression is compiled: what holds from step to step holds there, or it holds around
a scope whose symbols have no names. -/
theorem IsScopewise.exists_opened {ι : Type} {enter : ι → List Symbol → ι} {V : ι → Vocabulary}
    {e : Environment} {J : ι → StepRelation} (h : IsScopewise enter V e e J) {P : ι → Builder → Prop}
    (hends : ∀ {α : Type} {_ : Expressible α} {i} {act : Compiling α} {val : α} {b b' : Builder},
      J i α act act → act b = (.ok val, b') → P i b → P i b' ∧ (V i).Expresses val)
    {i : ι} {x : Expr} {part : Part} {b b' : Builder} (hpart : Enters e (.expr x) b part b') (hb : P i b) :
    P i b' ∨ ∃ b₁ syms, b' = b₁.enter syms ∧ P i b₁ ∧ (V i).Expresses syms ∧
      ∀ sym ∈ syms, sym.name = "" := by
  have hi := h.calls i
  have hrow : ∀ heading, (Symbol.ofRow heading).name = "" := fun _ => rfl
  have hnil : ∀ b₁, P i b₁ → ∃ b₂ syms, b₁.enter [] = b₂.enter syms ∧ P i b₂ ∧
      (V i).Expresses syms ∧ ∀ sym ∈ syms, sym.name = "" :=
    fun b₁ hb₁ => ⟨b₁, [], rfl, hb₁, expresses_nil, by simp⟩
  cases hpart with
  | first => exact .inl hb
  | argument hrun => exact .inl (hends (h.compileArguments i _) hrun hb).1
  | chainArgument hrun =>
    exact .inl (hends (hi.bind (hi.chainNames _ _) fun _ _ => h.compileArguments i _) hrun hb).1
  | rightOperand _ hrun =>
    exact .inl (hends (hi.bind (h.compileExpr i _) fun _ hq => hi.requireValue _ hq) hrun hb).1
  | thenValue hrun => exact .inr (hnil _ (hends (h.testedCondition i _ _ _) hrun hb).1)
  | elseValue hrun =>
    exact .inr (hnil _ (hends (hi.bind (h.testedCondition i _ _ _) fun _ _ =>
      h.inScope expresses_nil (h.compileExpr _ _)) hrun hb).1)
  | caseCondition hrun =>
    exact .inl (hends (hi.bind (h.selectorPlan i _) fun _ hs =>
      h.compileItems i hs expresses_none _) hrun hb).1
  | caseValue hrun =>
    exact .inr (hnil _ (hends (hi.bind (h.selectorPlan i _) fun _ hs =>
      hi.bind (h.compileItems i hs expresses_none _) fun _ _ =>
        hi.bind (h.compileExpr i _) fun _ hq => hi.branchCondition _ hs hq) hrun hb).1)
  | caseElse hrun =>
    exact .inr (hnil _ (hends (hi.bind (h.selectorPlan i _) fun _ hs =>
      h.compileItems i hs expresses_none _) hrun hb).1)
  | column hrun =>
    exact .inr (hnil _ (hends (h.compileColumns i _ expresses_nil (V i).columns_nil _) hrun hb).1)
  | row hrun =>
    exact .inl (hends (hi.bind (hi.tableColumns? _) fun _ hcols => h.tableRows i hcols _) hrun hb).1
  | element hrun =>
    exact .inl (hends (hi.bind (hi.elementType? _) fun _ htype =>
      h.compileElements i _ htype _) hrun hb).1
  | restriction hrun =>
    obtain ⟨hb', hhead⟩ := hends (h.sourceHeading i _) hrun hb
    exact .inr ⟨_, _, rfl, hb', expresses_cons ((V i).symbol_row hhead) expresses_nil, by simp [hrow]⟩
  | computed hsrc hrun =>
    obtain ⟨hb₁, hhead⟩ := hends (h.sourceHeading i _) hsrc hb
    have hsyms : (V i).Expresses [Symbol.ofRow _] := expresses_cons ((V i).symbol_row hhead) expresses_nil
    exact .inr ⟨_, _, rfl, (hends (h.compileColumns i _ hsyms ((V i).columns_of_toTy hhead) _)
      hrun hb₁).1, hsyms, by simp [hrow]⟩
  | joinRight hrun => exact .inl (hends (h.compileExpr i _) hrun hb).1
  | joinCondition hrun =>
    obtain ⟨hb', hleft, hright⟩ := hends (h.joinHeadings i _ _ _) hrun hb
    exact .inr ⟨_, _, rfl, hb', expresses_cons ((V i).symbol_row hleft)
      (expresses_cons ((V i).symbol_row hright) expresses_nil), by simp [hrow]⟩

/-- A relation of actions that the steps of compiling expressions are in, and that actions in scopes are in
if their parts are, with a vocabulary that does not tell settings apart. -/
structure IsStepwise (V : Vocabulary) (e e' : Environment) (J : StepRelation) : Prop
    extends IsCallwise V e e' J where
  uniform : V.IsUniform
  inScope : ∀ {α : Type} {_ : Expressible α} {action action' : Compiling α} {symbols : List Symbol},
    V.Expresses symbols → J α action action' →
      J α (Compiling.inScope symbols action) (Compiling.inScope symbols action')
  overloadForTables : ∀ (position : Position) (name : String) {operands : List Plan},
    V.Expresses operands →
      Both J e e' fun e => Relational.overloadForTables e position name operands

namespace IsStepwise

variable {V : Vocabulary} {e e' : Environment} {J : StepRelation} (h : IsStepwise V e e' J)

include h

theorem compileRelational (pos : Position) (name : String) (hoperands : V.Expresses operands) :
    Both J e e' fun e => Relational.compileRelational e pos name operands :=
  h.bind (h.at_ (h.overloadForTables pos name hoperands) pos) fun _ hfound =>
    h.bind (h.bindCall pos hfound.1 hfound.2) fun _ hbound => h.pure ⟨hfound.1.1, hbound.1⟩

theorem isScopewise :
    IsScopewise (fun _ _ => ()) (fun _ : Unit => V) e e' fun _ α [Expressible α] => J α where
  calls _ := h.toIsCallwise
  inScope hsyms hact := h.imp (h.inScope hsyms hact) fun _ => h.uniform.inner_iff.mpr
  compileRelational pos name _ hoperands _ := by
    refine h.imp (h.compileRelational pos name fun p hp => ?_) fun _ hres =>
      h.uniform.taken hres.1 hres.2
    exact (hoperands p hp).elim id fun ⟨_, hinner⟩ => h.uniform.inner_iff.mp hinner

/-- Compiling an expression in two environments is in every relation that its steps are in. -/
theorem compileExpr (x : Expr) : J Plan (Relational.compileExpr e x) (Relational.compileExpr e' x) :=
  h.isScopewise.compileExpr () x

end IsStepwise

/-- Whether a construct is a statement without a symbol of its own. -/
def Construct.isStatement : Construct → Bool
  | block | assignment _ | conditional | case | whileLoop | breakLoop | continueLoop | raise => true
  | _ => false

/-- A relation of actions that the steps of compiling statements are in as well, and that actions in
windows, loops and handlers and actions whose failures are recorded are in if their parts are. -/
structure IsStmtStepwise (V : Vocabulary) (e e' : Environment) (J : StepRelation) : Prop
    extends IsStepwise V e e' J where
  symbol : ∀ (name : String) {type : Option Ty} (isConstant : Bool), V.Expresses type →
    V.Expresses ({ name, type, isConstant } : Symbol)
  inWindow : ∀ {α : Type} {_ : Expressible α} {action action' : Compiling α}, J α action action' →
    J α (Compiling.inWindow action) (Compiling.inWindow action')
  within : ∀ {α : Type} {_ : Expressible α} {place} {action action' : Compiling α}, J α action action' →
    J α (Compiling.within place action) (Compiling.within place action')
  push : ∀ {symbol : Symbol}, V.Expresses symbol →
    Alone J (Compiling.push symbol)
  markModified : ∀ index, Alone J (Compiling.markModified index)
  safely : ∀ {action action' : Compiling Plan}, J Plan action action' → ∀ position,
    J Plan (Compiling.safely position action) (Compiling.safely position action')
  get_bind : ∀ {α : Type} {_ : Expressible α} {next next' : Builder → Compiling α},
    (∀ b, J α (next b) (next' b)) → (∀ b b' : Builder, b.Alike b' → next b' = next b) →
      J α (get >>= next) (get >>= next')

namespace IsStmtStepwise

variable {V : Vocabulary} {e e' : Environment} {J : StepRelation} (h : IsStmtStepwise V e e' J)

include h

theorem statement {con : Construct} (hcon : con.isStatement) (hkids : V.Expresses children) :
    Alone J (pure (Plan.make con none pos children)) := by
  refine h.pure (h.uniform.planning.plan_node ?_ ?_ expresses_none hkids)
  all_goals
    cases con <;> simp_all [Construct.isStatement, Construct.kind, Construct.symbolType?]

protected theorem checkLoopVariable (p : Position) (name : String) (type : Ty) :
    Alone J (checkLoopVariable p name type) := by
  rw [checkLoopVariable]
  split
  · split
    · exact h.pure trivial
    · exact h.raise rfl
  · refine h.get_bind (fun b => ?_) fun b b' halike => by simp only [halike.collisions_eq]
    dsimp only
    split
    · exact h.pure trivial
    · exact h.raise rfl

protected theorem declare (p : Position) (name : String) (htype : V.Expresses type)
    {default : Option (Option Position × Plan)} (hdefault : V.Expresses default) (isConstant : Bool) :
    Both J e e' fun e => declare e p name type default isConstant := by
  simp only [Relational.declare]
  refine h.bind (h.typedValue htype hdefault) fun x hx => ?_
  unfold declareAs
  split
  · exact h.fatal
  · rename_i declared hfilter
    have hdecl : V.Expresses (some declared) :=
      expresses_some (hx.1 declared (Option.eq_some_of_filter_eq_some hfilter))
    refine h.step_if (h.raise rfl) ?_
    refine h.bind (h.push (h.symbol name isConstant hdecl)) fun _ _ => ?_
    exact h.pure (h.uniform.planning.plan_node (by simp [Construct.kind]) hdecl expresses_none
      fun val hval => hx.2 val (Option.mem_toList.mp hval))

mutual

/-- Compiling a statement in two environments is in every relation that its steps are in. -/
theorem compileStmt : (s : Stmt) → Both J e e' fun e => Relational.compileStmt e s
  | .missing => h.absent
  | .block p stmts => by
    simp only [Relational.compileStmt]
    exact h.inScope expresses_nil (h.bind (compileBlock stmts) fun _ hblock =>
      h.statement rfl hblock)
  | .declaration p name spec default isConstant => by
    simp only [Relational.compileStmt]
    have hdeclare : ∀ type, V.Expresses type → Both J e e' fun e =>
        (if default.isMissing then declare e p name type none isConstant
        else do
          let val ← Compiling.inWindow (Relational.compileExpr e default)
          declare e p name type (some (default.position?, val)) isConstant) := by
      intro type htype
      split
      · exact h.declare p name htype expresses_none isConstant
      · refine h.bind (h.inWindow (h.compileExpr default)) fun val hval => ?_
        exact h.declare p name htype (expresses_some ⟨expresses_position _, hval⟩) isConstant
    refine h.get_bind (fun b => ?_) fun b b' halike => by simp only [halike.collisions_eq]
    refine h.step_unless (h.raise rfl) ?_
    split
    · exact hdeclare none expresses_none
    · exact h.bind (h.map (h.compileType spec) fun _ => expresses_some) hdeclare
  | .assignment p name val => by
    simp only [Relational.compileStmt]
    refine h.bind (h.assignmentTarget p name) fun (location, type) htgt => ?_
    refine h.bind (h.compileExpr val) fun q hq => ?_
    split
    · exact h.absent
    · refine h.bind (h.convert _ hq (htgt.2 _ ‹_›)) fun q' hq' => ?_
      exact h.bind (h.markModified _) fun _ _ =>
        h.statement rfl (expresses_cons (V.stored_plan hq') expresses_nil)
  | .conditional p condition thenBranch elseBranch => by
    refine h.bind (h.compileExpr condition) fun q hq => ?_
    refine h.bind (h.asCondition _ hq) fun q' hq' => ?_
    refine h.bind (h.checkReachable p q' _) fun _ _ => ?_
    refine h.bind (h.inScope expresses_nil (compileStmt thenBranch)) fun first hfirst => ?_
    split
    · exact h.statement rfl (expresses_cons hq' (expresses_cons hfirst expresses_nil))
    · exact h.bind (h.inScope expresses_nil (compileStmt elseBranch)) fun second hsecond =>
        h.statement rfl (expresses_cons hq' (expresses_cons hfirst
          (expresses_cons hsecond expresses_nil)))
  | .case p sel items elseBranch => by
    refine h.step_ite (h.pure expresses_none)
      (h.map (h.compileExpr sel) fun _ => expresses_some) fun sel' hsel => ?_
    refine h.bind (compileBranches hsel items) fun branches hbranches => ?_
    have hkids : ∀ last : Option Plan, V.Expresses last → V.Expresses (caseChildren branches last) := by
      intro last hlast child hkid
      rcases mem_caseChildren hkid with ⟨branch, hbranch, rfl | rfl⟩ | hkid
      · exact (hbranches branch hbranch).1
      · exact (hbranches branch hbranch).2
      · exact hlast child hkid
    split
    · exact h.statement rfl (hkids none expresses_none)
    · exact h.bind (h.inScope expresses_nil (compileStmt elseBranch)) fun last hlast =>
        h.statement rfl (hkids (some last) (expresses_some hlast))
  | .while p condition body => by
    refine h.bind (h.compileExpr condition) fun q hq => ?_
    refine h.bind (h.asCondition _ hq) fun q' hq' => ?_
    exact h.bind (h.within (h.inScope expresses_nil (compileStmt body))) fun body' hbody =>
      h.statement rfl (expresses_cons hq' (expresses_cons hbody expresses_nil))
  | .forEach p name src body => by
    refine h.bind (h.compileExpr src) fun q hq => ?_
    refine h.bind (h.elementType _ hq) fun type htype => ?_
    refine h.bind (h.checkLoopVariable p name type) fun _ _ => ?_
    have hvar := h.symbol name false (expresses_some htype)
    refine h.bind (h.inScope (expresses_cons hvar expresses_nil) (h.within (compileStmt body)))
      fun body' hbody => ?_
    exact h.pure (h.uniform.planning.plan_node (by simp [Construct.kind]) (expresses_some htype)
      expresses_none (expresses_cons hq (expresses_cons hbody expresses_nil)))
  | .break p | .continue p => by
    refine h.get_bind (fun b => ?_) fun b b' halike => by rw [halike.nesting]
    exact h.step_if (h.raise rfl) (h.statement rfl expresses_nil)
  | .try p body name handler => by
    refine h.bind (h.inScope expresses_nil (compileStmt body)) fun body' hbody => ?_
    refine h.bind (h.errorType p name) fun type htype => ?_
    have hsyms : V.Expresses (if name = "" then [] else [({ name, type } : Symbol)]) := by
      split
      · exact expresses_nil
      · exact expresses_cons (h.symbol name false htype) expresses_nil
    have htry : ∀ children, V.Expresses children →
        V.Expresses (Plan.make (.tryHandler name type) none p children) := fun _ hkids =>
      h.uniform.planning.plan_node (by simp [Construct.kind]) htype expresses_none hkids
    split
    · exact h.pure (htry _ (expresses_cons hbody expresses_nil))
    · exact h.bind (h.inScope hsyms (h.within (compileStmt handler))) fun handler' hhandler =>
        h.pure (htry _ (expresses_cons hbody (expresses_cons hhandler expresses_nil)))
  | .raise p error => by
    simp only [Relational.compileStmt]
    split
    · refine h.get_bind (fun b => ?_) fun b b' halike => by rw [halike.nesting]
      exact h.step_if (h.raise rfl) (h.statement rfl expresses_nil)
    · refine h.bind (h.compileExpr error) fun q hq => ?_
      refine h.bind (h.systemType p "Error") fun type htype => ?_
      exact h.bind (h.convert _ hq htype) fun q' hq' =>
        h.statement rfl (expresses_cons (V.stored_plan hq') expresses_nil)
  | .expression _ val => h.compileExpr val
  | .other p => h.raise rfl

theorem compileBlock : (ss : List Stmt) → Both J e e' fun e => Relational.compileBlock e ss
  | [] => h.pure expresses_nil
  | s :: ss => by
    simp only [Relational.compileBlock]
    refine h.bind (h.safely (compileStmt s) s.position?) fun first hfirst => ?_
    exact h.bind (compileBlock ss) fun rest hrest => h.pure (expresses_cons hfirst hrest)

theorem compileBranches {sel : Option Plan} (hsel : V.Expresses sel) :
    (items : List (Expr × Stmt)) → Both J e e' fun e => Relational.compileBranches e sel items
  | [] => h.pure expresses_nil
  | (condition, statement) :: rest => by
    simp only [Relational.compileBranches]
    refine h.bind (h.compileExpr condition) fun q hq => ?_
    refine h.bind (h.branchCondition _ hsel hq) fun q' hq' => ?_
    refine h.bind (h.inScope expresses_nil (compileStmt statement)) fun branch hbranch => ?_
    exact h.bind (compileBranches hsel rest) fun branches hbranches =>
      h.pure (expresses_cons ⟨hq', hbranch⟩ hbranches)

end

end IsStmtStepwise

end Relational
