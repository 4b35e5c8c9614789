import Relational.Proofs.Compile.Ground
import Relational.Proofs.Compile.Marks

/-!
# Compilations in company

Two compilations on one ground go along with each other if they differ in nothing but what is remembered,
what is known of table variables and which objects are being compiled again. The second one keeps to the
first: it comes to the same outcome by the same steps. How much the two may differ in, and whether the
second keeps to the first when that fails as well, depends on the company. Whatever the company, all steps
of compiling are taken together, as long as the two go along when a stale table variable comes up.
-/

namespace Relational

open Compiling Vocabulary List

/-- The compilation with a workspace in place of its own, and with other objects being compiled again. -/
def Builder.on (b : Builder) (w : Workspace) (busy : List String) : Builder :=
  { b with workspace := w, recompiling := busy }

/-- In what two compilations on one ground may differ: what is asked of what the first knows and of the
objects that it is compiling again, how the second compares in both, up to where this is known to go well,
and whether the second fails as the first does. -/
structure Company where
  Admits : Readings → List String → Prop
  Beside : Readings → Readings → List String → List String → Prop
  Within : Readings → Prop
  isExact : Prop
  within_of_le : ∀ {known known' : Readings}, known ≤ known' → Within known' → Within known
  agrees : ∀ {known known' : Readings} {busy busy' : List String} {name : String}
    {references references' : List String}, Beside known known' busy busy' → Within known →
      known.of name = some references → known'.of name = some references' → references = references'

namespace Ground

variable (G : Ground) (C : Company)

/-- A compilation on the ground that is admitted, with symbols of types in play. -/
structure Stands (b : Builder) : Prop where
  holds : G.Holds b.workspace
  scope : b.scope = G.scope
  symbols : G.Expresses b.stack.symbols
  admits : C.Admits (G.known b.workspace) b.recompiling

/-- From a state with something known and objects being compiled again, a compilation comes to an outcome,
and one that keeps to it comes to the same. -/
structure TogetherAt {α : Type} [Expressible α] (known : Readings) (busy : List String)
    (out : Except Abort α × Builder) (out' : Workspace → List String → Except Abort α × Builder) :
    Prop where
  stands : G.Stands C out.2
  recompiling : out.2.recompiling = busy
  le : known ≤ G.known out.2.workspace
  value : ∀ value, out.1 = .ok value → G.Expresses value
  follows : C.Within (G.known out.2.workspace) → (C.isExact ∨ ∃ value, out.1 = .ok value) →
    ∀ w busy', G.Holds w → C.Beside known (G.known w) busy busy' →
      ∃ w', out' w busy' = (out.1, out.2.on w' busy') ∧ G.Holds w' ∧
        C.Beside (G.known out.2.workspace) (G.known w') busy busy'

/-- Actions that are taken together from every state. -/
def Together {α : Type} [Expressible α] (action action' : Compiling α) : Prop :=
  ∀ b, G.Stands C b → G.TogetherAt C (G.known b.workspace) b.recompiling (action b)
    fun w busy => action' (b.on w busy)

variable {G C} {α β : Type} [Expressible α] [Expressible β] {obj : CatalogObject} {b : Builder}

namespace TogetherAt

variable {b₁ : Builder} {known : Readings} {busy : List String}

theorem of_same {res : Except Abort α} (hb : G.Stands C b) (hws : b₁.workspace = b.workspace)
    (hrecompiling : b₁.recompiling = b.recompiling) (hscope : b₁.scope = b.scope)
    (hsyms : G.Expresses b₁.stack.symbols) (hval : ∀ value, res = .ok value → G.Expresses value) :
    G.TogetherAt C (G.known b.workspace) b.recompiling (res, b₁) fun w busy => (res, b₁.on w busy) where
  stands := ⟨hws ▸ hb.holds, hscope.trans hb.scope, hsyms, hws ▸ hrecompiling ▸ hb.admits⟩
  recompiling := hrecompiling
  le := hws ▸ Readings.refl _
  value := hval
  follows _ _ w _ hw hbeside := ⟨w, rfl, hw, hws ▸ hbeside⟩

variable {out : Except Abort α × Builder}
  {out' out'' : Workspace → List String → Except Abort α × Builder}

theorem after (h : G.TogetherAt C known busy out out')
    {f : Except Abort α × Builder → Except Abort β × Builder}
    (hon : ∀ res b₁ w busy, G.Holds b₁.workspace → G.Holds w → f (res, b₁.on w busy) =
      ((f (res, b₁)).1, (f (res, b₁)).2.on w busy)) (hscope : ∀ res b₁, (f (res, b₁)).2.scope = b₁.scope)
    (hsyms : ∀ res b₁, G.Expresses b₁.stack.symbols →
      G.Expresses (f (res, b₁)).2.stack.symbols)
    (hval : ∀ res b₁ val, (∀ val, res = .ok val → G.Expresses val) →
      (f (res, b₁)).1 = .ok val → G.Expresses val)
    (hok : C.isExact ∨ ∀ res b₁ val, (f (res, b₁)).1 = .ok val → ∃ val, res = .ok val) :
    G.TogetherAt C known busy (f out) fun w busy => f (out' w busy) := by
  obtain ⟨res, b₁⟩ := out
  obtain ⟨⟨hholds, hscope₁, hsyms₁, hadmits⟩, hrecompiling, hle, hval₁, hfollows⟩ := h
  -- nothing but the rest of the state is looked at, so that both are left as they were
  have hself := hon res b₁ b₁.workspace b₁.recompiling hholds hholds
  have hws : (f (res, b₁)).2.workspace = b₁.workspace :=
    (congrArg (·.2.workspace) hself :)
  have hbusy : (f (res, b₁)).2.recompiling = b₁.recompiling :=
    (congrArg (·.2.recompiling) hself :)
  refine ⟨⟨hws ▸ hholds, (hscope res b₁).trans hscope₁, hsyms res b₁ hsyms₁,
    hws ▸ hbusy ▸ hadmits⟩, hbusy.trans hrecompiling, hws ▸ hle,
    fun val => hval res b₁ val hval₁, fun hwithin hexact w busy' hw hbeside => ?_⟩
  rw [hws] at hwithin ⊢
  have hexact' : C.isExact ∨ ∃ val, res = .ok val := by
    rcases hok with hok | hok
    · exact .inl hok
    · rcases hexact with hexact | ⟨val, hexact⟩
      · exact .inl hexact
      · exact .inr (hok res b₁ val hexact)
  obtain ⟨w', hrun, hw', hbeside'⟩ := hfollows hwithin hexact' w busy' hw hbeside
  refine ⟨w', ?_, hw', hbeside'⟩
  rw [hrun]
  exact hon res b₁ w' busy' hholds hw'

theorem mapResult (h : G.TogetherAt C known busy out out') {g : Except Abort α → Except Abort β}
    (herror : ∀ abort val, g (.error abort) ≠ .ok val)
    (hg : ∀ before val, G.Expresses before → g (.ok before) = .ok val →
      G.Expresses val) :
    G.TogetherAt C known busy (g out.1, out.2) fun w busy => (g (out' w busy).1, (out' w busy).2) := by
  refine h.after (f := fun out => (g out.1, out.2)) (fun _ _ _ _ _ _ => rfl) (fun _ _ => rfl)
    (fun _ _ => id) ?_ (.inr ?_)
  · intro res b₁ val hres hok
    cases res with
    | error abort => exact absurd hok (herror abort val)
    | ok before => exact hg before val (hres before rfl) hok
  · intro res b₁ val hok
    cases res with
    | error abort => exact absurd hok (herror abort val)
    | ok before => exact ⟨before, rfl⟩

theorem at_ {act act' : Compiling α} (h : G.TogetherAt C known busy (act b) fun w busy => act' (b.on w busy))
    (pos : Position) : G.TogetherAt C known busy (Compiling.at_ pos act b)
      fun w busy => Compiling.at_ pos act' (b.on w busy) := by
  have hat : ∀ (act : Compiling α) (b : Builder), Compiling.at_ pos act b =
      ((act b).1.mapError (Abort.at_ · pos), (act b).2) := by
    intro act b
    rw [Compiling.at_]
    rcases act b with ⟨_ | _, _⟩ <;> rfl
  simp only [hat]
  refine h.mapResult (fun _ _ hok => by cases hok) fun before val hbefore hok => ?_
  exact Except.ok.inj hok ▸ hbefore

theorem congr_right (h : G.TogetherAt C known busy out out')
    (heq : ∀ w busy, G.Holds w → out'' w busy = out' w busy) : G.TogetherAt C known busy out out'' where
  stands := h.stands
  recompiling := h.recompiling
  le := h.le
  value := h.value
  follows hwithin hexact w busy' hw hbeside := by
    rw [heq w busy' hw]
    exact h.follows hwithin hexact w busy' hw hbeside

theorem bind {act act' : Compiling α} {next next' : α → Compiling β}
    (h : G.TogetherAt C (G.known b.workspace) b.recompiling (act b) fun w busy => act' (b.on w busy))
    (hnext : ∀ value, G.Expresses value → G.Together C (next value) (next' value)) :
    G.TogetherAt C (G.known b.workspace) b.recompiling ((act >>= next) b)
      fun w busy => (act' >>= next') (b.on w busy) := by
  simp only [bind_apply]
  rcases hrun : act b with ⟨abort | value, b₁⟩
  all_goals
    rw [hrun] at h
    obtain ⟨hstands, hbusy, hle, hval, hfollows⟩ := h
  · refine ⟨hstands, hbusy, hle, (fun _ hok => by cases hok), fun hwithin hexact w busy' hw hbeside => ?_⟩
    rcases hexact with hexact | ⟨value, hok⟩
    · obtain ⟨w', hrun', hw', hbeside'⟩ := hfollows hwithin (.inl hexact) w busy' hw hbeside
      exact ⟨w', by rw [hrun'], hw', hbeside'⟩
    · cases hok
  · have h₁ := hnext value (hval value rfl) b₁ hstands
    refine ⟨h₁.stands, h₁.recompiling.trans hbusy, Readings.trans hle h₁.le, h₁.value,
      fun hwithin hexact w busy' hw hbeside => ?_⟩
    obtain ⟨w', hrun', hw', hbeside'⟩ :=
      hfollows (C.within_of_le h₁.le hwithin) (.inr ⟨value, rfl⟩) w busy' hw hbeside
    rw [← hbusy] at hbeside' ⊢
    obtain ⟨w'', hrun'', hw'', hbeside''⟩ := h₁.follows hwithin hexact w' busy' hw' hbeside'
    refine ⟨w'', ?_, hw'', hbeside''⟩
    rw [hrun']
    exact hrun''

end TogetherAt

/-! ### Steps that do not look at the workspace -/

namespace Together

theorem pure {val : α} (h : G.Expresses val) :
    G.Together C (Pure.pure val) (Pure.pure val) := fun _ hb =>
  TogetherAt.of_same hb rfl rfl rfl hb.symbols fun _ hok => Except.ok.inj hok ▸ h

theorem throw (abort : Abort) : G.Together C (throw abort : Compiling α) (throw abort) := fun _ hb =>
  TogetherAt.of_same hb rfl rfl rfl hb.symbols fun _ hok => by cases hok

theorem warn (pos : Position) (cause : Cause) :
    G.Together C (Compiling.warn pos cause) (Compiling.warn pos cause) := fun _ hb =>
  TogetherAt.of_same hb rfl rfl rfl hb.symbols fun _ _ => trivial

theorem push {sym : Symbol} (h : G.Expresses sym) :
    G.Together C (Compiling.push sym) (Compiling.push sym) := fun _ hb =>
  TogetherAt.of_same hb rfl rfl rfl (expresses_cons h hb.symbols) fun _ _ => trivial

theorem markModified (idx : Nat) :
    G.Together C (Compiling.markModified idx) (Compiling.markModified idx) := by
  intro b hb
  refine TogetherAt.of_same hb rfl rfl rfl (fun sym hsym => ?_) fun _ _ => trivial
  obtain ⟨i, hi⟩ := getElem?_of_mem hsym
  change (b.stack.symbols.modify idx _)[i]? = some sym at hi
  rw [getElem?_modify] at hi
  obtain ⟨before, hbefore, rfl⟩ := Option.map_eq_some_iff.mp hi
  have hold := hb.symbols before (mem_of_getElem? hbefore)
  split
  · exact hold
  · exact hold

omit [Expressible α] in
theorem imp {A B : Expressible α} {act act' : Compiling α} (h : @Together G C α A act act')
    (hAB : ∀ val, @Vocabulary.Expresses α A G.vocabulary val →
      @Vocabulary.Expresses α B G.vocabulary val) : @Together G C α B act act' := by
  intro b hb
  obtain ⟨hstands, hbusy, hle, hval, hfollows⟩ := h b hb
  exact ⟨hstands, hbusy, hle, fun val hok => hAB val (hval val hok), hfollows⟩

variable {act act' : Compiling α}

theorem bind {next next' : α → Compiling β} (h : G.Together C act act')
    (hnext : ∀ val, G.Expresses val → G.Together C (next val) (next' val)) :
    G.Together C (act >>= next) (act' >>= next') :=
  fun b hb => (h b hb).bind hnext

theorem at_ (h : G.Together C act act') (pos : Position) :
    G.Together C (Compiling.at_ pos act) (Compiling.at_ pos act') :=
  fun b hb => (h b hb).at_ pos

theorem get_bind {next next' : Builder → Compiling α} (h : ∀ b, G.Together C (next b) (next' b))
    (hnext : ∀ b w busy, next (b.on w busy) = next b) : G.Together C (get >>= next) (get >>= next') := by
  intro b hb
  obtain ⟨hstands, hbusy, hle, hval, -⟩ := h b b hb
  refine ⟨hstands, hbusy, hle, hval, fun hwithin hexact w busy' hw hbeside => ?_⟩
  have hright := h (b.on w busy')
  rw [hnext] at hright
  exact (hright b hb).follows hwithin hexact w busy' hw hbeside

theorem leaveScope (guard : Guard) (h : G.TogetherAt C (G.known b.workspace) b.recompiling
      (act b) fun w busy => act' (b.on w busy)) :
    G.TogetherAt C (G.known b.workspace) b.recompiling (Compiling.leaveScope guard (act b))
      fun w busy => Compiling.leaveScope guard (act' (b.on w busy)) := by
  refine h.after (fun res b₁ w busy _ _ => ?_) (fun res b₁ => ?_) (fun res b₁ hsyms => ?_)
    (fun res b₁ val hres hval => hres val (ok_of_leaveScope hval))
    (.inr fun res b₁ val hval => ⟨val, ok_of_leaveScope hval⟩)
  · rw [leaveScope_eq, leaveScope_eq]
    rfl
  · rw [leaveScope_eq]
  · rw [leaveScope_eq]
    exact fun sym hsym => hsyms sym (Stack.symbols_release_subset _ guard hsym)

theorem inScope {syms : List Symbol} (hsyms : G.Expresses syms) (h : G.Together C act act') :
    G.Together C (Compiling.inScope syms act) (Compiling.inScope syms act') := by
  intro b hb
  refine leaveScope _ (h { b with stack := b.stack.openFrame.pushAll syms }
    ⟨hb.holds, hb.scope, ?_, hb.admits⟩)
  obtain ⟨hall, -, -⟩ := b.stack.openFrame.pushAll_eq syms
  rw [hall]
  exact forall_mem_append.mpr ⟨fun sym hsym => hsyms sym (mem_reverse.mp hsym), hb.symbols⟩

theorem inWindow (h : G.Together C act act') :
    G.Together C (Compiling.inWindow act) (Compiling.inWindow act') := fun b hb =>
  leaveScope _ (h { b with stack := b.stack.openWindow 0 } ⟨hb.holds, hb.scope, hb.symbols, hb.admits⟩)

theorem within {place : Enclosure} (h : G.Together C act act') :
    G.Together C (Compiling.within place act) (Compiling.within place act') := fun b hb =>
  (h { b with nesting := b.nesting.enter place } ⟨hb.holds, hb.scope, hb.symbols, hb.admits⟩).after
    (f := fun out => (out.1, { out.2 with nesting := out.2.nesting.leave place })) (fun _ _ _ _ _ _ => rfl)
    (fun _ _ => rfl) (fun _ _ => id) (fun _ _ val hres => hres val) (.inr fun _ _ val hok => ⟨val, hok⟩)

theorem checkReference (pos : Position) (arg : Plan) : G.Together C (Relational.checkReference pos arg)
      (Relational.checkReference pos arg) := by
  unfold Relational.checkReference
  split
  · refine get_bind (fun b => ?_) fun b w busy => rfl
    split
    · exact throw _
    · split
      · exact throw _
      · exact markModified _
  · exact throw _

end Together

/-! ### What is found alike -/

/-- The call that passes the values of plans. -/
def callOf (arguments : List Plan) : Call :=
  arguments.map fun p => { type := p.type }

theorem isPlain_callOf (args : List Plan) : (callOf args).IsPlain := by
  intro arg harg
  obtain ⟨p, -, rfl⟩ := mem_map.mp harg
  rfl

theorem scalars_callOf_subset {args : List Plan} (h : G.Expresses args) :
    (callOf args).scalars ⊆ G.types := by
  intro type htype
  obtain ⟨arg, harg, htype⟩ := mem_flatMap.mp htype
  obtain ⟨p, hp, rfl⟩ := mem_map.mp harg
  cases hpType : p.type with
  | none => simp [hpType] at htype
  | some t =>
    rw [hpType] at htype
    exact (h p hp).1 t hpType type htype

/-- An action that has the same outcome everywhere on the ground, with a result of a property. It changes at
most what is remembered, and it may depend on the options of an environment. -/
def Fixed {α : Type} (G : Ground) (action : Environment → Compiling α) (Q : α → Prop) : Prop :=
  ∃ result, (∀ value, result = .ok value → Q value) ∧ ∀ e, e.options = G.compiler.options →
    ∀ b, G.Holds b.workspace → b.scope = G.scope → ∃ w, action e b = (result, { b with workspace := w }) ∧
      G.Holds w ∧ G.known w = G.known b.workspace

namespace Fixed

variable {act : Environment → Compiling α} {Q : α → Prop}

theorem together (h : G.Fixed act G.Expresses) {e e' : Environment}
    (he : e.options = G.compiler.options) (he' : e'.options = G.compiler.options) :
    G.Together C (act e) (act e') := by
  obtain ⟨res, hval, hgives⟩ := h
  intro b hb
  obtain ⟨w₁, hfirst, hw₁, hknown⟩ := hgives e he b hb.holds hb.scope
  rw [hfirst]
  refine ⟨⟨hw₁, hb.scope, hb.symbols, hknown ▸ hb.admits⟩, rfl, hknown ▸ Readings.refl _, hval,
    fun _ _ w busy' hw hbeside => ?_⟩
  obtain ⟨w', hsecond, hw', hsame⟩ := hgives e' he' (b.on w busy') hw hb.scope
  refine ⟨w', hsecond, hw', ?_⟩
  rw [hknown, hsame]
  exact hbeside

omit [Expressible α]

theorem throw (abort : Abort) : G.Fixed (fun _ => throw abort : Environment → Compiling α) Q :=
  ⟨.error abort, (fun _ hok => by cases hok), fun _ _ b hb _ => ⟨b.workspace, rfl, hb, rfl⟩⟩

theorem recover {handler : Abort → Environment → Compiling α} (h : G.Fixed act Q)
    (hhandler : ∀ abort, G.Fixed (handler abort) Q) :
    G.Fixed (fun e => tryCatch (act e) (handler · e)) Q := by
  obtain ⟨_ | value, hval, hgives⟩ := h
  · obtain ⟨res, hval, hgives'⟩ := hhandler _
    refine ⟨res, hval, fun e he b hb hscope => ?_⟩
    obtain ⟨w, hrun, hw, hknown⟩ := hgives e he b hb hscope
    obtain ⟨w', hrun', hw', hknown'⟩ := hgives' e he { b with workspace := w } hw hscope
    exact ⟨w', (tryCatch_of_error hrun).trans hrun', hw', hknown'.trans hknown⟩
  · refine ⟨.ok value, hval, fun e he b hb hscope => ?_⟩
    obtain ⟨w, hrun, hw⟩ := hgives e he b hb hscope
    exact ⟨w, tryCatch_of_ok hrun, hw⟩

end Fixed

section Found

variable {e : Environment}

/-- What names are suggested for an unknown one does not depend on what is known. -/
theorem Together.unknownName (pos : Position) (name : String) {view : Builder → Option Stack}
    (hview : ∀ b w busy, view (b.on w busy) = view b) :
    G.Together C (get >>= fun b => Compiling.raise pos (.unknownIdentifier name
        (suggestName b.workspace.catalog (view b) name)) : Compiling α)
      (get >>= fun b => Compiling.raise pos (.unknownIdentifier name
        (suggestName b.workspace.catalog (view b) name))) := by
  intro b hb
  refine TogetherAt.congr_right (TogetherAt.of_same hb rfl rfl rfl hb.symbols fun _ hok => by cases hok)
    fun w busy hw => ?_
  have hsuggested : suggestName (b.on w busy).workspace.catalog (view b) name =
      suggestName b.workspace.catalog (view b) name := by
    rw [suggestName, suggestName, hb.holds.catalog.objectNames_eq]
    exact congrArg (fun names => Text.suggest (_ ++ names) name) hw.catalog.objectNames_eq
  rw [get_bind_apply, hview, hsuggested]
  rfl

theorem fixed_systemType (pos : Position) (name : String) :
    G.Fixed (fun _ => systemType pos name) G.Expresses := by
  refine ⟨(systemType pos name { workspace := G.base }).1, fun type h => ?_,
    fun _ _ b hb _ => ⟨b.workspace, ?_, hb, rfl⟩⟩
  all_goals rw [systemType, get_bind_apply] at *
  · cases hfound : G.base.catalog.resolveName (Name.qualified "System" name) [] <;> rw [hfound] at h
    · cases h
    · rename_i obj
      cases obj <;> cases h
      exact G.vocabulary.type_scalar (expresses_object (G.keyed.object?_of_resolveName hfound) .nothing)
    · cases h
  · dsimp only
    rw [get_bind_apply, hb.catalog.resolveName]
    cases G.base.catalog.resolveName (Name.qualified "System" name) [] with
    | nothing | ambiguous => rfl
    | one obj => cases obj <;> rfl

theorem fixed_conversionBetween {src tgt : Ty} (hsrc : G.Expresses src) (htgt : G.Expresses tgt) :
    letI := Expressible.between src tgt
    G.Fixed (conversionBetween · src tgt) G.Expresses := by
  refine ⟨.ok (G.conversion G.compiler.options.widen src tgt), fun ctx hok => ?_, fun e he b hb _ => ?_⟩
  · exact Except.ok.inj hok ▸ expresses_conversion _ src htgt
  · obtain ⟨w, hrun, hw⟩ := hb.findConversion G.compiler.options.widen hsrc htgt
    exact ⟨w, by dsimp only; rw [conversionBetween, he, hrun], hw⟩

theorem fixed_overloadFor (name : String) {args : List Plan}
    (hargs : G.Expresses args) {f : OverloadMatch → α}
    (hf : ∀ found, G.Expresses found → G.Expresses (f found)) :
    G.Fixed (fun e => f <$> overloadFor e name args) G.Expresses := by
  have hcall := scalars_callOf_subset hargs
  refine ⟨(G.overload name (callOf args)).map f, fun val hok => ?_, fun e he b hb hscope => ?_⟩
  · cases hfound : G.overload name (callOf args) with
    | error abort => simp [hfound, Except.map] at hok
    | ok found =>
      rw [hfound] at hok
      exact Except.ok.inj hok ▸ hf found (overload_spec hfound).1
  · obtain ⟨w, hrun, hw, hknown⟩ := hb.selectOperator name (isPlain_callOf args) hcall
    have happly : overloadFor e name args b =
        (G.overload name (callOf args), { b with workspace := w }) := by
      refine overloadFor_apply ?_ fun found hfound => ?_
      · rw [he, hscope]
        exact hrun
      · rw [hw.operatorState, (overload_spec hfound).2]
    refine ⟨w, ?_, hw, hknown⟩
    cases hfound : G.overload name (callOf args) with
    | error abort => exact map_of_error (hfound ▸ happly)
    | ok found => exact map_of_ok (hfound ▸ happly)

theorem fixed_overloadForTables (pos : Position) (name : String) {operands : List Plan}
    (hoperands : G.Expresses operands) :
    G.Fixed (Relational.overloadForTables · pos name operands) G.Expresses := by
  have hfound : ∀ {operands : List Plan}, G.Expresses operands →
      G.Fixed (fun e => (·, operands) <$> overloadFor e name operands) G.Expresses :=
    fun h => fixed_overloadFor name h fun _ hfound => ⟨hfound, h⟩
  simp only [overloadForTables_eq]
  refine (hfound hoperands).recover fun abort => ?_
  by_cases hmismatch : isMismatch abort
  · simp only [hmismatch, if_true]
    cases htables : asTables? pos operands with
    | none => exact .throw abort
    | some tables =>
      exact (hfound (expresses_asTables? G.isUniform_vocabulary hoperands htables)).recover
        fun _ => .throw _
  · simp only [hmismatch]
    exact .throw abort

end Found

/-! ### Names -/

/-- What a stale table variable reads is found out, unless it is known. -/
def ask (G : Ground) (e : Environment) (tv : TableVar) : Compiling Unit := fun b =>
  if ((G.known b.workspace).of tv.name).isSome then (.ok (), b) else e.infer tv b

/-- An environment of the compiler in which it is known afterwards what was asked for. -/
structure Serves (G : Ground) (e : Environment) : Prop where
  options : e.options = G.compiler.options
  settled : ∀ tv, G.HasStale tv → ∀ b, (G.ask e tv b).1 = .ok () →
    G.Holds (G.ask e tv b).2.workspace →
      ∃ references, (G.known (G.ask e tv b).2.workspace).of tv.name = some references

/-- Environments in which it is found out together what stale table variables read. -/
structure Accompanies (G : Ground) (C : Company) (e e' : Environment) : Prop where
  left : G.Serves e
  right : G.Serves e'
  together : ∀ tv, G.HasStale tv → G.Together C (G.ask e tv) (G.ask e' tv)

section Names

variable {e e' : Environment}

/-- An object as the catalog has it. -/
def fetch (object : CatalogObject) : Compiling CatalogObject := do
  let object ← MonadResolving.resolve (refreshed object)
  MonadResolving.resolve (copyObject object)

theorem fetch_apply (h : G.Holds b.workspace) (hobj : G.base.catalog.object? obj.name = some obj) :
    fetch obj b = (.ok (obj.settle (G.known b.workspace)), b) := by
  have hrefreshed : refreshed obj b.workspace =
      (.ok (obj.settle (G.known b.workspace)), b.workspace) := by
    change (Except.ok ((b.workspace.catalog.object? obj.name).getD obj), b.workspace) = _
    rw [h.catalog.objects, hobj]
    rfl
  rw [fetch, bind_apply, resolve_apply hrefreshed]
  exact resolve_apply (Workspace.copyObject_outside h.activeTransaction? _)

theorem bindObject_eq_ask (h : G.Holds b.workspace) {tv : TableVar}
    (hobj : G.base.catalog.object? obj.name = some obj) (hstale : staleTableVar? obj = some tv) :
    bindObject e.infer (obj.settle (G.known b.workspace)) b = (G.ask e tv >>= fun _ => fetch obj) b := by
  rw [bind_apply, ask]
  cases hknown : (G.known b.workspace).of tv.name with
  | some refs =>
    simp only [Option.isSome_some, if_true]
    rw [fetch_apply h hobj, bindObject, staleTableVar?_settle_of_known hstale hknown]
    exact resolve_apply (Workspace.copyObject_outside h.activeTransaction? _)
  | none =>
    rw [CatalogObject.settle_of_unknown hstale hknown, bindObject, hstale]
    dsimp only
    rw [bind_apply]
    rfl

variable (he : G.Accompanies C e e')

include he

theorem togetherAt_bindObject (hb : G.Stands C b) (hobj : G.base.catalog.object? obj.name = some obj) :
    G.TogetherAt C (G.known b.workspace) b.recompiling
      (bindObject e.infer (obj.settle (G.known b.workspace)) b)
      fun w busy => bindObject e'.infer (obj.settle (G.known w)) (b.on w busy) := by
  cases hstale : staleTableVar? obj with
  | none =>
    have hrun : ∀ (infer : TableVar → Compiling Unit) (b : Builder), G.Holds b.workspace →
        bindObject infer (obj.settle (G.known b.workspace)) b = (.ok obj, b) := by
      intro infer b hb
      rw [CatalogObject.settle_of_none _ hstale, bindObject, hstale]
      exact resolve_apply (Workspace.copyObject_outside hb.activeTransaction? _)
    rw [hrun e.infer b hb.holds]
    refine (TogetherAt.of_same hb rfl rfl rfl hb.symbols fun val hok => ?_).congr_right
      fun w busy hw => hrun e'.infer (b.on w busy) hw
    obtain rfl : obj = val := Except.ok.inj hok
    exact CatalogObject.settle_nothing obj ▸ expresses_object hobj .nothing
  | some tv =>
    obtain ⟨rfl, -, -⟩ := eq_of_staleTableVar? hstale
    have htv : G.HasStale tv := ⟨hobj, hstale⟩
    have hask := he.together tv htv b hb
    have hsettled := he.left.settled tv htv b
    rw [bindObject_eq_ask hb.holds hobj hstale]
    refine TogetherAt.congr_right ?_ fun w busy hw => bindObject_eq_ask (b := b.on w busy) hw hobj hstale
    simp only [bind_apply]
    rcases hrun : G.ask e tv b with ⟨abort | ⟨⟩, b₁⟩
    all_goals
      rw [hrun] at hask hsettled
      obtain ⟨hstands, hbusy, hle, -, hfollows⟩ := hask
      dsimp only
    · refine ⟨hstands, hbusy, hle, (fun _ hok => by cases hok),
        fun hwithin hexact w busy' hw hbeside => ?_⟩
      have hexact' : C.isExact ∨ ∃ val : Unit, (Except.error abort : Except Abort Unit) = .ok val :=
        hexact.imp_right (by rintro ⟨_, ⟨⟩⟩)
      obtain ⟨w', hrun', hw', hbeside'⟩ := hfollows hwithin hexact' w busy' hw hbeside
      exact ⟨w', by rw [hrun'], hw', hbeside'⟩
    · obtain ⟨refs, hrefs⟩ := hsettled rfl hstands.holds
      rw [fetch_apply hstands.holds hobj]
      refine ⟨hstands, hbusy, hle, fun val hok => ?_, fun hwithin _ w busy' hw hbeside => ?_⟩
      · exact Except.ok.inj hok ▸ expresses_object hobj _
      · obtain ⟨w', hrun', hw', hbeside'⟩ := hfollows hwithin (.inr ⟨(), rfl⟩) w busy' hw hbeside
        -- both know what the table variable reads now, and cannot know it differently
        obtain ⟨refs', hrefs'⟩ := he.right.settled tv htv (b.on w busy')
          (by rw [hrun']) (by rw [hrun']; exact hw')
        rw [hrun'] at hrefs'
        have hsame := C.agrees hbeside' hwithin hrefs hrefs'
        refine ⟨w', ?_, hw', hbeside'⟩
        rw [hrun']
        dsimp only
        rw [fetch_apply (b := b₁.on w' busy') hw' hobj]
        rw [CatalogObject.settle_of_known hstale hrefs,
          CatalogObject.settle_of_known hstale hrefs', hsame]

theorem togetherAt_resolveObject (hb : G.Stands C b) (name : String) :
    G.TogetherAt C (G.known b.workspace) b.recompiling (resolveObject G.resolution G.scope e.infer name b)
      fun w busy => resolveObject G.resolution G.scope e'.infer name (b.on w busy) := by
  have hfind : ∀ b : Builder, G.Holds b.workspace →
      (MonadResolving.resolve (findObject G.resolution G.scope name) :
        Compiling (Option CatalogObject)) b = ((findObject G.resolution G.scope name G.base).1.map
        (Option.map (CatalogObject.settle (G.known b.workspace))), b) :=
    fun b hb => resolve_apply (hb.findObject name)
  have hmissed : ∀ res : Except Abort (Option ResolvedName), (∀ infer b, G.Holds b.workspace →
        resolveObject G.resolution G.scope infer name b = (res, b)) →
      (∀ val, res = .ok val → G.Expresses val) →
        G.Together C (resolveObject G.resolution G.scope e.infer name)
          (resolveObject G.resolution G.scope e'.infer name) := by
    intro res hrun hval
    have hfixed : G.Fixed (fun e => resolveObject G.resolution G.scope e.infer name)
        G.Expresses :=
      ⟨res, hval, fun e _ b hb _ => ⟨b.workspace, hrun e.infer b hb, hb, rfl⟩⟩
    exact hfixed.together he.left.options he.right.options
  cases hfound : (findObject G.resolution G.scope name G.base).1 with
  | error abort =>
    refine hmissed (.error abort) (fun infer b hb => ?_) (fun _ hok => by cases hok) b hb
    rw [resolveObject, bind_apply, hfind b hb, hfound]
    rfl
  | ok found =>
    cases found with
    | none =>
      refine hmissed (.ok none) (fun infer b hb => ?_)
        (fun _ hok => Except.ok.inj hok ▸ expresses_none) b hb
      rw [resolveObject, bind_apply, hfind b hb, hfound]
      rfl
    | some obj =>
      have hrun : ∀ (infer : TableVar → Compiling Unit) (b : Builder), G.Holds b.workspace →
          resolveObject G.resolution G.scope infer name b =
            ((bindObject infer (obj.settle (G.known b.workspace)) b).1.map fun obj => some (.object obj),
              (bindObject infer (obj.settle (G.known b.workspace)) b).2) := by
        intro infer b hb
        rw [resolveObject, bind_apply, hfind b hb, hfound]
        change ((bindObject infer (obj.settle (G.known b.workspace)) >>= fun obj =>
          Pure.pure (some (.object obj)) : Compiling (Option ResolvedName)) b) = _
        rw [bind_apply]
        rcases bindObject infer (obj.settle (G.known b.workspace)) b with ⟨_ | _, _⟩ <;> rfl
      rw [hrun e.infer b hb.holds]
      refine TogetherAt.congr_right ?_ fun w busy hw => hrun e'.infer (b.on w busy) hw
      refine (togetherAt_bindObject he hb (object?_of_findObject hfound)).mapResult
        (fun _ _ hok => by cases hok) fun obj val hobj hok => ?_
      exact Except.ok.inj hok ▸ expresses_some hobj

omit he in
theorem expresses_designated {stack : Stack} (h : G.Expresses stack.symbols)
    {binding : Binding} {name : String} {found : ResolvedName}
    (hfound : stack.designated binding name = .ok (some found)) : G.Expresses found := by
  have hsym : (findSymbol (some stack) binding name G.base).1 = .ok (some found) := by
    rw [findSymbol_apply]
    exact hfound
  obtain ⟨location, sym, shadowed, rfl, hvis, -⟩ :=
    (Contract.findSymbol (C := .mild) stack binding name G.base trivial).value _ hsym found rfl
  exact ⟨h sym (mem_of_mem_take (mem_of_getElem? hvis)), fun _ => trivial⟩

theorem togetherAt_resolveName (hb : G.Stands C b) (binding : Binding) (name : String) :
    G.TogetherAt C (G.known b.workspace) b.recompiling
      (resolveName G.resolution G.scope (some b.stack) e.infer binding name b)
      fun w busy => resolveName G.resolution G.scope (some b.stack) e'.infer binding name
        (b.on w busy) := by
  have hsym : ∀ b' : Builder, (MonadResolving.resolve (findSymbol (some b.stack) binding name) :
      Compiling (Option ResolvedName)) b' = (b.stack.designated binding name, b') :=
    fun b' => resolve_apply (findSymbol_apply b.stack binding name b'.workspace)
  simp only [resolveName, bind_apply, hsym]
  cases hfound : b.stack.designated binding name with
  | error abort => exact .of_same hb rfl rfl rfl hb.symbols fun _ hok => by cases hok
  | ok found =>
    cases found with
    | some found =>
      refine .of_same hb rfl rfl rfl hb.symbols fun val hok => ?_
      exact Except.ok.inj hok ▸ expresses_some (expresses_designated hb.symbols hfound)
    | none =>
      cases binding with
      | symbols =>
        refine .of_same hb rfl rfl rfl hb.symbols fun val hok => ?_
        exact Except.ok.inj hok ▸ expresses_none
      | all | objects => exact togetherAt_resolveObject he hb name

namespace Together

theorem lookUp (binding : Binding) (pos : Position) (name : String) :
    G.Together C (Compiling.lookUp e binding pos name) (Compiling.lookUp e' binding pos name) := by
  intro b hb
  have hlookUp : ∀ (e : Environment) (b : Builder), e.options = G.compiler.options →
      b.scope = G.scope → Compiling.lookUp e binding pos name b = Compiling.at_ pos
        (resolveName G.resolution G.scope (some b.stack) e.infer binding name) b := by
    intro e b he hscope
    rw [resolution, ← he, ← hscope]
    rfl
  rw [hlookUp e b he.left.options hb.scope]
  exact ((togetherAt_resolveName he hb binding name).at_ pos).congr_right
    fun w busy _ => hlookUp e' (b.on w busy) he.right.options hb.scope

theorem scalarType (pos : Position) (name : String) :
    G.Together C (Compiling.scalarType e pos name) (Compiling.scalarType e' pos name) := by
  refine (lookUp he .objects pos name).bind fun found hfound => ?_
  split
  · exact pure (hfound _ rfl)
  · exact throw _
  · exact unknownName pos name fun _ _ _ => rfl

/-- All steps of compiling expressions are taken together. -/
theorem isStepwise : IsStepwise G.vocabulary e e' fun _ _ act act' =>
    G.Together C act act' where
  pure := pure
  bind := bind
  fault _ := throw _
  raise _ := throw _
  warn pos _ _ := warn pos _
  scalarType := scalarType he
  conversionBetween hsrc htgt :=
    @Fixed.together _ _ _ (.between _ _) _ (fixed_conversionBetween hsrc htgt) _ _ he.left.options
      he.right.options
  fatal := throw _
  at_ := at_
  uniform := G.isUniform_vocabulary
  inScope := inScope
  systemType pos name := (fixed_systemType pos name).together he.left.options he.right.options
  unknownName pos name := unknownName pos name fun _ _ _ => rfl
  checkReference pos arg _ := imp (checkReference pos arg) fun _ _ => trivial
  lookUp_bind binding pos name hnext _ := (lookUp he binding pos name).bind hnext
  overloadFor name _ hargs := by
    have hfixed := fixed_overloadFor (G := G) name hargs (f := id) fun _ => id
    simp only [id_map] at hfixed
    exact hfixed.together he.left.options he.right.options
  overloadForTables pos name _ hoperands :=
    (fixed_overloadForTables pos name hoperands).together he.left.options he.right.options

end Together

omit he in
theorem exists_safely (position : Option Position) (result : Except Abort Plan) (b b₁ : Builder) :
    ∃ outcome messages, (∀ w busy, w.session = b₁.workspace.session →
      Compiling.safely position (fun _ => (result, b₁.on w busy)) b =
        (outcome, { b₁.on w busy with messages := messages })) ∧
      (outcome = result ∨ ∀ value, outcome = .ok value → ∃ position, value = Plan.noOp position) := by
  cases result with
  | ok plan => exact ⟨_, b₁.messages, fun _ _ _ => rfl, .inl rfl⟩
  | error abort =>
    cases position with
    | none => exact ⟨_, b₁.messages, fun _ _ _ => rfl, .inr fun _ hok => by cases hok⟩
    | some position =>
      simp only [safely, record_bind_apply]
      by_cases hfatal : (abort.toFailure position).isFatal
      · exact ⟨_, b₁.messages, fun _ _ _ => if_pos hfatal, .inr fun _ hok => by cases hok⟩
      · simp only [if_neg hfatal]
        by_cases hdepth : b₁.stack.depth ≠ b.stack.depth
        · exact ⟨_, b₁.messages, fun _ _ _ => if_pos hdepth, .inr fun _ hok => by cases hok⟩
        · refine ⟨if b₁.workspace.session.isSome then .ok (.noOp position) else .error .absent,
            b₁.messages ++ .ofRecord (abort.toFailure position) position,
            fun w busy hsess => (if_neg hdepth).trans ?_, .inr fun value hok => ?_⟩
          · simp only [Builder.on, hsess]
          · split at hok
            · exact ⟨position, (Except.ok.inj hok).symm⟩
            · cases hok

omit he in
theorem Together.safely (hexact : C.isExact) {act act' : Compiling Plan}
    (h : G.Together C act act') (position : Option Position) :
    G.Together C (Compiling.safely position act) (Compiling.safely position act') := by
  intro b hb
  refine (h b hb).after (f := fun out => Compiling.safely position (fun _ => out) b)
    (fun result b₁ w busy hb₁ hw => ?_) (fun result b₁ => ?_) (fun result b₁ hsyms => ?_)
    (fun result b₁ value hres hok => ?_) (.inl hexact)
  all_goals
    obtain ⟨outcome, messages, hrun, hval⟩ := exists_safely position result b b₁
    have hself : Compiling.safely position (fun _ => (result, b₁)) b =
        (outcome, { b₁ with messages := messages }) := hrun b₁.workspace b₁.recompiling rfl
  · rw [hself, hrun w busy (hw.session.trans hb₁.session.symm)]
    rfl
  · rw [hself]
  · rw [hself]
    exact hsyms
  · rw [hself] at hok
    rcases hval with rfl | hval
    · exact hres value hok
    · obtain ⟨position, rfl⟩ := hval value hok
      exact ⟨by simp [Plan.noOp, Plan.make], fun _ => trivial⟩

/-- All steps of compiling statements are taken together, if the second keeps to failures as well. -/
theorem Together.isStmtStepwise (hexact : C.isExact) :
    IsStmtStepwise G.vocabulary e e' fun _ _ act act' => G.Together C act act' where
  toIsStepwise := isStepwise he
  symbol _ _ _ htype := ⟨htype, fun _ => trivial⟩
  inWindow := inWindow
  within := within
  push := push
  markModified := markModified
  safely h := safely hexact h
  get_bind h hnext := get_bind h fun b w busy => hnext b (b.on w busy) ⟨rfl, rfl⟩

end Names

end Ground

end Relational
