import Relational.Proofs.Catalog.Operators
import Relational.Proofs.Resolution.Overloads

/-!
# What a workspace holds

Resolution hands out table variables, operators and conversions that the workspace holds: in the catalog,
on devices, and in the memories of earlier outcomes. It may move table variables from a device to the
catalog, copy them into a transaction and remember outcomes. A property of all that a workspace holds is
kept by these steps, and what is handed out has it.
-/

namespace Relational

open List

/-- The arguments of a match for parameters that are passed by reference are not converted. -/
def OverloadMatch.PassesReferences (m : OverloadMatch) : Prop :=
  ∀ (i : Nat) (fit : ArgumentMatch), m.arguments[i]? = some fit →
    (m.operator.signature[i]?).any (·.modifier == .var) → fit.conversion = none

/-- What may be said of types, of operators and of table variables, and whether something is said of
arguments that are passed by reference. It has to be so of scalar types, of the parameters of operators, and
of table variables that are copied or whose references are found out. -/
structure Holdings where
  type : Ty → Prop
  operator : Operator → Prop
  tableVar : TableVar → Prop
  references : Prop := False
  scalar : ∀ scalar, type (.scalar scalar)
  parameter : ∀ op, operator op → ∀ parameter ∈ op.signature, type parameter.type
  copyOf : ∀ tv name, tableVar tv → tableVar (tv.copyOf name)
  setReferences : ∀ tv references, tableVar tv → tableVar (tv.setReferences references)

namespace Holdings

variable (H : Holdings)

/-- What is said of an object: only table variables matter. -/
def object : CatalogObject → Prop
  | .scalarType _ => True
  | .tableVar tv => H.tableVar tv

/-- What is said of all overloads of a name. -/
def overloads (o : Overloads) : Prop :=
  ∀ op ∈ o.operators, H.operator op

/-- What is said of a match: its operator, and what arguments are converted to. -/
structure Fits (found : OverloadMatch) : Prop where
  operator : H.operator found.operator
  target : ∀ fit ∈ found.arguments, ∀ context ∈ fit.conversion, H.type context.target
  references : H.references → found.PassesReferences

/-- What is said of remembered conversions. -/
def contexts (cache : Option ConversionCache) : Prop :=
  ∀ c ∈ cache, ∀ entry ∈ c.entries, H.type entry.2.target

/-- What is said of remembered matches. -/
def matched (cache : Option OperatorCache) : Prop :=
  ∀ c ∈ cache, ∀ entry ∈ c.entries, H.Fits entry.2.found

end Holdings

/-- It is so of all that a catalog holds, table variables on devices included. -/
structure Catalog.Holds (H : Holdings) (c : Catalog) : Prop where
  objects : ∀ entry ∈ c.objects, H.object entry.2
  pending : ∀ device ∈ c.devices, ∀ entry ∈ device.2.pending, H.tableVar entry.2
  operators : ∀ entry ∈ c.operators, H.overloads entry.2

/-- It is so of all that a workspace holds. -/
structure Workspace.Holds (H : Holdings) (w : Workspace) : Prop where
  catalog : w.catalog.Holds H
  contexts : H.contexts w.conversionCache
  matched : H.matched w.operatorCache

variable {H : Holdings} {path : ResolutionPath} {w : Workspace}

/-! ### Memories -/

namespace Recent

variable {τ κ α : Type} [BEq κ] [LawfulBEq κ] {P : α → Prop} {m : Recent τ κ α} {tags : κ → α → List τ}

theorem forall_entries_get? (h : ∀ entry ∈ m.entries, P entry.2) (key : κ) :
    ∀ entry ∈ (m.get? key).2.entries, P entry.2 := by
  unfold get?
  split
  · rename_i val hfind
    refine forall_mem_cons.mpr ⟨h _ (mem_entries_of_find? hfind), fun entry hentry => ?_⟩
    exact h entry (mem_of_mem_filter hentry)
  · exact h

variable [BEq τ]

theorem forall_entries_put (h : ∀ entry ∈ m.entries, P entry.2) (key : κ) {val : α}
    (hval : P val) : ∀ entry ∈ (m.put tags key val).entries, P entry.2 := by
  intro entry hentry
  obtain rfl | ⟨hold, -⟩ := mem_entries_put hentry
  · exact hval
  · exact h entry hold

end Recent

theorem Workspace.Holds.apply {α : Type} (h : w.Holds H) {change : Change α}
    (hchange : change.catalog.Holds H) :
    (w.apply change).Holds H ∧ (w.apply change).operatorStates = w.operatorStates := by
  rw [apply_eq]
  refine ⟨⟨hchange, fun cache hcache entry hentry => ?_, fun cache hcache entry hentry => ?_⟩, rfl⟩
  all_goals obtain ⟨old, hold, rfl⟩ := Option.map_eq_some_iff.mp hcache
  · rw [ConversionCache.foldl_notify_eq] at hentry
    exact h.contexts old hold entry (Recent.mem_entries_of_foldl_invalidate hentry)
  · rw [OperatorCache.foldl_notify_eq] at hentry
    exact h.matched old hold entry (Recent.mem_entries_of_foldl_invalidate hentry)

/-! ### Changes of the catalog -/

namespace Catalog

variable {c : Catalog} {object : CatalogObject} {name : String}

variable (h : c.Holds H)

include h

theorem Holds.declare (hobj : H.object object) :
    ({ c with objects := c.objects ++ [(object.name, object)] } : Catalog).Holds H := by
  refine ⟨fun entry hentry => ?_, h.pending, h.operators⟩
  obtain hold | hnew := mem_append.mp hentry
  · exact h.objects entry hold
  · obtain rfl := mem_singleton.mp hnew
    exact hobj

theorem Holds.object? (hfound : c.object? name = some object) : H.object object :=
  h.objects _ (mem_of_lookup hfound)

theorem Holds.resolveName (hfound : c.resolveName name path = .one object) : H.object object := by
  obtain ⟨key, hobj, -⟩ := exists_of_findDesignated hfound
  exact h.object? hobj

theorem Holds.resolveOperatorName {overloads : Overloads}
    (hfound : c.resolveOperatorName name path = .one overloads) : H.overloads overloads := by
  obtain ⟨full, hmem, -⟩ := mem_of_resolveOperatorName hfound
  exact h.operators _ hmem

theorem Holds.reconcile (device name : String) : (c.reconcile device name).catalog.Holds H := by
  obtain heq | ⟨d, tv, hd, htv, hdecl⟩ := c.reconcile_cases device name
  · rw [heq]
    exact h
  have hpending := h.pending _ (mem_of_lookup hd)
  have htableVar : H.object (.tableVar tv) := by
    obtain ⟨entry, hfind, rfl⟩ := Option.map_eq_some_iff.mp htv
    exact hpending entry (mem_of_find?_eq_some hfind)
  have hdev : (c.addDevice (d.forget tv)).Holds H := by
    refine ⟨h.objects, fun other hother => ?_, h.operators⟩
    obtain rfl | hold := mem_putEntry hother
    · exact fun entry hentry => hpending entry (mem_of_mem_filter hentry)
    · exact h.pending other hold
  obtain ⟨_, heq⟩ | ⟨-, heq⟩ := hdecl <;> rw [heq]
  · exact hdev
  · exact hdev.declare htableVar

theorem Holds.setReferences (name : String) (refs : List String) :
    (c.updateTableVar name (·.setReferences refs)).Holds H := by
  refine ⟨fun entry hentry => ?_, h.pending, h.operators⟩
  obtain ⟨⟨key, object⟩, hmem, rfl⟩ := mem_map.mp hentry
  have hobj := h.objects _ hmem
  cases object with
  | scalarType type => trivial
  | tableVar tv =>
    change H.tableVar (if key == name then tv.setReferences refs else tv)
    split
    · exact H.setReferences tv refs hobj
    · exact hobj

end Catalog

section Transactions

variable {t t' : Transaction} {c c' : Catalog}

theorem Catalog.Holds.ensureMapped (h : c.Holds H) {object copy : CatalogObject}
    (hobj : H.object object) (hmapped : t.ensureMapped c object = .ok (t', c', copy)) :
    c'.Holds H ∧ H.object copy := by
  obtain ⟨rfl, rfl, ⟨rfl, -⟩ | ⟨_, _, rfl, -, hfound⟩⟩ | ⟨tv, rfl, hadd, rfl, rfl⟩ :=
    Transaction.ensureMapped_cases hmapped
  · exact ⟨h, hobj⟩
  · exact ⟨h, h.resolveName hfound⟩
  · have hcopy : H.object (.tableVar (tv.copyOf (t.privateName tv.name))) := H.copyOf tv _ hobj
    exact ⟨(Catalog.eq_of_addObject hadd).2 ▸ h.declare hcopy, hcopy⟩

end Transactions

/-! ### Resolutions -/

/-- Resolutions that keep it so of all that a workspace holds and leave the states of operators alone. -/
def Contract.holding (H : Holdings) : Contract where
  Holds w := w.Holds H
  Leads w w' := (w.Holds H → w'.Holds H) ∧ w'.operatorStates = w.operatorStates
  refl _ := ⟨id, rfl⟩
  trans h h' := ⟨h'.1 ∘ h.1, h'.2.trans h.2⟩
  keeps h := h.1

/-- A resolution that keeps it so of all that a workspace holds, with a result of a property. -/
abbrev Provides {α : Type} (H : Holdings) (action : Resolving α) (Q : α → Prop) : Prop :=
  (Contract.holding H).Met action fun value _ => Q value

namespace Provides

theorem findObject (opts : ResolutionOptions) (scope : PlanScope) (name : String) :
    Provides H (Relational.findObject opts scope name) fun found =>
      ∀ object ∈ found, H.object object := by
  have hfinds : (Contract.holding H).Finds opts scope (fun _ => True) fun object _ =>
      H.object object :=
    .of_resolveName (fun hw => hw.catalog.resolveName) fun _ hw =>
      have h := hw.apply (hw.catalog.reconcile opts.device _)
      ⟨fun _ => h.1, h.2⟩
  exact hfinds.findObject trivial

variable {object : CatalogObject}

theorem copyObject (h : H.object object) : Provides H (Relational.copyObject object) H.object :=
  fun _ hw => .copyObject (fun _ => h) fun _ _ hmapped =>
    have hcopy := hw.catalog.ensureMapped h hmapped
    ⟨⟨fun _ => ⟨hcopy.1, hw.contexts, hw.matched⟩, rfl⟩, hcopy.2⟩

theorem refreshed (h : H.object object) : Provides H (Relational.refreshed object) H.object := by
  refine Contract.refreshed fun {w} hw => ?_
  cases hfound : w.catalog.object? object.name with
  | none => exact h
  | some found => exact hw.catalog.object? hfound

end Provides

/-! ### Conversions -/

theorem target_searchScalar (graph : ConversionGraph) (src tgt : ScalarType) :
    (searchScalar graph src tgt).target = .scalar tgt := by
  unfold searchScalar
  dsimp only
  split <;> rfl

protected theorem Holdings.findScalar (H : Holdings) (graph : ConversionGraph) (src tgt : ScalarType) :
    Searches H.contexts (findScalar graph src tgt) fun context =>
      H.type context.target := by
  have hsearch : H.type (searchScalar graph src tgt).target := by
    rw [target_searchScalar]
    exact H.scalar tgt
  intro cache hcache
  cases cache with
  | none => exact ⟨hcache, hsearch⟩
  | some cache =>
    have hentries := hcache cache rfl
    have hafter := Recent.forall_entries_get? (P := fun context : ConversionContext =>
      H.type context.target) hentries (src.name, tgt.name)
    unfold findScalar
    dsimp only
    rcases hget : cache.get? (src.name, tgt.name) with ⟨_ | context, cache'⟩
    all_goals
      rw [hget] at hafter
      dsimp only at hafter ⊢
    · split
      · refine ⟨fun c hc => ?_, hsearch⟩
        cases hc
        exact Recent.forall_entries_put (P := fun context : ConversionContext =>
          H.type context.target) hafter _ hsearch
      · refine ⟨fun c hc => ?_, hsearch⟩
        cases hc
        exact hafter
    · refine ⟨fun c hc => ?_, ?_⟩
      · cases hc
        exact hafter
      · have hfind : cache.find? (src.name, tgt.name) = some context := by
          rw [← Recent.fst_get?, hget]
        exact hentries _ (Recent.mem_entries_of_find? hfind)

theorem Holdings.chooseOverload (H : Holdings) (graph : ConversionGraph) (call : Call) (isExact : Bool)
    {operators : List Operator} (h : ∀ op ∈ operators, H.operator op) :
    Searches H.contexts (Relational.chooseOverload graph call isExact operators) fun res =>
      ∀ choice ∈ res, ∀ best ∈ choice.best, H.Fits best := by
  refine .chooseOverload fun op hop _ => (Searches.matchOverload fun arg param hpar =>
    .matchArgument (H.findScalar graph) arg (H.parameter op (h op hop) param hpar)).imp
      fun res hres m hm _ => ?_
  obtain ⟨rfl, hfits⟩ := hres m hm
  refine ⟨h _ hop, fun fit hfit => ?_, fun _ i fit hfit hvar => ?_⟩
  · obtain ⟨i, hi⟩ := mem_iff_getElem?.mp hfit
    obtain ⟨_, -, htgt, -⟩ := exists_of_forall₂ hfits hi
    exact htgt
  · obtain ⟨place, hplace, -, hdirect⟩ := exists_of_forall₂ hfits hfit
    rw [(getElem?_zip_eq_some.mp hplace).2] at hvar
    exact hdirect hvar

theorem Workspace.Holds.findConversion (h : w.Holds H) (widen : Bool) (src : Ty) {tgt : Ty}
    (htgt : H.type tgt) : (w.findConversion widen src tgt).2.Holds H ∧
      H.type (w.findConversion widen src tgt).1.target := by
  obtain ⟨hctxs, hctx⟩ := Searches.findConversion (.target (H.findScalar w.catalog.conversions))
    widen src tgt w.conversionCache h.contexts
  exact ⟨⟨h.catalog, hctxs, h.matched⟩, hctx htgt⟩

/-! ### Calls -/

namespace Provides

variable (opts : ResolutionOptions) {scope : PlanScope} (name : String) (call : Call) (isExact : Bool)
  (key : CallKey)

theorem findOverloads (hscope : ∀ entry ∈ scope.operators, H.overloads entry.2) :
    Provides H (Relational.findOverloads opts scope name) fun srcs =>
      ∀ src ∈ srcs, H.overloads src.overloads := by
  refine Contract.findOverloads (fun hw hfound => hw.catalog.resolveOperatorName hfound)
    (fun overloads hlocal => ?_) (Contract.findDeclaredOverloads fun hw hfound =>
      hw.catalog.resolveOperatorName hfound)
  obtain ⟨entry, hentry, rfl⟩ := Option.map_eq_some_iff.mp hlocal
  exact hscope entry (mem_of_find?_eq_some hentry)

theorem recallMatch : Provides H (Relational.recallMatch key) fun res => ∀ found ∈ res, H.Fits found := by
  intro w hw
  refine .get_bind ?_
  split
  · exact .pure (by simp)
  · rename_i cache hcache
    have hentries := hw.matched cache hcache
    have hafter := Recent.forall_entries_get? (P := fun m : RememberedMatch => H.Fits m.found)
      hentries key
    refine .set_bind ⟨fun _ => ⟨hw.catalog, hw.contexts, fun c hc => ?_⟩, rfl⟩
      (.pure fun found hfound => ?_)
    · cases hc
      exact hafter
    · obtain ⟨remembered, hget, rfl⟩ := Option.map_eq_some_iff.mp hfound
      exact hentries _ (Recent.mem_entries_of_find? ((Recent.fst_get? cache key).symm.trans hget))

theorem rememberMatch (overloads : String) {found : OverloadMatch} (h : H.Fits found)
    (visited : List String) :
    Provides H (Relational.rememberMatch key overloads found visited) fun _ => True := by
  intro w hw
  have hremember : H.matched (w.operatorCache.map (·.remember key overloads found visited)) := by
    intro c hc
    obtain ⟨old, hold, rfl⟩ := Option.map_eq_some_iff.mp hc
    exact Recent.forall_entries_put (P := fun m : RememberedMatch => H.Fits m.found)
      (hw.matched old hold) key h
  refine ⟨?_, fun _ _ => trivial, fun _ _ => trivial⟩
  change (Contract.holding H).Leads w (if found.operator.isPrivate then w else _)
  split
  · exact Contract.refl _ w
  · exact ⟨fun _ => ⟨hw.catalog, hw.contexts, hremember⟩, rfl⟩

theorem choose {overloads : Overloads} (h : H.overloads overloads) :
    Provides H (Relational.choose call isExact overloads) fun choice =>
      ∀ best ∈ choice.best, H.Fits best := by
  intro w hw
  obtain ⟨hctxs, hchoice⟩ := H.chooseOverload w.catalog.conversions call isExact h
    w.conversionCache hw.contexts
  refine .get_bind (.set_bind ⟨fun _ => ⟨hw.catalog, hctxs, hw.matched⟩, rfl⟩ ?_)
  split
  · rename_i choice hsome
    exact .pure (hchoice choice hsome)
  · exact .throw trivial

theorem selectOperator (hscope : ∀ entry ∈ scope.operators, H.overloads entry.2) :
    Provides H (Relational.selectOperator opts scope name call isExact) H.Fits := by
  have hselects : (Contract.holding H).Selects call isExact (H.overloads ·.overloads) H.Fits :=
    ⟨fun key _ => recallMatch key, fun _ => choose call isExact,
      fun key overloads _ visited h => rememberMatch key overloads h visited⟩
  exact hselects.selectOperator opts (findOverloads opts name hscope)

end Provides

end Relational
