import Relational.Proofs.Compile.Invariant
import Relational.Proofs.Resolution.Holdings

/-!
# Compilations over what a workspace holds

A compilation may uphold what is said of all that its workspace holds, of the operators that only exist for
it and of the types of its symbols. Then it is so of what names designate, of the overloads of calls and of
conversions, and two compilations look them up alike if they agree about compiling objects again.
-/

namespace Relational

open Compiling

/-- What is said of what a name designates: of the type of a symbol, or of an object. -/
def Holdings.designated (H : Holdings) : ResolvedName → Prop
  | .symbol _ symbol _ => ∀ type ∈ symbol.type, H.type type
  | .object object => H.object object

/-- A property of states under which all that a compilation can look up is as it is said of holdings, that
allows for changes of the workspace by resolution, and under which two environments agree about compiling
objects again. -/
structure Hosts (H : Holdings) (I : Builder → Prop) (e e' : Environment) : Prop where
  options : e.options = e'.options
  holds : ∀ b, I b → b.workspace.Holds H
  operators : ∀ b, I b → ∀ entry ∈ b.scope.operators, H.overloads entry.2
  symbols : ∀ b, I b → ∀ symbol ∈ b.stack.symbols, ∀ type ∈ symbol.type, H.type type
  workspace : ∀ b w, I b → w.Holds H → w.operatorStates = b.workspace.operatorStates →
    I { b with workspace := w }
  recompile : ∀ op, H.operator op → ∀ b, I b → (b.workspace.operatorState op).isDeferred →
    InStep (Same I) (fun _ => True) (e.recompile op b) (e'.recompile op b)
  infer : ∀ tv, H.tableVar tv → tv.isDerived → Agree I (e.infer tv) (e'.infer tv) fun _ => True

namespace Hosts

variable {H : Holdings} {I : Builder → Prop} {e e' : Environment} (h : Hosts H I e e')

include h

theorem resolve {α : Type} {act : Resolving α} {Q : α → Prop} (hact : Provides H act Q) :
    Upholds I (MonadResolving.resolve act : Compiling α) Q := by
  rintro _ b ⟨rfl, hb⟩
  obtain ⟨⟨hholds, hstates⟩, hval, -⟩ := hact b.workspace (h.holds b hb)
  exact .of_same (h.workspace b _ hb (hholds (h.holds b hb)) hstates) hval

protected theorem bindObject {obj : CatalogObject} (hobj : H.object obj) :
    Agree I (bindObject e.infer obj) (bindObject e'.infer obj) H.object := by
  unfold bindObject
  split
  · rename_i tv hstale
    have hderived : H.tableVar tv ∧ tv.isDerived := by
      cases obj with
      | scalarType type => cases hstale
      | tableVar found =>
        rw [staleTableVar?] at hstale
        split at hstale
        · rename_i hboth
          cases hstale
          exact ⟨hobj, (Bool.and_eq_true_iff.mp hboth).1⟩
        · cases hstale
    refine (h.infer tv hderived.1 hderived.2).bind fun _ _ => ?_
    exact (h.resolve (Provides.refreshed hobj)).bind fun found hfound =>
      h.resolve (Provides.copyObject hfound)
  · exact h.resolve (Provides.copyObject hobj)

theorem lookUp (binding : Binding) (pos : Position) (name : String) :
    Agree I (Compiling.lookUp e binding pos name) (Compiling.lookUp e' binding pos name)
      fun res => ∀ found ∈ res, H.designated found := by
  unfold Compiling.lookUp
  rw [← h.options]
  refine Same.get_bind fun b hb => Parallel.at_ ?_ pos b b ⟨rfl, hb⟩
  refine (h.resolve (Contract.findSymbol b.stack binding name)).bind fun res hres => ?_
  split
  · rename_i found
    obtain ⟨location, sym, shadowed, rfl, hvis, -⟩ := hres found rfl
    refine .pure fun found' hfound => ?_
    cases hfound
    exact h.symbols b hb sym (List.mem_of_mem_take (List.mem_of_getElem? hvis))
  · exact .pure (by simp)
  · refine (h.resolve (.findObject e.options.resolution b.scope name)).bind fun obj hobj => ?_
    cases obj with
    | none => exact .pure (by simp)
    | some obj =>
      refine (h.bindObject (hobj obj rfl)).bind fun found hfound => .pure ?_
      rintro _ ⟨⟩
      exact hfound

omit h in
theorem isDeferred_bind {α : Type} {Q : α → Prop} {next next' : Bool → Compiling α} (op : Operator)
    (hnext : ∀ b, I b → InStep (Same I) Q (next (b.workspace.operatorState op).isDeferred b)
      (next' (b.workspace.operatorState op).isDeferred b)) :
    Agree I (MonadResolving.resolve (isDeferred op) >>= next)
      (MonadResolving.resolve (isDeferred op) >>= next') Q := by
  rintro _ b ⟨rfl, hb⟩
  exact hnext b hb

theorem overloadFor (name : String) (args : List Plan) :
    Agree I (Compiling.overloadFor e name args) (Compiling.overloadFor e' name args) H.Fits := by
  unfold Compiling.overloadFor
  rw [← h.options]
  refine Same.get_bind fun b hb => ?_
  refine (h.resolve (Provides.selectOperator _ name _ false (h.operators b hb))).bind
    (fun found hfound => ?_) b b ⟨rfl, hb⟩
  -- Whether a body is compiled is decided by the state, so the request is made in that state.
  refine isDeferred_bind found.operator fun b hb => ?_
  split
  · rename_i hdeferred
    exact (h.recompile found.operator hfound.operator b hb hdeferred).bind fun _ _ => Parallel.pure hfound
  · exact Parallel.pure hfound b b ⟨rfl, hb⟩

theorem conversionBetween (src : Ty) {tgt : Ty} (htgt : H.type tgt) :
    Agree I (Compiling.conversionBetween e src tgt)
      (Compiling.conversionBetween e' src tgt) fun ctx => H.type ctx.target := by
  unfold Compiling.conversionBetween
  rw [← h.options]
  rintro _ b ⟨rfl, hb⟩
  obtain ⟨hholds, htgt'⟩ := (h.holds b hb).findConversion e.options.widen src htgt
  refine .of_same (h.workspace b _ hb hholds rfl) fun ctx hok => ?_
  cases hok
  exact htgt'

end Hosts

end Relational
