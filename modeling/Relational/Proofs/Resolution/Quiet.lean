import Relational.Proofs.Resolution.Copies
import Relational.Proofs.Resolution.Overloads

/-!
# Resolution without effects

Resolution may change the workspace: outcomes are remembered, table variables are copied into
transactions or taken over from a device, bodies of operators are compiled, and it is found out what
table variables read. Where there is nothing to remember, to copy, to compile or to find out, and no
device is asked, resolution leaves the workspace as it is.
-/

namespace Relational

/-- A workspace in which nothing is remembered, no transaction is active, no body of an operator is put
off, and it is known what table variables read. -/
structure Workspace.IsQuiet (w : Workspace) : Prop where
  conversionCache : w.conversionCache = none
  operatorCache : w.operatorCache = none
  inactive : w.activeTransaction? = none
  compiled : ∀ op, (w.operatorState op).isDeferred = false
  inferred : ∀ name object, w.catalog.object? name = some object → staleTableVar? object = none

/-- Resolutions that leave workspaces of some kind as they are. -/
def Contract.still (P : Workspace → Prop) : Contract where
  Holds := P
  Leads w w' := w' = w
  refl _ := rfl
  trans h h' := h'.trans h
  keeps h hw := h ▸ hw

theorem Contract.MetAt.apply_eq {α : Type} {P : Workspace → Prop} {w : Workspace} {act : Resolving α}
    {Q : α → Workspace → Prop} (h : (still P).MetAt w act Q) : act w = ((act w).1, w) :=
  Prod.ext rfl h.leads

/-! ### Conversions -/

section Forgets

variable (graph : ConversionGraph)

theorem forgets_findScalar (src tgt : ScalarType) :
    Searches (· = none) (findScalar graph src tgt) fun _ => True := by
  rintro _ rfl
  exact ⟨rfl, trivial⟩

theorem forgets_findConversion (widen : Bool) (src tgt : Ty) :
    (findConversion graph widen src tgt none).2 = none :=
  (Searches.findConversion (.target (T := fun _ => True) (forgets_findScalar graph)) widen src tgt
    none rfl).1

theorem forgets_chooseOverload (call : Call) (isExact : Bool) (operators : List Operator) :
    (chooseOverload graph call isExact operators none).2 = none :=
  (Searches.chooseOverload (K := (· = none)) (P := fun _ => True) (fun _ _ _ =>
    (Searches.matchOverload fun arg _ _ => .matchArgument (T := fun _ => True)
      (forgets_findScalar graph) arg trivial).imp fun _ _ _ _ _ => trivial) none rfl).1

end Forgets

namespace Workspace

variable {w : Workspace}

theorem with_conversionCache (h : w.conversionCache = none) {cache : Option ConversionCache}
    (hcache : cache = none) : { w with conversionCache := cache } = w := by
  rw [hcache, ← h]

theorem IsQuiet.findConversion_snd (h : w.IsQuiet) (widen : Bool) (src tgt : Ty) :
    (w.findConversion widen src tgt).2 = w := by
  refine with_conversionCache h.conversionCache ?_
  rw [h.conversionCache]
  exact forgets_findConversion w.catalog.conversions widen src tgt

/-! ### Names -/

section Names

variable {opts : ResolutionOptions}

theorem IsQuiet.staleTableVar?_of_resolveName (h : w.IsQuiet) {name : String} {path : ResolutionPath}
    {obj : CatalogObject} (hfound : w.catalog.resolveName name path = .one obj) :
    staleTableVar? obj = none := by
  obtain ⟨key, hobj, -⟩ := exists_of_findDesignated hfound
  exact h.inferred key obj hobj

theorem still_findObject (hdev : opts.device = "") (scope : PlanScope) (name : String) :
    (Contract.still IsQuiet).Met (findObject opts scope name) fun found _ =>
      ∀ obj ∈ found, staleTableVar? obj = none := by
  have hfinds : (Contract.still IsQuiet).Finds opts scope (fun _ => True) fun obj _ =>
      staleTableVar? obj = none :=
    .of_resolveName (fun hw => IsQuiet.staleTableVar?_of_resolveName hw) fun hnone =>
      absurd hdev hnone
  exact hfinds.findObject trivial

end Names

/-! ### Calls -/

section Calls

variable {call : Call} {isExact : Bool} {scope : PlanScope} {name : String} {opts : ResolutionOptions}

/-- Without memories, the overload that is selected is the best match among the overloads of a place. -/
theorem still_selectOperator {P : Workspace → Prop} {S : OverloadSource → Prop} {M : OverloadMatch → Prop}
    (hP : ∀ w, P w → w.conversionCache = none ∧ w.operatorCache = none)
    (hchoose : ∀ w, P w → ∀ src, S src → ∀ choice,
      (chooseOverload w.catalog.conversions call isExact src.overloads.operators none).1 =
        some choice → ∀ best ∈ choice.best, M best)
    (hsrcs : (Contract.still P).Met (findOverloads opts scope name) fun srcs _ =>
      ∀ src ∈ srcs, S src) :
    (Contract.still P).Met (selectOperator opts scope name call isExact) fun found _ => M found := by
  refine Contract.Selects.selectOperator ⟨fun key _ w hw => .get_bind ?_,
    fun src hsrc w hw => .get_bind ?_,
    fun key overloads found visited _ w hw => ⟨?_, fun _ _ => trivial, fun _ _ => trivial⟩⟩ opts hsrcs
  all_goals obtain ⟨hconvs, hcalls⟩ := hP w hw
  · rw [hcalls]
    exact .pure (by simp)
  · have hforgets := forgets_chooseOverload w.catalog.conversions call isExact src.overloads.operators
    rw [hconvs]
    refine .set_bind (with_conversionCache hconvs hforgets) ?_
    split
    · rename_i choice hchoice
      exact .pure (hchoose w hw src hsrc choice hchoice)
    · exact .throw trivial
  · change (if found.operator.isPrivate then w else
      { w with operatorCache := w.operatorCache.map (·.remember key overloads found visited) }) = w
    rw [hcalls, Option.map_none, ← hcalls]
    exact ite_self w

theorem IsQuiet.selectOperator_apply (h : w.IsQuiet) : selectOperator opts scope name call isExact w =
    ((selectOperator opts scope name call isExact w).1, w) :=
  (still_selectOperator (S := fun _ => True) (M := fun _ => True)
    (fun _ hw => ⟨hw.conversionCache, hw.operatorCache⟩) (fun _ _ _ _ _ _ _ _ => trivial)
    (Contract.findOverloads (fun _ _ => trivial) (fun _ _ => trivial)
      (Contract.findDeclaredOverloads fun _ _ => trivial)) w h).apply_eq

end Calls

end Workspace

end Relational
