import Relational.Proofs.Resolution.Contract

/-!
# How resolution fails

Looking up names and choosing operators may fail, with a cause that says what is not there or not unique,
but no such failure ends a compilation.
-/

namespace Relational

mutual

/-- Whether a failure says that the symbol stack is unbalanced. -/
def Failure.blamesStack : Failure → Bool
  | .plain _ => false
  | .cause c => c.blamesStack
  | .located inner _ _ => inner.blamesStack
  | .several parts => Failure.anyBlamesStack parts

/-- Whether one of some failures says that the symbol stack is unbalanced. -/
def Failure.anyBlamesStack : List Failure → Bool
  | [] => false
  | part :: parts => part.blamesStack || Failure.anyBlamesStack parts

end

namespace Failure

theorem anyBlamesStack_eq_any (parts : List Failure) : anyBlamesStack parts = parts.any blamesStack := by
  induction parts with
  | nil => rfl
  | cons part parts ih => rw [anyBlamesStack, ih, List.any_cons]

theorem blamesStack_of_mem_flatten {fail part : Failure} (h : fail.blamesStack = false)
    (hpart : part ∈ fail.unlocated.flatten) : part.blamesStack = false := by
  have hunlocated : fail.unlocated.blamesStack = false := by
    cases fail with
    | located inner => rwa [blamesStack] at h
    | plain | cause | several => exact h
  cases hparts : fail.unlocated with
  | plain | cause | located =>
    rw [hparts] at hpart hunlocated
    obtain rfl := List.mem_singleton.mp hpart
    exact hunlocated
  | several parts =>
    rw [hparts] at hpart hunlocated
    cases parts with
    | nil =>
      obtain rfl := List.mem_singleton.mp hpart
      exact hunlocated
    | cons first rest =>
      rw [blamesStack, anyBlamesStack_eq_any] at hunlocated
      simpa using List.any_eq_false.mp hunlocated part hpart

end Failure

/-- What ends an action says that the symbol stack is unbalanced; a fault is an internal error. -/
def Abort.blamesStack : Abort → Bool
  | .raised failure => failure.blamesStack
  | .fault reason => (Cause.internal reason).blamesStack

/-- What ends an action neither ends the compilation nor says that the symbol stack is unbalanced. -/
structure Abort.IsMild (abort : Abort) : Prop where
  isFatal : ∀ failure, abort = .raised failure → failure.isFatal = false
  blamesStack : abort.blamesStack = false

/-- Resolutions that are ended by what is mild only. -/
def Contract.mild : Contract where
  Holds _ := True
  Leads _ _ := True
  Ends := Abort.IsMild
  refl _ := trivial
  trans _ _ := trivial
  keeps _ _ := trivial
  absent := ⟨fun _ h => (nomatch h), rfl⟩
  refused hcause := ⟨fun _ h => by cases h; rfl, hcause⟩

/-- A resolution that is ended by what is mild only. -/
def Mild {α : Type} (action : Resolving α) : Prop :=
  ∀ w abort, (action w).1 = .error abort → abort.IsMild

theorem Contract.Met.mild {α : Type} {act : Resolving α} {Q : α → Workspace → Prop}
    (h : Contract.mild.Met act Q) : Mild act :=
  fun w => (h w trivial).ends

variable (opts : ResolutionOptions) (scope : PlanScope) (name : String)

theorem mild_findObject : Mild (findObject opts scope name) := by
  have hfinds : Contract.mild.Finds opts scope (fun _ => True) fun _ _ => True :=
    .of_resolveName (fun _ _ => trivial) fun _ _ => trivial
  exact (hfinds.findObject trivial).mild

theorem mild_copyObject (obj : CatalogObject) : Mild (copyObject obj) :=
  Contract.Met.mild (Q := fun _ _ => True) fun _ _ => .copyObject (fun _ => trivial)
    fun _ _ _ => ⟨trivial, trivial⟩

theorem mild_selectOperator (call : Call) (isExact : Bool) :
    Mild (selectOperator opts scope name call isExact) := by
  have hselects : Contract.mild.Selects call isExact (fun _ => True) fun _ => True :=
    .of_memories (fun _ => trivial) (fun _ _ => trivial) fun _ _ _ _ _ _ _ _ => trivial
  exact (hselects.selectOperator opts (Contract.findOverloads (fun _ _ => trivial)
    (fun _ _ => trivial) (Contract.findDeclaredOverloads fun _ _ => trivial))).mild

end Relational
