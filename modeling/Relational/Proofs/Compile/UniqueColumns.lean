import Relational.Proofs.Compile.Program
import Relational.Proofs.Compile.UniqueNames

/-!
# Unique column names throughout compilations

Where all that a compilation can look up has unique column names, so have the types of all nodes of the
plans that it gives, the types of the symbols that they bring into scope, and the types of the symbols on
the stack wherever a part of the program is compiled.

It is not enough that the catalog is in order. Operators that only exist for a compilation are looked up
like those of the catalog, and so are table variables that wait on a device.
-/

namespace Relational

open Compiling

variable {e : Environment}

namespace Builder.Holds

variable {H : Holdings} {b : Builder}

theorem within (h : b.Holds H) (place : Enclosure) : (b.within place).Holds H :=
  ⟨h.holds, h.operators, h.symbols⟩

theorem hide (h : b.Holds H) : b.hide.Holds H :=
  ⟨h.holds, h.operators, h.symbols⟩

theorem enter_nil (h : b.Holds H) : (b.enter []).Holds H :=
  h.enter H.types_nil

end Builder.Holds

theorem unique_loopVariable (h : e.Unique) (p : Position) (name : String) (src : Expr) :
    Upholds Builder.Unique (loopVariable e p name src) fun type => type.hasUniqueNames := by
  refine (h.steps.compileExpr src).bind fun _ hq => ?_
  refine (h.steps.elementType _ hq).bind fun type htype => ?_
  exact (h.steps.checkLoopVariable p name type).bind fun _ _ => .pure htype

theorem unique_caughtType (h : e.Unique) (p : Position) (body : Stmt) (name : String) :
    Upholds Builder.Unique (caughtType e p body name) fun type => ∀ t ∈ type, t.hasUniqueNames :=
  (h.steps.inScope uniqueSymbols_nil (h.steps.compileStmt body)).bind fun _ _ =>
    h.steps.errorType p name

theorem Enters.unique {part part' : Part} {b b' : Builder} (h : Enters e part b part' b')
    (he : e.Unique) (hb : b.Unique) : b'.Unique := by
  have hs := he.steps.isScopewise
  cases part with
  | expr x =>
    obtain hb' | ⟨b₁, syms, rfl, hb₁, hsyms, -⟩ :=
      hs.exists_opened (P := fun _ b => b.Unique) (i := ()) (fun h heq hb => Same.ends heq hb h) h hb
    · exact hb'
    · exact hb₁.enter hsyms
  | stmt s =>
    cases h with
    | firstOf => exact hb
    | statement h => exact (Same.ends h hb.enter_nil (he.steps.compileBlock _)).1
    | defaultValue _ h => exact (Same.ends h hb (he.steps.specifiedType _)).1.hide
    | assigned h => exact (Same.ends h hb (he.steps.assignmentTarget _ _)).1
    | thenBranch h => exact (Same.ends h hb (hs.testedCondition () _ _ _)).1.enter_nil
    | elseBranch h =>
      exact (Same.ends h hb ((hs.testedCondition () _ _ _).bind fun _ _ =>
        he.steps.inScope uniqueSymbols_nil (he.steps.compileStmt _))).1.enter_nil
    | branchCondition h =>
      exact (Same.ends h hb ((hs.selectorPlan () _).bind fun _ hq =>
        he.steps.compileBranches hq _)).1
    | branch h =>
      refine (Same.ends (Q := Plan.Unique) h hb
        ((hs.selectorPlan () _).bind fun s hsel => ?_)).1.enter_nil
      refine (he.steps.compileBranches hsel _).bind fun _ _ => ?_
      exact (he.steps.compileExpr _).bind fun q hq => he.steps.branchCondition _ hsel hq
    | lastBranch h =>
      exact (Same.ends h hb ((hs.selectorPlan () _).bind fun _ hq =>
        he.steps.compileBranches hq _)).1.enter_nil
    | whileBody h =>
      exact ((Same.ends h hb ((he.steps.compileExpr _).bind fun _ hq =>
        he.steps.asCondition _ hq)).1.within .loop).enter_nil
    | loopBody h =>
      obtain ⟨hb', htype⟩ := Same.ends h hb (unique_loopVariable he _ _ _)
      exact (hb'.enter (uniqueSymbols_of_type (by simpa using htype))).within .loop
    | tryBody => exact hb.enter_nil
    | handler h =>
      obtain ⟨hb', htype⟩ := Same.ends h hb (unique_caughtType he _ _ _)
      refine (hb'.enter ?_).within .handler
      split
      · exact uniqueSymbols_nil
      · exact uniqueSymbols_of_type htype

theorem Reaches.unique {part part' : Part} {b b' : Builder} (h : Reaches e part b part' b')
    (he : e.Unique) (hb : b.Unique) : b'.Unique :=
  h.invariant (P := fun _ b => b.Unique) hb fun _ _ _ _ _ hstep hb => hstep.unique he hb

/-! ### The symbols of plans -/

namespace Plan

variable {p : Plan} {visible : List Symbol}

namespace Unique

variable (h : p.Unique)

include h

theorem rowSymbols : UniqueSymbols p.rowSymbols := by
  intro sym hsym
  obtain ⟨heading, hhead, rfl⟩ := Option.map_eq_some_iff.mp (Option.mem_toList.mp hsym)
  obtain ⟨type, htype, hhead⟩ := Option.bind_eq_some_iff.mp hhead
  have hunique : heading.Unique := by
    cases type with
    | rows form cols =>
      cases hhead
      exact Ty.hasUniqueNames_rows.mp (h.type _ htype)
    | anyRows form =>
      cases hhead
      exact .nil
    | _ => cases hhead
  exact uniqueSymbols_ofRow (Ty.hasUniqueNames_toTy .row hunique) _ (List.mem_singleton.mpr rfl)

theorem declaredSymbol? : ∀ sym ∈ p.declaredSymbol?, ∀ type ∈ sym.type, type.hasUniqueNames := by
  have hsym := (h p p.self_mem_nodes).2
  intro sym hdecl
  unfold Plan.declaredSymbol? at hdecl
  split at hdecl
  · rename_i hcon
    cases hdecl
    rwa [hcon] at hsym
  · cases hdecl

theorem childScope (idx : Nat) : UniqueSymbols (p.childScope idx) := by
  have hsym := (h p p.self_mem_nodes).2
  have hkid := h.child
  unfold Plan.childScope
  split
  · intro sym hdecl
    obtain ⟨child, hmem, hdeclares⟩ := List.mem_filterMap.mp hdecl
    exact (hkid child (List.mem_of_mem_take hmem)).declaredSymbol? sym hdeclares
  · rename_i hcon
    rw [hcon] at hsym
    exact uniqueSymbols_of_type hsym
  · rename_i hcon
    rw [hcon] at hsym
    split
    · exact uniqueSymbols_nil
    · exact uniqueSymbols_of_type hsym
  · rename_i hkids
    exact (hkid _ (by simp [hkids])).rowSymbols
  · rename_i hkids
    exact (hkid _ (by simp [hkids])).rowSymbols
  · rename_i hkids
    exact List.forall_mem_append.mpr
      ⟨(hkid _ (by simp [hkids])).rowSymbols, (hkid _ (by simp [hkids])).rowSymbols⟩
  · exact uniqueSymbols_nil

theorem throughout (hvis : UniqueSymbols visible) :
    p.Throughout (fun _ visible => UniqueSymbols visible) visible := by
  induction p using childInduction generalizing visible with
  | step p ih =>
    refine throughout_iff.mpr ⟨hvis, fun idx child hidx => ?_⟩
    have hmem := List.mem_of_getElem? hidx
    refine ih child hmem (h.child child hmem) fun sym hsym => ?_
    rcases List.mem_append.mp hsym with hsym | hsym
    · exact h.childScope idx sym (List.mem_reverse.mp hsym)
    · split at hsym
      · cases hsym
      · exact hvis sym hsym

end Unique

end Plan

/-! ### Programs -/

namespace Builder

variable {c : Compiler} {b b' : Builder} {p : Plan}

theorem Unique.buildExpression (hb : b.Unique) {expr : Expr}
    (h : buildExpression c expr b = (.ok (some p), b')) : p.Unique := by
  have halone : compileAlone (c.environment (Compiler.nestingBound b)) expr b = (.ok (some p), b') := h
  have he := c.holds_environment describes_uniqueNames (Compiler.nestingBound b)
  exact (Same.ends halone hb (he.upkeep.compileAlone describes_uniqueNames expr)).2 p rfl

/-- If all that a compilation from an empty stack can look up has unique column names, then so have the
types of all nodes of its plans and of the symbols they bring into scope, as an inspection finds them, and
the types of the symbols on the stack wherever a part of the program is compiled. -/
theorem unique_of_build (hsymbols : b.stack.symbols = []) (hholds : b.workspace.Holds uniqueHoldings)
    (hoperators : ∀ entry ∈ b.scope.operators, uniqueHoldings.overloads entry.2) :
    (∀ statement p b', build c statement b = (.ok p, b') →
      p.Unique ∧ ∀ visit ∈ p.visits {}, UniqueSymbols visit.2.visible) ∧
    (∀ expr p b', buildExpression c expr b = (.ok (some p), b') →
      p.Unique ∧ ∀ visit ∈ p.visits {}, UniqueSymbols visit.2.visible) ∧
    (∀ statement part b', Reaches (c.environment (Compiler.nestingBound b)) (.stmt statement)
      (b.enter []) part b' → UniqueSymbols b'.stack.symbols) ∧
    ∀ expr part b', Reaches (c.environment (Compiler.nestingBound b)) (.expr expr) b part b' →
      UniqueSymbols b'.stack.symbols := by
  have hb : b.Unique := ⟨hholds, hoperators, by simp [hsymbols, Holdings.types]⟩
  have he := c.holds_environment describes_uniqueNames (Compiler.nestingBound b)
  have hvisits : ∀ p : Plan, p.Unique →
      p.Unique ∧ ∀ visit ∈ p.visits {}, UniqueSymbols visit.2.visible := fun p hp =>
    ⟨hp, Plan.forall_mem_visits (P := fun _ visible => UniqueSymbols visible)
      (by simp [Stack.Sound]) (hp.throughout uniqueSymbols_nil)⟩
  refine ⟨fun statement p b' h => hvisits p (hb.build describes_uniqueNames h).2,
    fun expr p b' h => hvisits p (hb.buildExpression h),
    fun statement part b' h => (h.unique he hb.enter_nil).symbols,
    fun expr part b' h => (h.unique he hb).symbols⟩

/-- A table of one column with a computed column. -/
def extension : Expr :=
  .extend .none (.table .none [trueRow "a"] .missing) [("b", .identifier .none "a")]

theorem holds_relationalCatalog :
    ({ catalog := relationalCatalog (.anyRows .table) } : Workspace).Holds uniqueHoldings := by
  refine ⟨⟨?_, by simp [relationalCatalog], ?_⟩, by simp [Holdings.contexts], by simp [Holdings.matched]⟩
  · simp [relationalCatalog, Holdings.object]
  · simp [relationalCatalog, tableOperator, Holdings.overloads, uniqueHoldings, Signature.ofTypes,
      Ty.hasUniqueNames]

/-- The computed column is named apart from the column of the table. -/
theorem unique_of_build_extension : ∃ p b', buildExpression {} extension
      (.start {} { catalog := relationalCatalog (.anyRows .table) }) = (.ok (some p), b') ∧
    p.heading?.map (·.columns.names) = some ["a", "b"] ∧ p.Unique ∧
    ∀ visit ∈ p.visits {}, UniqueSymbols visit.2.visible := by
  have hsample : (relationalCatalog (.anyRows .table)).compilesTo extension
      (fun p => p.heading?.map (·.columns.names) == some ["a", "b"]) := by decide +kernel
  obtain ⟨p, b', hbuild, -, hnames⟩ := Catalog.exists_of_compilesTo hsample
  obtain ⟨-, hexpression, -, -⟩ := unique_of_build (c := {})
    (b := .start {} { catalog := relationalCatalog (.anyRows .table) }) rfl holds_relationalCatalog
    (by simp [Builder.start])
  exact ⟨p, b', hbuild, beq_iff_eq.mp hnames, hexpression extension p b' hbuild⟩

/-- An operator that yields rows with two columns of one name. -/
def ambiguousOperator : Operator :=
  { serial := 1, name := "f", signature := [],
    returnType := some (.rows .row [("a", .any), ("a", .any)]) }

/-- A catalog in order is not enough: an operator that only exists for the compilation may yield rows with
two columns of one name. -/
theorem exists_buildExpression_not_unique : ∃ c expr b p b', b.stack.symbols = [] ∧
    b.workspace.Holds uniqueHoldings ∧ buildExpression c expr b = (.ok (some p), b') ∧
    ∃ type ∈ p.type, ¬ type.hasUniqueNames := by
  let b : Builder := { Builder.start {} { catalog := {} } with
    scope.operators := [("f", { name := "f", operators := [ambiguousOperator] })] }
  have hsample : (buildExpression {} (.call .none "f" []) b).1.toOption.join.any
      (·.type.any (!·.hasUniqueNames)) := by decide +kernel
  have hholds : b.workspace.Holds uniqueHoldings :=
    ⟨⟨by simp [b, Builder.start], by simp [b, Builder.start], by simp [b, Builder.start]⟩,
      by simp [b, Builder.start, Holdings.contexts], by simp [b, Builder.start, Holdings.matched]⟩
  rcases hbuild : buildExpression {} (.call .none "f" []) b with ⟨_ | (_ | p), b'⟩
  all_goals rw [hbuild] at hsample
  · cases hsample
  · cases hsample
  · obtain ⟨type, htype, hnames⟩ := (Option.any_eq_true _ p.type).mp hsample
    exact ⟨{}, _, b, p, b', rfl, hholds, hbuild, type, htype, by simpa using hnames⟩

end Builder

end Relational
