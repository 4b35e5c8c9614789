import Relational.Proofs.Resolution.Transparency

/-!
# Removing overloads again

An overload that is declared and removed again leaves its name behind. If the name was declared before,
the catalog is what it was. Otherwise the name now stands for no overloads and is public, so that
references may designate it, alone or together with other names.
-/

namespace Relational

open List

/-- Outcomes with the same value, both with none, or both ambiguous. -/
inductive Found.Alike {α : Type} : Found α → Found α → Prop
  | nothing : Alike .nothing .nothing
  | one (value : α) : Alike (.one value) (.one value)
  | ambiguous (names names' : List String) : Alike (.ambiguous names) (.ambiguous names')

theorem Found.Alike.refl {α : Type} (found : Found α) : found.Alike found := by
  cases found <;> constructor

namespace Catalog

variable {c : Catalog} {op : Operator}

/-- Declaring and removing an overload leaves its name with the overloads that it had. -/
theorem removeOperator_addOperator (hadd : (c.addOperator op).result = .ok ())
    (hnew : ∀ overloads ∈ c.operators.lookup op.name, overloads.has op = false) :
    ((c.addOperator op).catalog.removeOperator op).catalog = { c with
        operators := putEntry c.operators op.name
          ((c.operators.lookup op.name).getD { name := op.name }) } := by
  set declared := (c.operators.lookup op.name).getD { name := op.name } with hdecl
  have hfresh : ∀ other ∈ declared.operators, ¬ other.isSame op := by
    refine any_eq_false.mp (?_ : declared.has op = false)
    cases hlookup : c.operators.lookup op.name with
    | none => simp [hdecl, hlookup, Overloads.has]
    | some overloads => simpa [hdecl, hlookup] using hnew overloads hlookup
  have hremove : ({ declared with operators := declared.operators ++ [op] } : Overloads).remove op =
      declared := by
    rw [Overloads.remove]
    simp only [eraseP_append_right _ hfresh]
    simp [Operator.isSame]
  rw [addOperator, ← hdecl] at hadd ⊢
  cases hres : declared.add op with
  | error existing => simp [hres] at hadd
  | ok added =>
    obtain rfl := Overloads.eq_of_add hres
    rw [removeOperator]
    simp only [lookup_putEntry, if_true]
    rw [if_pos (by simp [Overloads.has, Operator.isSame]), hremove]
    simp only [putEntry_putEntry]

end Catalog

namespace Workspace

/-- The workspace after an overload is declared and removed again. -/
def addAndRemove (w : Workspace) (op : Operator) : Workspace :=
  let added := w.apply (w.catalog.addOperator op)
  added.apply (added.catalog.removeOperator op)

theorem withoutCaches_addAndRemove {w : Workspace} {op : Operator}
    (hadd : (w.catalog.addOperator op).result = .ok ())
    (hnew : ∀ overloads ∈ w.catalog.operators.lookup op.name, overloads.has op = false) :
    (w.addAndRemove op).withoutCaches = { w.withoutCaches with
        catalog := { w.catalog with
          operators := putEntry w.catalog.operators op.name
            ((w.catalog.operators.lookup op.name).getD { name := op.name }) } } := by
  have hcat : (w.apply (w.catalog.addOperator op)).catalog = (w.catalog.addOperator op).catalog :=
    congrArg catalog (w.withoutCaches_apply _)
  rw [addAndRemove, withoutCaches_apply, withoutCaches_apply, hcat,
    Catalog.removeOperator_addOperator hadd hnew]

/-- An overload that is declared and removed again leaves all references with the outcomes that they had
exactly if its name was declared before. Then all calls have their outcomes, too. Otherwise references that
do not designate the name have. -/
theorem alike_addAndRemove_iff (w : Workspace) (op : Operator)
    (hkeys : (w.catalog.operators.map Prod.fst).Nodup)
    (hnames : ∀ entry ∈ w.catalog.operators, entry.2.name = entry.1)
    (hadd : (w.catalog.addOperator op).result = .ok ())
    (hnew : ∀ overloads ∈ w.catalog.operators.lookup op.name, overloads.has op = false) :
    ((∀ name path, ((w.addAndRemove op).catalog.resolveOperatorName name path).Alike
        (w.catalog.resolveOperatorName name path)) ↔
      (w.catalog.operators.lookup op.name).isSome) ∧
    ((w.catalog.operators.lookup op.name).isSome → ∀ (query : CallQuery) (options : ResolutionOptions),
      query.resolve options (w.addAndRemove op).withoutCaches = query.resolve options w.withoutCaches) ∧
    ∀ name path, Name.isDesignatedBy op.name name = false →
      (w.addAndRemove op).catalog.resolveOperatorName name path =
        w.catalog.resolveOperatorName name path := by
  have hafter := withoutCaches_addAndRemove hadd hnew
  have hoperators : (w.addAndRemove op).catalog.operators = putEntry w.catalog.operators op.name
      ((w.catalog.operators.lookup op.name).getD { name := op.name }) :=
    congrArg (·.catalog.operators) hafter
  have hsame : (w.catalog.operators.lookup op.name).isSome →
      (w.addAndRemove op).withoutCaches = w.withoutCaches := by
    intro hsome
    obtain ⟨overloads, hlookup⟩ := Option.isSome_iff_exists.mp hsome
    rw [hafter, hlookup, Option.getD_some, putEntry_eq_self hkeys hlookup]
    rfl
  refine ⟨⟨fun halike => ?_, fun hsome name path => ?_⟩, fun hsome query options => by rw [hsame hsome],
    fun name path hname => Catalog.resolveOperatorName_putEntry hoperators hname path⟩
  · -- a new name stands for no overloads, which no reference found before
    by_contra hnone
    have hlookup := Option.not_isSome_iff_eq_none.mp hnone
    have hfound : (w.addAndRemove op).catalog.resolveOperatorName op.name [] = .one { name := op.name } := by
      simp [Catalog.resolveOperatorName, findDesignated, hoperators, lookup_putEntry, hlookup]
    have hone := halike op.name []
    rw [hfound] at hone
    generalize hbefore : w.catalog.resolveOperatorName op.name [] = before at hone
    cases hone
    obtain ⟨key, hmem, -⟩ := Catalog.mem_of_resolveOperatorName hbefore
    obtain rfl : op.name = key := hnames _ hmem
    exact absurd rfl (bne_iff_ne.mp (List.lookup_eq_none_iff.mp hlookup _ hmem))
  · have hcatalog : (w.addAndRemove op).catalog = w.catalog := congrArg (·.catalog) (hsame hsome)
    rw [hcatalog]
    exact .refl _

/-- An overload of a name that is declared with another overload. -/
theorem alike_addAndRemove_iff_declared :
    let a : ScalarType := { serial := 10, name := "A" }
    let f : Operator :=
      { serial := 1, name := "Lib.F", signature := .ofTypes [.scalar a], returnType := none }
    let g : Operator := { f with serial := 2, signature := [] }
    let w : Workspace := { catalog := { operators := [("Lib.F", { name := "Lib.F", operators := [f] })] } }
    (w.catalog.addOperator g).result.toBool ∧ ∀ name path,
      ((w.addAndRemove g).catalog.resolveOperatorName name path).Alike
        (w.catalog.resolveOperatorName name path) := by
  intro a f g w
  have hkeys : (w.catalog.operators.map Prod.fst).Nodup := List.nodup_singleton _
  have hnames : ∀ entry ∈ w.catalog.operators, entry.2.name = entry.1 := by simp [w]
  have hnew : ∀ overloads ∈ w.catalog.operators.lookup g.name, overloads.has g = false := by
    decide
  exact ⟨by decide, (alike_addAndRemove_iff w g hkeys hnames rfl hnew).1.mpr rfl⟩

/-- The kind of the cause for which a call fails. -/
def failureKind? : Except Abort OverloadMatch → Option ErrorKind
  | .error (.raised (.cause cause)) => some cause.kind
  | _ => none

/-- A name that designated nothing stands for no overloads, so that a call of it fails for another
reason. -/
theorem exists_addAndRemove_ne :
    ∃ (w : Workspace) (op : Operator) (query : CallQuery),
      (w.catalog.addOperator op).result = .ok () ∧
      w.catalog.resolveOperatorName query.name [] = .nothing ∧
      (w.addAndRemove op).catalog.resolveOperatorName query.name [] = .one { name := op.name } ∧
      failureKind? (query.resolve {} w).1 = some .unknownOperator ∧
      failureKind? (query.resolve {} (w.addAndRemove op)).1 = some .noSignatureForArity :=
  ⟨{}, { serial := 1, name := "f", signature := [], returnType := none }, { name := "f", call := [] },
    rfl, by simp [Catalog.resolveOperatorName, findDesignated, designate, sortNames], rfl,
    by decide +kernel, by decide +kernel⟩

end Workspace

end Relational
