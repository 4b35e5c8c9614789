import Relational.Proofs.Catalog.Operators
import Relational.Proofs.Resolution.Effects

/-!
# Copies of table variables

A transaction copies a stored table variable when it is first used. The copies stand in the catalog under
names that the transaction makes up, behind all other objects. They are found by these names only, so that
other names designate what they did.
-/

namespace Relational

open List

/-! ### Catalogs with copies -/

/-- A catalog whose objects stand under their names. -/
def Catalog.IsKeyed (c : Catalog) : Prop :=
  ∀ entry ∈ c.objects, entry.2.name = entry.1

variable {path : ResolutionPath}

namespace Catalog

variable {c : Catalog} {name : String} {obj : CatalogObject}

theorem object?_isSome_of_mem {entry : String × CatalogObject} (h : entry ∈ c.objects) :
    (c.object? entry.1).isSome := by
  rw [object?, lookup_isSome_iff]
  exact ⟨entry, h, beq_self_eq_true _⟩

theorem IsKeyed.object?_name (hkeyed : c.IsKeyed) (h : c.object? name = some obj) :
    c.object? obj.name = some obj := by
  rw [hkeyed _ (mem_of_lookup h)]
  exact h

theorem IsKeyed.object?_of_resolveName (hkeyed : c.IsKeyed) (h : c.resolveName name path = .one obj) :
    c.object? obj.name = some obj := by
  obtain ⟨key, hobj, -⟩ := exists_of_findDesignated h
  exact hkeyed.object?_name hobj

/-- The catalog with more objects behind those it has. -/
def append (c : Catalog) (entries : List (String × CatalogObject)) : Catalog :=
  { c with objects := c.objects ++ entries }

variable {entries : List (String × CatalogObject)}

theorem object?_append : (c.append entries).object? name = (c.object? name).or (entries.lookup name) :=
  lookup_append

theorem resolveName_append_of_none (hprivate : ∀ entry ∈ entries, entry.2.isPrivate = true)
    (hname : entries.lookup name = none) (path : ResolutionPath) :
    (c.append entries).resolveName name path = c.resolveName name path := by
  have hvis : (c.append entries).objects.filter (fun entry => !entry.2.isPrivate) =
      c.objects.filter fun entry => !entry.2.isPrivate := by
    rw [append, filter_append, append_right_eq_self]
    exact filter_eq_nil_iff.mpr fun entry hentry => by simp [hprivate entry hentry]
  unfold resolveName findDesignated
  rw [object?_append, hname, Option.or_none, hvis]
  cases c.object? name with
  | some obj => rfl
  | none =>
    dsimp only
    cases hdesignate : designate ((c.objects.filter fun entry => !entry.2.isPrivate).map Prod.fst)
      name path with
    | nothing | several => rfl
    | one found =>
      have hfound := (mem_filter.mp (mem_of_designate hdesignate)).1
      obtain ⟨entry, hentry, rfl⟩ := mem_map.mp hfound
      have hsome := object?_isSome_of_mem (mem_filter.mp hentry).1
      dsimp only
      rw [object?_append]
      cases hobj : c.object? entry.1 with
      | none => simp [hobj] at hsome
      | some obj => rfl

theorem resolveName_append_of_some (hfresh : c.object? name = none)
    (hname : entries.lookup name = some obj) (path : ResolutionPath) :
    (c.append entries).resolveName name path = .one obj := by
  unfold resolveName findDesignated
  rw [object?_append, hfresh, hname]
  rfl

end Catalog

/-! ### Names of the catalog -/

variable {name : String} {w : Workspace}

theorem Found.eq_one_of_outcome {α : Type} {found : Found α} {val : α}
    (h : found.outcome name = .ok (some val)) : found = .one val := by
  cases found with
  | nothing | ambiguous => cases h
  | one other =>
    cases h
    rfl

theorem Catalog.IsKeyed.object?_of_declared {c : Catalog} (hkeyed : c.IsKeyed)
    {opts : ResolutionOptions} {obj : CatalogObject}
    (h : c.declared opts path name = .ok (some obj)) : c.object? obj.name = some obj := by
  unfold declared at h
  repeat' split at h
  all_goals exact hkeyed.object?_of_resolveName (Found.eq_one_of_outcome h)

/-! ### Copies -/

namespace Transaction

variable (t : Transaction) {touched : List TableVar} {tv : TableVar}

theorem privateName_inj {name' : String} (h : t.privateName name = t.privateName name') : name = name' :=
  (String.append_right_inj _).mp h

/-- The copy of a table variable. -/
def copy (tv : TableVar) : TableVar :=
  tv.copyOf (t.privateName tv.name)

/-- An object as the transaction has it: a stored table variable is replaced by its copy. -/
def seen (object : CatalogObject) : CatalogObject :=
  match object with
  | .scalarType _ => object
  | .tableVar tv => if object.isCopied then .tableVar (t.copy tv) else object

/-- The transaction with copies of some table variables. -/
def touching (touched : List TableVar) : Transaction :=
  { t with tables := touched.map fun tv => (tv.name, t.privateName tv.name) }

/-- The copies of some table variables under their names. -/
def copies (touched : List TableVar) : List (String × CatalogObject) :=
  touched.map fun tv => (t.privateName tv.name, .tableVar (t.copy tv))

theorem isPrivate_of_mem_copies : ∀ entry ∈ t.copies touched, entry.2.isPrivate = true := by
  intro entry hentry
  obtain ⟨tv, -, rfl⟩ := mem_map.mp hentry
  rfl

theorem tableName?_touching (touched : List TableVar) (name : String) :
    (t.touching touched).tableName? name = none ∨ ∃ tv ∈ touched,
      Name.isDesignatedBy tv.name name = true ∧
        (t.touching touched).tableName? name = some (t.privateName tv.name) := by
  unfold tableName? designated? Aliases.find?
  obtain ⟨hnone, -⟩ | ⟨tv, htv, rfl, hsome⟩ :=
    lookup_map_cases name TableVar.name (fun tv => t.privateName tv.name) touched
  · rw [touching, hnone]
    dsimp only
    split
    · rename_i global hfilter
      have hmem := mem_filter.mp (hfilter ▸ mem_singleton_self (_, global))
      obtain ⟨tv, htv, hentry⟩ := mem_map.mp hmem.1
      cases hentry
      exact .inr ⟨tv, htv, hmem.2, rfl⟩
    · exact .inl rfl
  · rw [touching, hsome]
    exact .inr ⟨tv, htv, by simp [Name.isDesignatedBy], rfl⟩

/-- A name by which the transaction may reach the copy of a table variable: it designates the table
variable, or it is the name of the copy, with or without the namespace. -/
def Leads (options : ResolutionOptions) (tv : TableVar) (name : String) : Prop :=
  Name.isDesignatedBy tv.name name = true ∨ t.privateName tv.name = name ∨
    t.privateName tv.name = Name.qualified options.space name

/-- A table variable that is the only one copied is what every name that designates it stands for. -/
theorem tableName?_touching_singleton (h : Name.isDesignatedBy tv.name name = true) :
    (t.touching [tv]).tableName? name = some (t.privateName tv.name) := by
  unfold tableName? designated? Aliases.find?
  by_cases hname : tv.name = name
  · simp [touching, hname]
  · simp [touching, beq_eq_false_iff_ne.mpr (.symm hname), h]

end Transaction

/-- What a name designates, as a transaction has it. -/
def ResolvedName.seen (t : Transaction) : ResolvedName → ResolvedName
  | .object found => .object (t.seen found)
  | found => found

/-- The table variables that are copied once an object was used. -/
def CatalogObject.touch (object : CatalogObject) (touched : List TableVar) : List TableVar :=
  match object with
  | .scalarType _ => touched
  | .tableVar tv =>
    if object.isCopied && !(touched.map TableVar.name).contains tv.name then touched ++ [tv]
    else touched

section Touched

variable {t : Transaction} {obj : CatalogObject} {touched : List TableVar} {tv : TableVar}

theorem seen_of_isCopied (h : (CatalogObject.tableVar tv).isCopied = true) :
    t.seen (.tableVar tv) = .tableVar (t.copy tv) :=
  if_pos h

theorem seen_of_not_isCopied (h : obj.isCopied = false) : t.seen obj = obj := by
  cases obj with
  | scalarType type => rfl
  | tableVar tv => simp [Transaction.seen, h]

theorem touch_of_not_isCopied (h : obj.isCopied = false) : obj.touch touched = touched := by
  cases obj with
  | scalarType type => rfl
  | tableVar tv => simp [CatalogObject.touch, h]

theorem touch_of_mem (h : tv ∈ touched) : (CatalogObject.tableVar tv).touch touched = touched := by
  have hname : (touched.map TableVar.name).contains tv.name = true :=
    contains_iff_mem.mpr (mem_map_of_mem h)
  rw [CatalogObject.touch, hname, Bool.not_true, Bool.and_false]
  rfl

theorem touch_of_absent (hcopied : (CatalogObject.tableVar tv).isCopied = true)
    (habsent : ∀ other ∈ touched, other.name ≠ tv.name) :
    (CatalogObject.tableVar tv).touch touched = touched ++ [tv] := by
  have hname : (touched.map TableVar.name).contains tv.name = false := by
    simpa using habsent
  rw [CatalogObject.touch, hname, hcopied]
  rfl

theorem mem_touch (h : tv ∈ obj.touch touched) : tv ∈ touched ∨ obj = .tableVar tv ∧ obj.isCopied = true := by
  cases obj with
  | scalarType type => exact .inl h
  | tableVar other =>
    rw [CatalogObject.touch] at h
    by_cases hcopied : (CatalogObject.tableVar other).isCopied &&
        !(touched.map TableVar.name).contains other.name
    · rw [if_pos hcopied] at h
      obtain h | h := mem_append.mp h
      · exact .inl h
      · obtain rfl := mem_singleton.mp h
        exact .inr ⟨rfl, (Bool.and_eq_true_iff.mp hcopied).1⟩
    · rw [if_neg hcopied] at h
      exact .inl h

end Touched

theorem Workspace.findPrivate_of_none (h : w.activeTransaction?.bind (·.tableName? name) = none) :
    findPrivate name w = (.ok none, w) := by
  rw [findPrivate, get_bind_apply, h]
  rfl

theorem Workspace.copyObject_outside (h : w.activeTransaction? = none) (obj : CatalogObject) :
    copyObject obj w = (.ok obj, w) := by
  rw [copyObject, get_bind_apply, h]
  rfl

end Relational
