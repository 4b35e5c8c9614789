import Relational.Proofs.Compile.Upkeep
import Relational.Proofs.Optimize.Congruence

/-!
# Unique column names

The columns of rows, tables and cursors are told apart by their names. Each construct that makes up a type
checks that no two columns get one name, or keeps the names of a type that has been checked; the types that
operators and table variables bring along are taken as they are.
-/

namespace Relational

open Compiling List

/-! ### Columns -/

/-- The columns of a heading do not repeat a name. -/
def Heading.Unique (heading : Heading) : Prop :=
  heading.columns.Unique

namespace Columns

variable {cols others : Columns} {name : String} {type : Ty}

theorem Unique.nil : Columns.Unique [] :=
  ⟨nodup_nil, by simp⟩

variable (h : cols.Unique)

include h

theorem Unique.append (hothers : others.Unique) (hdisjoint : ∀ name ∈ others.names, name ∉ cols.names) :
    (cols ++ others).Unique := by
  refine ⟨?_, fun col hcol => ?_⟩
  · rw [names, map_append]
    refine nodup_append.mpr ⟨h.nodup, hothers.nodup, fun name hname other hother => ?_⟩
    rintro rfl
    exact hdisjoint name hother hname
  · rcases mem_append.mp hcol with hcol | hcol
    · exact h.types col hcol
    · exact hothers.types col hcol

theorem Unique.concat (hname : ¬cols.has name) (htype : type.hasUniqueNames) :
    Columns.Unique (cols ++ [(name, type)]) := by
  refine h.append ⟨by simp [names], by simpa using htype⟩ fun other hother => ?_
  obtain rfl : other = name := by simpa [names] using hother
  rwa [← has_iff]

theorem Unique.filter (keep : String × Ty → Bool) : Columns.Unique (cols.filter keep) :=
  ⟨h.nodup.sublist (filter_sublist.map Prod.fst), fun col hcol => h.types col (mem_of_mem_filter hcol)⟩

theorem Unique.rename {idx : Nat} (hidx : idx < cols.length)
    (hname : ∀ other ∈ cols.index? name, other = idx) :
    Columns.Unique (cols.modify idx fun col => (name, col.2)) := by
  obtain ⟨before, col, after, rfl, hlen, hmodify⟩ :=
    exists_of_modify (fun col : String × Ty => (name, col.2)) hidx
  have hnodup := h.nodup
  rw [names, map_append, map_cons, nodup_middle, nodup_cons] at hnodup
  -- The name is new, or it is that of the column itself.
  have hothers : name ∉ (before ++ after).map Prod.fst := by
    cases hfirst : index? (before ++ col :: after) name with
    | none =>
      intro hmem
      obtain ⟨other, hother, hfst⟩ := mem_map.mp hmem
      have hnone := findIdx?_eq_none_iff.mp hfirst other (by
        simp only [mem_append, mem_cons] at hother ⊢
        tauto)
      simp [hfst] at hnone
    | some first =>
      obtain rfl := hname first hfirst
      obtain ⟨hlt, hequal, -⟩ := findIdx?_eq_some_iff_getElem.mp hfirst
      have hcol : (before ++ col :: after)[first] = col := by simp [hlen]
      rw [hcol, beq_iff_eq] at hequal
      rw [← hequal, map_append]
      exact hnodup.1
  rw [hmodify]
  refine ⟨?_, fun other hother => ?_⟩
  · rw [names, map_append, map_cons, nodup_middle, nodup_cons, ← map_append]
    exact ⟨hothers, by rw [map_append]; exact hnodup.2⟩
  · simp only [mem_append, mem_cons] at hother
    rcases hother with hother | rfl | hother
    · exact h.types other (by simp [hother])
    · exact h.types col (by simp)
    · exact h.types other (by simp [hother])

end Columns

namespace Ty

variable {type : Ty} {heading : Heading}

theorem hasUniqueNames_toTy (form : Form) (h : heading.Unique) : (heading.toTy form).hasUniqueNames := by
  cases heading with
  | none => rfl
  | some cols => exact hasUniqueNames_rows.mpr h

theorem rowColumns_unique (h : type.hasUniqueNames) : type.rowColumns.Unique := by
  unfold rowColumns
  split
  · exact hasUniqueNames_rows.mp h
  · exact .nil

end Ty

/-! ### Plans -/

/-- The types of all nodes and of the symbols they bring into scope have unique column names. -/
def Plan.Unique (p : Plan) : Prop :=
  ∀ node ∈ p.nodes, (∀ type ∈ node.type, type.hasUniqueNames) ∧
    ∀ type ∈ node.construct.symbolType?, type.hasUniqueNames

namespace Plan

variable {p : Plan} {pos : Position}

theorem Unique.type (h : p.Unique) : ∀ type ∈ p.type, type.hasUniqueNames :=
  (h p p.self_mem_nodes).1

theorem Unique.child (h : p.Unique) : ∀ child ∈ p.children, child.Unique :=
  fun child hkid node hnode => h node (mem_nodes.mpr (.inr ⟨child, hkid, hnode⟩))

theorem unique_make {con : Construct} {type : Option Ty} {children : List Plan}
    (hsym : ∀ t ∈ con.symbolType?, t.hasUniqueNames) (htype : ∀ t ∈ type, t.hasUniqueNames)
    (hkids : ∀ child ∈ children, child.Unique) : (make con type pos children).Unique :=
  forall_mem_nodes.mpr ⟨⟨htype, hsym⟩, hkids⟩

theorem Unique.asTable? {table : Plan} (hp : p.Unique)
    (htable : Relational.asTable? pos p = some table) : table.Unique := by
  unfold Relational.asTable? at htable
  split at htable
  · rename_i cols htype
    cases htable
    refine unique_make (by simp [Construct.symbolType?]) ?_ (by simpa using hp)
    rintro _ ⟨⟩
    exact Ty.hasUniqueNames_rows.mpr (Ty.hasUniqueNames_rows.mp (hp.type _ htype))
  · rename_i element htype _
    split at htable
    · cases htable
      have helement : element.hasUniqueNames := by
        have hlist := hp.type _ htype
        rwa [Ty.hasUniqueNames] at hlist
      refine unique_make (by simp [Construct.symbolType?]) ?_ hp.child
      rintro _ ⟨⟩
      exact Ty.hasUniqueNames_rows.mpr (Ty.rowColumns_unique helement)
    · cases htable
  · cases htable

end Plan

/-! ### Compilations -/

/-- The parameters and the results of operators and the table variables have unique column names. -/
def uniqueHoldings : Holdings where
  type type := type.hasUniqueNames
  operator op := (∀ parameter ∈ op.signature, parameter.type.hasUniqueNames) ∧
    ∀ type ∈ op.returnType, type.hasUniqueNames
  tableVar tv := tv.heading.Unique
  scalar _ := rfl
  parameter _ h := h.1
  copyOf _ _ h := h
  setReferences _ _ h := h

/-- All that the workspace holds, the operators that only exist for the compilation and the symbols have
types with unique column names. -/
abbrev Builder.Unique (b : Builder) : Prop :=
  b.Holds uniqueHoldings

/-- Compiling objects again keeps column names unique. -/
abbrev Environment.Unique (e : Environment) : Prop :=
  e.Holds uniqueHoldings

/-! ### The vocabulary -/

/-- Types are made of columns that do not repeat a name. -/
def uniqueTypes : TypeVocabulary where
  scalar _ := True
  type type := type.hasUniqueNames
  columns := Columns.Unique
  symbol symbol := ∀ type ∈ symbol.type, type.hasUniqueNames
  operator op := ∀ type ∈ op.returnType, type.hasUniqueNames
  object := uniqueHoldings.object
  context context := context.target.hasUniqueNames
  type_scalar _ := rfl
  type_nil := rfl
  type_generic h := by
    unfold genericType? at h
    split at h
    all_goals cases h
    all_goals rfl
  type_anyRow := rfl
  type_list := by simp [Ty.hasUniqueNames]
  type_rows := Ty.hasUniqueNames_rows
  columns_nil := .nil
  columns_type h hcol := h.types _ hcol
  columns_concat := .concat
  columns_append := .append
  columns_filter keep h := h.filter keep
  columns_rename h hidx hname := h.rename hidx hname
  symbol_row h := by
    rintro _ ⟨⟩
    exact h
  operator_type := id
  object_type := Ty.hasUniqueNames_toTy .table
  context_target := id
  context_path _ _ _ := rfl

theorem isPlanning_uniqueTypes :
    uniqueTypes.IsPlanning (fun _ sym => uniqueTypes.symbol sym) Plan.Unique where
  place_type := id
  plan_type := Plan.Unique.type
  plan_symbol hplace _ := Plan.unique_make (by simp [Construct.symbolType?]) hplace (by simp)
  plan_node _ := Plan.unique_make
  plan_call ht hkids _ := Plan.unique_make (by simp [Construct.symbolType?]) ht hkids
  plan_asTable := .asTable?

/-- What is said of types and plans with unique column names. -/
def uniqueNames : Vocabulary :=
  .uniform isPlanning_uniqueTypes

theorem describes_uniqueNames : uniqueHoldings.Describes uniqueNames where
  uniform := Vocabulary.isUniform_uniform isPlanning_uniqueTypes
  scalar _ := trivial
  type := id
  symbol := .rfl
  place _ _ := id
  object := id
  between := id
  found hfits := ⟨hfits.operator.2, hfits.target, fun _ _ _ _ _ _ _ _ _ => trivial⟩
  reference _ := trivial

theorem Environment.Unique.steps {e : Environment} (h : e.Unique) :
    IsStmtStepwise uniqueNames e e fun _ [_] act act' =>
      Agree Builder.Unique act act' uniqueNames.Expresses :=
  (Environment.Holds.upkeep h).steps describes_uniqueNames

/-! ### Scopes -/

/-- The symbols of a scope have types with unique column names. -/
def UniqueSymbols (symbols : List Symbol) : Prop :=
  ∀ symbol ∈ symbols, ∀ type ∈ symbol.type, type.hasUniqueNames

theorem uniqueSymbols_nil : UniqueSymbols [] := by
  simp [UniqueSymbols]

theorem uniqueSymbols_ofRow {heading : Heading} (h : (heading.toTy .row).hasUniqueNames) :
    UniqueSymbols [Symbol.ofRow heading] := by
  intro sym hsym type htype
  obtain rfl := mem_singleton.mp hsym
  cases htype
  exact h

theorem uniqueSymbols_of_type {name : String} {type : Option Ty}
    (h : ∀ t ∈ type, t.hasUniqueNames) : UniqueSymbols [{ name, type }] := by
  intro sym hsym
  obtain rfl := mem_singleton.mp hsym
  exact h

end Relational
