import Relational.Proofs.Compile.Program
import Relational.Proofs.Optimize.Congruence

/-!
# Values under declared types

Variables, assignments, tables and lists store values under types that were declared for them. Columns
are matched by name there, whatever their order, while references find them by position. Rows that are
stored without being converted have the columns of the declared type, but possibly elsewhere: positions
are kept exactly if the columns are listed in the declared order.
-/

namespace Relational

open List

/-- Every column stands at its place among other columns. -/
def Columns.InPlace (columns others : Columns) : Prop :=
  ∀ (index : Nat) (name : String), columns.names[index]? = some name → others.names[index]? = some name

/-- The type under which a node stores its children: that of a variable, of the variable that is assigned
to, of the rows of a table or of the elements of a list. -/
def Plan.storageType? (p : Plan) (visible : List Symbol) : Option Ty :=
  match p.construct, p.type with
  | .variable_ _ type _, _ => type
  | .assignment target, _ => visible[target.index]?.bind (·.type)
  | .tableSelector, some (.rows _ columns) => some (.rows .row columns)
  | .listSelector, some (.list type) => some type
  | _, _ => none

/-- A node whose children suit the type under which they are stored. -/
def Plan.StoresIn (widen : Bool) (p : Plan) (visible : List Symbol) : Prop :=
  ∀ type ∈ p.storageType? visible, ∀ child ∈ p.children, child.StoredAs widen type

/-- The types under which a plan stores values that are not converted, each with the type of the value. -/
def Plan.placements (p : Plan) : List (Ty × Ty) :=
  (p.visits {}).flatMap fun visit =>
    (visit.1.storageType? visit.2.visible).toList.flatMap fun declared =>
      (visit.1.children.filter (·.kind != .structuralConvert)).filterMap fun value =>
        value.type.map (declared, ·)

namespace Columns

variable {cols others : Columns}

theorem inPlace_iff (hsubset : others.names ⊆ cols.names) (hnodup : others.names.Nodup) :
    cols.InPlace others ↔ others.names = cols.names := by
  constructor
  · intro h
    have hinitial : cols.names <+: others.names := by
      rw [prefix_iff_getElem?]
      exact fun idx hidx => h idx _ (getElem?_eq_getElem hidx)
    exact (hinitial.eq_of_length_le (subperm_of_subset hnodup hsubset).length_le).symm
  · intro h idx name hname
    rwa [h]

theorem perm_of_suitsByName {form form' : Form} (hcols : cols ≠ [])
    (h : Ty.SuitsByName false (.rows form' others) (.rows form cols))
    (hnodup : cols.names.Nodup) (hnodup' : others.names.Nodup) : others.names.Perm cols.names := by
  obtain hempty | ⟨-, hsubset, hwiden | hlen | hsuperset⟩ := h
  · exact absurd hempty hcols
  · cases hwiden
  · refine (subperm_of_subset hnodup' hsubset).perm_of_length_le ?_
    rw [names, names, length_map, length_map, hlen]
  · exact (subperm_of_subset hnodup' hsubset).antisymm (subperm_of_subset hnodup hsuperset)

end Columns

/-! ### What compiled plans store -/

section Compiled

variable {opts : CompilerOptions} {Γ : Setting} {p : Plan} {visible : List Symbol}

theorem IsExpression.storesIn (h : IsExpression opts Γ p) (visible : List Symbol) :
    p.StoresIn opts.widen visible := by
  have hnone : p.storageType? visible = none → p.StoresIn opts.widen visible :=
    fun hnone type htype => by simp [hnone] at htype
  cases h with
  | @plain _ con _ _ _ hplain =>
    cases con <;> simp_all [Construct.isPlain, Plan.storageType?, Plan.make]
  | table _ hstored | list _ hstored =>
    intro type htype child hkid
    cases htype
    exact hstored child hkid
  | call | literal | symbol | column | restrict | extend | join => exact hnone rfl

theorem IsStatement.storesIn (h : IsStatement opts Γ p) (hsees : SeesAlike Γ visible) :
    p.StoresIn opts.widen visible := by
  have hnone : p.storageType? visible = none → p.StoresIn opts.widen visible :=
    fun hnone type htype => by simp [hnone] at htype
  cases h with
  | expression h => exact h.storesIn visible
  | declaration _ _ hstored =>
    intro type htype child hkid
    cases htype
    exact hstored child (Option.mem_toList.mp hkid)
  | assignment hsym _ hnamed _ _ hstored =>
    intro type htype child hkid
    obtain rfl := mem_singleton.mp hkid
    obtain ⟨other, hother, halike⟩ := hsees.getElem? hsym
    obtain ⟨_, hfound, htype⟩ := Option.bind_eq_some_iff.mp htype
    obtain rfl := Option.some.inj (hother.symm.trans hfound)
    exact hstored type ((halike.type hnamed).trans htype)
  | noOp | block | conditional | case | whileLoop | forEach | breakLoop | continueLoop | tryHandler
  | raise => exact hnone rfl

end Compiled

/-! ### Programs -/

namespace Builder

variable {c : Compiler} {statement : Stmt} {b b' : Builder} {p : Plan}

/-- What a program that is compiled from an empty stack stores as it is suits the declared types. -/
theorem suitsByName_of_build (hsyms : b.stack.symbols = []) (hwins : b.stack.windows = [])
    (hframes : b.stack.frameCount = 0) (h : build c statement b = (.ok p, b')) {declared own : Ty}
    (hplaced : (declared, own) ∈ p.placements) : own.SuitsByName c.options.widen declared := by
  have hstores := forall_visits_of_build (P := Plan.StoresIn c.options.widen) hsyms hwins
    hframes h (fun hsees hp => hp.storesIn hsees) (.inr fun hq => hq.storesIn _)
  obtain ⟨visit, hvisit, hplaced⟩ := mem_flatMap.mp hplaced
  obtain ⟨type, htype, hplaced⟩ := mem_flatMap.mp hplaced
  obtain ⟨val, hval, hown⟩ := mem_filterMap.mp hplaced
  obtain ⟨hmem, hkind⟩ := mem_filter.mp hval
  obtain ⟨_, htype', heq⟩ := Option.map_eq_some_iff.mp hown
  obtain ⟨rfl, rfl⟩ := Prod.mk.inj heq
  have hstored := hstores visit hvisit type (Option.mem_toList.mp htype) val hmem
  exact hstored.resolve_left (by simpa using hkind) _ htype'

/-- Wherever a program that is compiled from an empty stack stores rows under a type with columns and does
not convert them, they have columns of that type and, unless missing ones are allowed, all of them. Each
column stands where the type says exactly if all are listed in its order. -/
theorem inPlace_iff_of_build (hsymbols : b.stack.symbols = []) (hwindows : b.stack.windows = [])
    (hframes : b.stack.frameCount = 0) (h : build c statement b = (.ok p, b')) {form form' : Form}
    {declared own : Columns} (hplaced : (.rows form declared, .rows form' own) ∈ p.placements)
    (hne : declared ≠ []) (hown : own.names.Nodup) :
    form' = form ∧ own.names ⊆ declared.names ∧
      (c.options.widen = false → declared.names.Nodup → own.names.Perm declared.names) ∧
      (declared.InPlace own ↔ own.names = declared.names) := by
  have hsuits := suitsByName_of_build hsymbols hwindows hframes h hplaced
  obtain ⟨hform, hsubset, -⟩ := hsuits.resolve_left hne
  refine ⟨hform, hsubset, fun hwiden hnodup => ?_, Columns.inPlace_iff hsubset hown⟩
  rw [hwiden] at hsuits
  exact Columns.perm_of_suitsByName hne hsuits hnodup hown

/-- A variable for rows with the columns `a` and `b`, and an assignment of a row with columns in some
order. -/
def rowProgram (names : List String) : Stmt :=
  let row (names : List String) : Expr :=
    .row .none (names.map fun name => (name, .literal .none (.boolean true) "")) .missing
  .block .none
    [.declaration .none "x" (.rows .row .none [("a", .named .none "System.Boolean"),
        ("b", .named .none "System.Boolean")]) (row ["a", "b"]) false,
      .assignment .none "x" (row names)]

/-- Whether rows with certain columns are stored under others as they are. -/
def places (p : Plan) (declared own : List String) : Bool :=
  p.placements.any fun
    | (.rows .row columns, .rows .row columns') =>
      Columns.names columns = declared ∧ Columns.names columns' = own
    | _ => false

theorem exists_of_places {declared own : List String} (h : places p declared own) :
    ∃ cols cols' : Columns, (.rows .row cols, .rows .row cols') ∈ p.placements ∧
      cols.names = declared ∧ cols'.names = own := by
  obtain ⟨placement, hmem, hnames⟩ := any_eq_true.mp h
  split at hnames
  · exact ⟨_, _, hmem, of_decide_eq_true hnames⟩
  · cases hnames

theorem exists_build_rowProgram (names : List String)
    (h : (build {} (rowProgram names) (.start {} { catalog := relationalCatalog .any })).1.toOption.any
      (places · ["a", "b"] names)) :
    ∃ p b', build {} (rowProgram names) (.start {} { catalog := relationalCatalog .any }) = (.ok p, b') ∧
      ∃ cols cols' : Columns, (.rows .row cols, .rows .row cols') ∈ p.placements ∧
        cols.names = ["a", "b"] ∧ cols'.names = names := by
  rcases hbuild : build {} (rowProgram names) (.start {} { catalog := relationalCatalog .any }) with
    ⟨_ | p, b'⟩
  all_goals rw [hbuild] at h
  · cases h
  · exact ⟨p, b', rfl, exists_of_places h⟩

/-- What is assigned in the declared order stays in place. -/
theorem inPlace_iff_of_build_ordered :
    ∃ p b' columns columns', build {} (rowProgram ["a", "b"])
        (.start {} { catalog := relationalCatalog .any }) = (.ok p, b') ∧
      (.rows .row columns, .rows .row columns') ∈ p.placements ∧
      Columns.names columns = ["a", "b"] ∧ Columns.InPlace columns columns' := by
  obtain ⟨p, b', hbuild, columns, columns', hmem, hcolumns, hcolumns'⟩ :=
    exists_build_rowProgram ["a", "b"] (by decide +kernel)
  have hne : columns ≠ [] := by
    rintro rfl
    cases hcolumns
  refine ⟨p, b', columns, columns', hbuild, hmem, hcolumns, ?_⟩
  exact (inPlace_iff_of_build rfl rfl rfl hbuild hmem hne (hcolumns' ▸ by decide)).2.2.2.mpr
    (hcolumns'.trans hcolumns.symm)

/-- A row that lists the columns of a variable in another order is assigned as it is. The references that
are compiled for the variable then find one column in the place of the other. -/
theorem exists_build_not_inPlace :
    ∃ p b' columns columns', build {} (rowProgram ["b", "a"])
        (.start {} { catalog := relationalCatalog .any }) = (.ok p, b') ∧ b'.messages = [] ∧
      (.rows .row columns, .rows .row columns') ∈ p.placements ∧
      ¬ Columns.InPlace columns columns' := by
  have hmessages : (build {} (rowProgram ["b", "a"])
      (.start {} { catalog := relationalCatalog .any })).2.messages = [] := by decide +kernel
  obtain ⟨p, b', hbuild, columns, columns', hmem, hcolumns, hcolumns'⟩ :=
    exists_build_rowProgram ["b", "a"] (by decide +kernel)
  rw [hbuild] at hmessages
  refine ⟨p, b', columns, columns', hbuild, hmessages, hmem, fun hplace => ?_⟩
  have hfirst := hplace 0 "a" (by rw [hcolumns]; rfl)
  rw [hcolumns'] at hfirst
  exact absurd hfirst (by decide)

end Builder

end Relational
