import Relational.Proofs.Compile.Program

/-!
# Names before and after a renaming

The columns of a source are renamed one after the other, so that a column may be renamed again and a name
that became free may be given again. A renaming translates between the names that columns have before and
after it by the first rename from, or to, a name. Both agree exactly as long as the first rename of each
column gives it a name that it keeps and that no other rename has given before.
-/

namespace Relational

open Compiling List

/-- The name of a column after a rename, which may be of another column. -/
def afterRename (name : String) (rename : String × String) : String :=
  if name = rename.1 then rename.2 else name

/-- The name that a column has after renames one after the other. -/
def finalName (renames : List (String × String)) (name : String) : String :=
  renames.foldl afterRename name

/-- Renames that columns of the given names can go through one after the other: each is of a column that
there is then, to a name that no other column has. -/
def AcceptsRenames (names : List String) : List (String × String) → Prop
  | [] => True
  | rename :: renames => rename.1 ∈ names ∧ (rename.2 ∈ names → rename.2 = rename.1) ∧
      AcceptsRenames (names.map (afterRename · rename)) renames

/-- The first rename of each column gives it a name that it has in the end, and that no rename before has
given. -/
def SettlesAtOnce (names : List String) (renames : List (String × String)) : Prop :=
  ∀ before old new after, renames = before ++ (old, new) :: after → old ∈ names →
    old ∉ before.map Prod.fst → finalName after new = new ∧ new ∉ before.map Prod.snd

variable {names : List String} {old new name : String} {renames before after : List (String × String)}
  {cols : Columns} {idx : Nat}

/-! ### What renames do -/

theorem nodup_map_afterRename (hnodup : names.Nodup) (hnew : new ∈ names → new = old) :
    (names.map (afterRename · (old, new))).Nodup := by
  refine hnodup.map_on fun first hfirst second hsecond heq => ?_
  unfold afterRename at heq
  grind

theorem map_afterRename_of_notMem (h : old ∉ names) : names.map (afterRename · (old, new)) = names := by
  refine (map_congr_left fun name hname => ?_).trans (map_id names)
  exact if_neg fun heq : name = old => h (heq ▸ hname)

theorem Columns.names_modify (new : String) (hnodup : cols.names.Nodup)
    (hidx : cols.index? old = some idx) : Columns.names (cols.modify idx fun col => (new, col.2)) =
      cols.names.map (afterRename · (old, new)) := by
  induction cols generalizing idx with
  | nil => cases hidx
  | cons col cols ih =>
    obtain ⟨hfirst, hrest⟩ := nodup_cons.mp hnodup
    rw [index?, findIdx?_cons] at hidx
    by_cases hname : col.1 = old
    · subst hname
      obtain rfl : 0 = idx := by simpa using hidx
      refine congrArg₂ cons (if_pos rfl).symm ?_
      exact (map_afterRename_of_notMem hfirst).symm
    · simp only [beq_iff_eq, hname, if_false, Option.map_eq_some_iff] at hidx
      obtain ⟨place, hplace, rfl⟩ := hidx
      exact congrArg₂ cons (if_neg hname).symm (ih hrest hplace)

theorem Columns.mem_names_of_index? (h : cols.index? name = some idx) : name ∈ cols.names := by
  obtain ⟨hlt, hname, -⟩ := findIdx?_eq_some_iff_getElem.mp h
  exact mem_map.mpr ⟨_, getElem_mem hlt, by simpa using hname⟩

theorem names_renameColumns {position : Position} {heading : Heading} {res : Columns}
    {b b' : Builder} (hnodup : cols.names.Nodup)
    (h : renameColumns position heading cols renames b = (.ok res, b')) :
    AcceptsRenames cols.names renames ∧ res.names = cols.names.map (finalName renames) := by
  induction renames generalizing cols with
  | nil =>
    cases h
    exact ⟨trivial, (map_id _).symm⟩
  | cons rename renames ih =>
    obtain ⟨old, new⟩ := rename
    rw [renameColumns] at h
    cases hold : cols.index? old with
    | none =>
      rw [hold] at h
      cases h
    | some idx =>
      -- whether the new name is there already or not, it is no other column's
      obtain ⟨hnew, h⟩ : (new ∈ cols.names → new = old) ∧ renameColumns position heading
          (cols.modify idx fun col => (new, col.2)) renames b = (.ok res, b') := by
        rw [hold] at h
        cases hother : cols.index? new with
        | none =>
          rw [hother] at h
          refine ⟨fun hmem => ?_, h⟩
          obtain ⟨col, hcol, rfl⟩ := mem_map.mp hmem
          simpa using findIdx?_eq_none_iff.mp hother col hcol
        | some other =>
          simp only [hother] at h
          split at h
          · cases h
          · rename_i hsame
            rw [not_not.mp hsame] at hother
            obtain ⟨_, hnew, -⟩ := findIdx?_eq_some_iff_getElem.mp hother
            obtain ⟨_, hfound, -⟩ := findIdx?_eq_some_iff_getElem.mp hold
            exact ⟨fun _ => (beq_iff_eq.mp hnew).symm.trans (beq_iff_eq.mp hfound), h⟩
      have hnames := Columns.names_modify new hnodup hold
      obtain ⟨haccepts, hres⟩ := ih (hnames ▸ nodup_map_afterRename hnodup hnew) h
      rw [hnames] at haccepts hres
      exact ⟨⟨Columns.mem_names_of_index? hold, hnew, haccepts⟩, hres.trans (map_map ..)⟩

theorem AcceptsRenames.kept (h : AcceptsRenames names (before ++ after)) (hname : name ∈ names)
    (hnot : name ∉ before.map Prod.fst) : finalName before name = name ∧ name ∉ before.map Prod.snd := by
  induction before generalizing names with
  | nil => exact ⟨rfl, not_mem_nil⟩
  | cons rename before ih =>
    obtain ⟨hne, hlater⟩ := not_or.mp (mem_cons.not.mp hnot)
    obtain ⟨-, hnew, haccepts⟩ := h
    have hstep : afterRename name rename = name := if_neg hne
    obtain ⟨hfinal, hgiven⟩ := ih haccepts (mem_map.mpr ⟨name, hname, hstep⟩) hlater
    refine ⟨(congrArg (finalName before) hstep).trans hfinal, mem_cons.not.mpr (not_or.mpr ⟨?_, hgiven⟩)⟩
    rintro rfl
    exact hne (hnew hname)

/-! ### Translating names -/

theorem find?_eq_none_of_notMem {f : String × String → String} (h : name ∉ renames.map f) :
    renames.find? (f · == name) = none :=
  find?_eq_none.mpr fun other hother heq => h (mem_map.mpr ⟨other, hother, beq_iff_eq.mp heq⟩)

theorem find?_of_first (f : String × String → String) (rename : String × String)
    (h : f rename ∉ before.map f) : (before ++ rename :: after).find? (f · == f rename) = some rename := by
  simp [find?_append, find?_eq_none_of_notMem h]

theorem renamed_of_first (h : old ∉ before.map Prod.fst) :
    renamed (before ++ (old, new) :: after) old = new := by
  rw [renamed, find?_of_first Prod.fst (old, new) h]
  rfl

theorem unrenamed_of_first (h : new ∉ before.map Prod.snd) :
    unrenamed (before ++ (old, new) :: after) new = old := by
  rw [unrenamed, find?_of_first Prod.snd (old, new) h]
  rfl

theorem unrenamed_mem_of_mem (h : new ∈ before.map Prod.snd) :
    unrenamed (before ++ after) new ∈ before.map Prod.fst := by
  obtain ⟨rename, hrename, rfl⟩ := mem_map.mp h
  obtain ⟨first, hfirst⟩ := Option.isSome_iff_exists.mp
    (find?_isSome (p := (·.2 == rename.2)).mpr ⟨rename, hrename, beq_self_eq_true _⟩)
  rw [unrenamed, find?_append, hfirst]
  exact mem_map_of_mem (mem_of_find?_eq_some hfirst)

theorem exists_first (h : name ∈ renames.map Prod.fst) : ∃ before new after,
    renames = before ++ (name, new) :: after ∧ name ∉ before.map Prod.fst := by
  obtain ⟨rename, hrename, rfl⟩ := mem_map.mp h
  obtain ⟨⟨old, new⟩, hfind⟩ := Option.isSome_iff_exists.mp
    (find?_isSome (p := (·.1 == rename.1)).mpr ⟨rename, hrename, beq_self_eq_true _⟩)
  obtain ⟨hname, before, after, rfl, hbefore⟩ := find?_eq_some_iff_append.mp hfind
  obtain rfl : old = rename.1 := beq_iff_eq.mp hname
  refine ⟨before, new, after, rfl, fun hmem => ?_⟩
  obtain ⟨other, hother, heq⟩ := mem_map.mp hmem
  simpa [heq] using hbefore other hother

theorem AcceptsRenames.finalName_of_first
    (h : AcceptsRenames names (before ++ (old, new) :: after)) (hmem : old ∈ names)
    (hfirst : old ∉ before.map Prod.fst) :
    finalName (before ++ (old, new) :: after) old = finalName after new := by
  rw [finalName, foldl_append, foldl_cons]
  change finalName after (afterRename (finalName before old) _) = _
  rw [(h.kept hmem hfirst).1, afterRename, if_pos rfl]

/-- All columns are translated faithfully in both directions exactly if their first renames settle their
names. -/
theorem AcceptsRenames.translates_iff (h : AcceptsRenames names renames) :
    (∀ name ∈ names, unrenamed renames (finalName renames name) = name ∧
      renamed renames name = finalName renames name) ↔ SettlesAtOnce names renames := by
  constructor
  · rintro htranslates before old new after rfl hmem hfirst
    obtain ⟨hback, hforth⟩ := htranslates old hmem
    rw [renamed_of_first hfirst] at hforth
    rw [← hforth] at hback
    refine ⟨hforth.trans (h.finalName_of_first hmem hfirst) |>.symm, fun hgiven => hfirst ?_⟩
    exact hback ▸ unrenamed_mem_of_mem hgiven
  · intro hsettles name hname
    by_cases hmem : name ∈ renames.map Prod.fst
    · obtain ⟨before, new, after, rfl, hfirst⟩ := exists_first hmem
      obtain ⟨hfinal, hgiven⟩ := hsettles before name new after rfl hname hfirst
      rw [h.finalName_of_first hname hfirst, hfinal, renamed_of_first hfirst]
      exact ⟨unrenamed_of_first hgiven, rfl⟩
    · obtain ⟨hfinal, hgiven⟩ := kept (renames.append_nil.symm ▸ h) hname hmem
      rw [hfinal, renamed, unrenamed, find?_eq_none_of_notMem hgiven, find?_eq_none_of_notMem hmem]
      exact ⟨rfl, rfl⟩

/-! ### Renamings -/

variable {e : Environment} {position : Position} {heading : Heading} {source p : Plan} {b b' : Builder}

theorem renamePlan_cases (hnodup : heading.columns.names.Nodup)
    (h : renamePlan e position heading source renames b = (.ok p, b')) :
    ∃ op, ∃ cols : Columns, p.construct = .rename op renames ∧
      p.type = some (.rows .table cols) ∧ AcceptsRenames heading.columns.names renames ∧
      cols.names = heading.columns.names.map (finalName renames) := by
  obtain ⟨cols, b₁, hcols, h⟩ := exists_of_bind_ok h
  obtain ⟨⟨op, operands⟩, b₂, -, h⟩ := exists_of_bind_ok h
  cases h
  exact ⟨op, cols, rfl, rfl, names_renameColumns hnodup hcols⟩

/-- A renaming translates between the names of the columns before and after it, at each place, exactly if
the first rename of each column gives it a name that it keeps and that no rename before has given. -/
theorem renamePlan_translates_iff (hnodup : heading.columns.names.Nodup)
    (h : renamePlan e position heading source renames b = (.ok p, b')) :
    ∃ op, ∃ columns : Columns, p.construct = .rename op renames ∧
      p.type = some (.rows .table columns) ∧ columns.length = heading.columns.length ∧
      ((∀ (i : Nat) old new, heading.columns.names[i]? = some old → columns.names[i]? = some new →
        unrenamed renames new = old ∧ renamed renames old = new) ↔
          SettlesAtOnce heading.columns.names renames) := by
  obtain ⟨op, columns, hconstruct, htype, haccepts, hnames⟩ := renamePlan_cases hnodup h
  refine ⟨op, columns, hconstruct, htype, by simpa [Columns.names] using congrArg List.length hnames, ?_⟩
  rw [← haccepts.translates_iff, hnames]
  simp only [List.getElem?_map, Option.map_eq_some_iff]
  constructor
  · intro h name hname
    obtain ⟨i, hi⟩ := List.getElem?_of_mem hname
    exact h i name _ hi ⟨name, hi, rfl⟩
  · rintro h i old _ hold ⟨other, hother, rfl⟩
    obtain rfl := Option.some.inj (hold.symm.trans hother)
    exact h old (List.mem_of_getElem? hold)

/-- A renaming of columns, all of one type, over nothing but the operator that it takes. -/
def sampleRenaming (names : List String) (renames : List (String × String)) : Except Abort Plan × Builder :=
  renamePlan (.alone false) .none (some (names.map (·, .any)))
    (.make .tableSelector (some (.anyRows .table)) .none []) renames
    { workspace := { catalog := { operators := [Builder.tableOperator 1 "iRename" [.anyRows .table]] } } }

/-- A name that became free is given again. -/
theorem renamePlan_translates_iff_reuse : ∃ p b',
    sampleRenaming ["a", "b"] [("b", "c"), ("a", "b")] = (.ok p, b') ∧ ∃ op, ∃ columns : Columns,
      p.construct = .rename op [("b", "c"), ("a", "b")] ∧ p.type = some (.rows .table columns) ∧
      ∀ (i : Nat) old new, ["a", "b"][i]? = some old → columns.names[i]? = some new →
        unrenamed [("b", "c"), ("a", "b")] new = old ∧ renamed [("b", "c"), ("a", "b")] old = new := by
  have hok : (sampleRenaming ["a", "b"] [("b", "c"), ("a", "b")]).1.isOk := by decide +kernel
  rcases h : sampleRenaming ["a", "b"] [("b", "c"), ("a", "b")] with ⟨_ | p, b'⟩
  · rw [h] at hok
    cases hok
  obtain ⟨op, columns, hconstruct, htype, -, hiff⟩ := renamePlan_translates_iff (by decide +kernel) h
  refine ⟨p, b', rfl, op, columns, hconstruct, htype, hiff.mpr ?_⟩
  intro before old new after hsplit _ _
  rcases before with _ | ⟨first, _ | ⟨second, before⟩⟩
  · obtain ⟨⟨rfl, rfl⟩, rfl⟩ : ("b" = old ∧ "c" = new) ∧ [("a", "b")] = after := by simpa using hsplit
    decide
  · obtain ⟨rfl, ⟨rfl, rfl⟩, rfl⟩ : ("b", "c") = first ∧ ("a" = old ∧ "b" = new) ∧ [] = after := by
      simpa using hsplit
    decide
  · simp at hsplit

/-- A column that is renamed twice is translated to the name in between, and so is its last name. -/
theorem exists_renamePlan_not_translating : ∃ names renames p b', ∃ columns : Columns, names.Nodup ∧
    sampleRenaming names renames = (.ok p, b') ∧ p.type = some (.rows .table columns) ∧
      ∃ (i : Nat) (old new : String), names[i]? = some old ∧ columns.names[i]? = some new ∧
        unrenamed renames new ≠ old ∧ renamed renames old ≠ new := by
  have hok : (sampleRenaming ["a"] [("a", "b"), ("b", "c")]).1.isOk := by decide +kernel
  rcases h : sampleRenaming ["a"] [("a", "b"), ("b", "c")] with ⟨_ | p, b'⟩
  · rw [h] at hok
    cases hok
  obtain ⟨_, columns, -, htype, -, hnames⟩ := renamePlan_cases (by decide +kernel) h
  refine ⟨["a"], _, p, b', columns, by decide, h, htype, 0, "a", "c", rfl, ?_, by decide⟩
  rw [hnames]
  decide

end Relational
