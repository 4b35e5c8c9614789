import Relational.Proofs.Optimize.Rebase

/-!
# Restrictions of rows

The rows for which a condition holds may be selected before or after the rows are changed or joined,
provided that the condition holds of a row exactly if a second condition holds of the row that it came
from. A join lets a restriction through to a side whose rows are not filled in for want of a match. The
rows that the relational operators build move to the rows that they build them from, in the sense in
which conditions move.
-/

namespace Relational

open List

variable {α : Type} {f g : Row α → Bool}

variable {rows : List (Row α)}

/-! ### Restrictions of rows -/

theorem filter_flatMap_eq {β : Type} {rows : β → List (Row α)} {keeps : β → Bool}
    (h : ∀ item, (rows item).filter f = if keeps item then rows item else []) (items : List β) :
    (items.flatMap rows).filter f = (items.filter keeps).flatMap rows := by
  induction items with
  | nil => rfl
  | cons item items ih =>
    rw [flatMap_cons, filter_append, ih, h, filter_cons]
    cases keeps item <;> simp

theorem filter_eq_ite {keep : Bool} (h : ∀ row ∈ rows, f row = keep) :
    rows.filter f = if keep then rows else [] := by
  cases keep with
  | true => exact filter_eq_self.mpr h
  | false => exact filter_eq_nil_iff.mpr fun row hrow => by simp [h row hrow]

theorem filter_filter_map {isMatch : Row α → Bool} {combine : Row α → Row α}
    (h : ∀ row, isMatch row = true → f (combine row) = g row) :
    ((rows.filter isMatch).map combine).filter f = ((rows.filter g).filter isMatch).map combine := by
  rw [filter_map, filter_filter, filter_filter]
  congr 1
  refine filter_congr fun row _ => ?_
  cases hmatch : isMatch row with
  | true => simp [h row hmatch]
  | false => simp

/-- Rows that a join brings together: they match, or one of them is kept without a match. -/
def Joined (kind : JoinKind) (isMatch : Row α → Row α → Bool) (l r : Row α) : Prop :=
  isMatch l r = true ∨ kind = .left ∧ r = [] ∨ kind = .right ∧ l = []

variable {kind : JoinKind} {isMatch : Row α → Row α → Bool} {combine : Row α → Row α → Row α}
  {cols : Columns} {name : String} {place : Nat}

theorem mem_orUnmatched {unmatched row : Row α} (h : row ∈ orUnmatched unmatched rows) :
    row = unmatched ∨ row ∈ rows := by
  unfold orUnmatched at h
  split at h
  · exact .inl (mem_singleton.mp h)
  · exact .inr h

theorem filter_joinRows_left (hkind : kind ≠ .right)
    (h : ∀ l r, Joined kind isMatch l r → f (combine l r) = g l) (left right : List (Row α)) :
    (joinRows kind isMatch combine left right).filter f =
      joinRows kind isMatch combine (left.filter g) right := by
  have hmatched : ∀ l, ∀ row ∈ (right.filter (isMatch l)).map (combine l), f row = g l := by
    intro l row hrow
    obtain ⟨r, hr, rfl⟩ := mem_map.mp hrow
    exact h l r (.inl (mem_filter.mp hr).2)
  cases kind with
  | right => exact absurd rfl hkind
  | left =>
    refine filter_flatMap_eq (fun l => filter_eq_ite fun row hrow => ?_) left
    rcases mem_orUnmatched hrow with rfl | hrow
    · exact h l [] (.inr (.inl ⟨rfl, rfl⟩))
    · exact hmatched l row hrow
  | inner | other => exact filter_flatMap_eq (fun l => filter_eq_ite (hmatched l)) left

theorem filter_joinRows_right (hkind : kind ≠ .left)
    (h : ∀ l r, Joined kind isMatch l r → f (combine l r) = g r) (left right : List (Row α)) :
    (joinRows kind isMatch combine left right).filter f =
      joinRows kind isMatch combine left (right.filter g) := by
  cases kind with
  | left => exact absurd rfl hkind
  | right =>
    refine filter_flatMap_eq (fun r => filter_eq_ite fun row hrow => ?_) right
    rcases mem_orUnmatched hrow with rfl | hrow
    · exact h [] r (.inr (.inr ⟨rfl, rfl⟩))
    · obtain ⟨l, hl, rfl⟩ := mem_map.mp hrow
      exact h l r (.inl (mem_filter.mp hl).2)
  | inner | other =>
    simp only [joinRows, filter_flatMap]
    refine flatMap_congr fun l _ => ?_
    exact filter_filter_map fun r hr => h l r (.inl hr)

namespace Datum

theorem restrict_true (val : Datum α) : (val.restrict fun _ => true) = val := by
  cases val with
  | table rows => exact congrArg table (filter_eq_self.mpr fun _ _ => rfl)
  | nil | scalar _ | row _ => rfl

theorem restrict_map {change : Row α → Row α} (h : ∀ row, f (change row) = g row) (val : Datum α) :
    (val.overRows (·.map change)).restrict f = (val.restrict g).overRows (·.map change) := by
  cases val with
  | table rows =>
    refine congrArg table ?_
    simp only [filter_map]
    exact congrArg _ (filter_congr fun row _ => h row)
  | nil | scalar _ | row _ => rfl

theorem restrict_join_left (hkind : kind ≠ .right)
    (h : ∀ l r, Joined kind isMatch l r → f (combine l r) = g l) (left right : Datum α) :
    (join kind isMatch combine left right).restrict f =
      join kind isMatch combine (left.restrict g) right := by
  cases left with
  | table ls =>
    cases right with
    | table rs => exact congrArg table (filter_joinRows_left hkind h ls rs)
    | nil | scalar _ | row _ => rfl
  | nil | scalar _ | row _ => rfl

theorem restrict_join_right (hkind : kind ≠ .left)
    (h : ∀ l r, Joined kind isMatch l r → f (combine l r) = g r) (left right : Datum α) :
    (join kind isMatch combine left right).restrict f =
      join kind isMatch combine left (right.restrict g) := by
  cases left with
  | table ls =>
    cases right with
    | table rs => exact congrArg table (filter_joinRows_right hkind h ls rs)
    | nil | scalar _ | row _ => rfl
  | nil | scalar _ | row _ => rfl

end Datum

/-! ### Rows that move to each other -/

namespace Columns

theorem has_of_index? (h : cols.index? name = some place) : cols.has name = true := by
  unfold index? at h
  unfold has
  rw [← findIdx?_isSome, h]
  rfl

theorem names_getElem? {type : Ty} (h : cols[place]? = some (name, type)) :
    cols.names[place]? = some name := by
  simp [names, h]

theorem place_eq (hunique : cols.names.Nodup) {place' : Nat} (h : cols.names[place]? = some name)
    (h' : cols.names[place']? = some name) : place = place' :=
  (List.getElem?_inj (List.getElem?_eq_some_iff.mp h).1 hunique).mp (h.trans h'.symm)

end Columns

namespace Plan

variable {src tgt : Heading} {rename : String → String} {l r : Row α} {right left : Columns}

/-- Rows move to each other if a column of the first has the value of the column that its name leads to
in the second. -/
theorem rowsMove_of (h : ∀ name type type' col place,
      src.columns[col]? = some (name, type) → tgt.columns.index? (rename name) = some place →
      tgt.columns.type? (rename name) = some type' → type'.equals type = true →
      tgt.columns[place]? = some (rename name, type') → l.get col = r.get place) :
    RowsMove src tgt rename l r := by
  rintro col place ⟨name, type, type', hcol, hplace, htype, hequals⟩
  exact h name type type' col place hcol hplace htype hequals (Columns.getElem?_of_index? hplace htype)

theorem rowsMove_project (row : Row α) :
    RowsMove src tgt id (src.columns.names.map (row.named tgt.columns)) row := by
  refine rowsMove_of fun name type _ col place hcol hplace _ _ _ => ?_
  rw [Row.get_map_of_getElem? (Columns.names_getElem? hcol)]
  exact Row.named_eq hplace

theorem rowsMove_rename {renames : List (String × String)}
    (hnames : src.columns.names.map (unrenamed renames) = tgt.columns.names)
    (hunique : tgt.columns.names.Nodup) (row : Row α) : RowsMove src tgt (unrenamed renames) row row := by
  refine rowsMove_of fun name type type' col place hcol _ _ _ hplace => ?_
  have hname : tgt.columns.names[col]? = some (unrenamed renames name) := by
    rw [← hnames, getElem?_map, Columns.names_getElem? hcol]
    rfl
  rw [Columns.place_eq hunique hname (Columns.names_getElem? hplace)]

theorem rowsMove_extend (hfront : tgt.columns <+: src.columns)
    (hunique : src.columns.names.Nodup) (row vals : Row α) :
    RowsMove src tgt id (row.fit tgt.columns.length ++ vals) row := by
  obtain ⟨computed, hcomputed⟩ := hfront
  refine rowsMove_of fun name type type' col place hcol _ _ _ hplace => ?_
  have hlt : place < tgt.columns.length := (List.getElem?_eq_some_iff.mp hplace).1
  have hplace' : src.columns[place]? = some (name, type') := by
    rw [← hcomputed, getElem?_append_left hlt]
    exact hplace
  obtain rfl := Columns.place_eq hunique (Columns.names_getElem? hcol) (Columns.names_getElem? hplace')
  rw [Row.get_append_of_lt (by rwa [Row.length_fit]), Row.get_fit hlt]

theorem rowsMove_paired_right (hcols : src.columns = left ++ tgt.columns)
    (hunique : src.columns.names.Nodup) (l r : Row α) :
    RowsMove src tgt id (pairedRow left tgt.columns l r) r := by
  refine rowsMove_of fun name type type' col place hcol _ _ _ hplace => ?_
  have hplace' : src.columns[left.length + place]? = some (name, type') := by
    rw [hcols, getElem?_append_right (Nat.le_add_right _ _), Nat.add_sub_cancel_left]
    exact hplace
  obtain rfl := Columns.place_eq hunique (Columns.names_getElem? hcol) (Columns.names_getElem? hplace')
  have hlt : place < tgt.columns.length := (List.getElem?_eq_some_iff.mp hplace).1
  have hget := Row.get_append_add (l.fit left.length) (r.fit tgt.columns.length) place
  rw [Row.length_fit] at hget
  rw [pairedRow, hget, Row.get_fit hlt]

theorem rowsMove_natural_left (hcols : src.columns = sharedOnce tgt.columns right)
    (hkind : kind ≠ .right) (l r : Row α) :
    RowsMove src tgt id (naturalRow kind tgt.columns right l r) l := by
  refine rowsMove_of fun name type type' col place hcol hplace _ _ _ => ?_
  rw [hcols] at hcol
  rw [naturalRow, Row.get_map_of_getElem? hcol, sharedValue]
  have hhas : tgt.columns.has name = true := Columns.has_of_index? hplace
  simp only [hhas, beq_eq_false_iff_ne.mpr hkind, Bool.false_and, Bool.not_false, Bool.and_self, if_true]
  exact Row.named_eq hplace

theorem rowsMove_natural_right {I : Interpretation α}
    (hcols : src.columns = sharedOnce left tgt.columns) (hkind : kind ≠ .left)
    (hjoined : Joined kind (I.sharedAgree left tgt.columns) l r) :
    RowsMove src tgt id (naturalRow kind left tgt.columns l r) r := by
  refine rowsMove_of fun name type type' col place hcol hplace htype hequals _ => ?_
  rw [hcols] at hcol
  rw [naturalRow, Row.get_map_of_getElem? hcol, sharedValue, ← Row.named_eq hplace]
  have hhas : tgt.columns.has name = true := Columns.has_of_index? hplace
  split
  · rename_i hleft
    rw [hhas, Bool.and_true, Bool.and_eq_true, Bool.not_eq_true', beq_eq_false_iff_ne] at hleft
    -- The value is that of the left side, with which the right side agrees.
    have hagree : I.sharedAgree left tgt.columns l r = true := by
      rcases hjoined with hmatch | ⟨rfl, -⟩ | ⟨rfl, -⟩
      · exact hmatch
      · exact absurd rfl hkind
      · exact absurd rfl hleft.2
    have hmem : (name, type) ∈ left := by
      rcases mem_append.mp (mem_of_getElem? hcol) with hmem | hmem
      · exact hmem
      · simp [hleft.1] at hmem
    have hvals := all_eq_true.mp hagree _ hmem
    rw [id_eq] at htype
    simp only [htype] at hvals
    exact I.eq_of_agree _ _ _ _ hequals hvals
  · rfl

end Plan

end Relational
