import Mathlib.Data.List.Basic
import Mathlib.Data.String.Basic
import Relational.Text.Outline

/-!
# Outlines are unambiguous

The outline of a tree whose labels are single lines determines the tree. A line of a child begins with one of
four indents, all of the same width, and only those of its first line have a dash in their third column. So
the lines of the children are found by that column, and what follows the indent is the child's own line, whatever
the labels are made of.
-/

namespace Relational

open List

namespace Outline

variable {line : List Char} {ls : List (List Char)} {blocks : List (List (List Char))}
  {P : List Char → Prop} (text : List Char)

/-! ### Lines of a text -/

/-- The text of lines, a break after each. -/
def unlines (ls : List (List Char)) : List Char :=
  ls.flatMap (· ++ ['\n'])

theorem unlines_append (ls ls' : List (List Char)) : unlines (ls ++ ls') = unlines ls ++ unlines ls' :=
  flatMap_append

theorem lines_ne_nil : lines text ≠ [] := by
  cases text with
  | nil => simp [lines]
  | cons c rest =>
    unfold lines
    split
    · simp
    · split <;> simp

theorem lines_line_append (hline : '\n' ∉ line) (rest : List Char) :
    lines (line ++ '\n' :: rest) = line :: lines rest := by
  induction line with
  | nil => simp [lines]
  | cons c line ih =>
    obtain ⟨hc, hline⟩ := not_or.mp (mt mem_cons.mpr hline)
    rw [cons_append, lines, if_neg (Ne.symm hc), ih hline]

theorem lines_unlines (hls : ∀ line ∈ ls, '\n' ∉ line) : lines (unlines ls) = ls ++ [[]] := by
  induction ls with
  | nil => rfl
  | cons line ls ih =>
    obtain ⟨hline, hrest⟩ := forall_mem_cons.mp hls
    have hunlines : unlines (line :: ls) = line ++ '\n' :: unlines ls := by simp [unlines]
    rw [hunlines, lines_line_append hline, ih hrest, cons_append]

theorem lines_append_break : lines (text ++ ['\n']) = lines text ++ [[]] := by
  induction text with
  | nil => rfl
  | cons c rest ih =>
    obtain ⟨line, others, hlines⟩ := exists_cons_of_ne_nil (lines_ne_nil rest)
    rw [cons_append, lines, lines, ih, hlines]
    split <;> rfl

theorem trimBreaks_append_break {text : List Char} (htext : text.getLast? ≠ some '\n') :
    trimBreaks (text ++ ['\n']) = text := by
  rw [trimBreaks, reverse_append, reverse_singleton, singleton_append, dropWhile_cons_of_pos (by simp)]
  rw [← head?_reverse] at htext
  cases hrev : text.reverse with
  | nil => rw [reverse_eq_nil_iff.mp hrev]; rfl
  | cons c rest =>
    rw [hrev, head?_cons, ne_eq, Option.some.injEq] at htext
    rw [dropWhile_cons_of_neg (by simpa using htext), ← hrev, reverse_reverse]

/-- Lines of which only the first may be empty. -/
structure IsBlock (ls : List (List Char)) : Prop where
  ne_nil : ls ≠ []
  unbroken : ∀ line ∈ ls, '\n' ∉ line
  filled : ∀ line ∈ ls.tail, line ≠ []

/-- Trimming the text of such lines takes the break after the last line away, and no other one. -/
theorem IsBlock.lines_trimBreaks (h : IsBlock ls) : lines (trimBreaks (unlines ls)) = ls := by
  obtain ⟨init, last, rfl⟩ := (eq_nil_or_concat ls).resolve_left h.ne_nil
  rw [concat_eq_append] at h ⊢
  have hlast : (unlines init ++ last).getLast? ≠ some '\n' := by
    by_cases hempty : last = []
    · -- an empty last line is the only line
      have hinit : init = [] := by
        by_contra hinit
        exact h.filled last (by simp [tail_append_of_ne_nil hinit]) hempty
      simp [hinit, hempty, unlines]
    · rw [getLast?_append_of_ne_nil _ hempty]
      exact fun hc => h.unbroken last (by simp) (mem_of_getLast? hc)
  have htext : unlines (init ++ [last]) = (unlines init ++ last) ++ ['\n'] := by
    simp [unlines]
  rw [htext, trimBreaks_append_break hlast]
  refine (append_left_inj [[]]).mp ?_
  rw [← lines_append_break, ← htext, lines_unlines h.unbroken]

/-! ### Lines of the children -/

/-- The lines of a child, each after its indent. -/
def branch (isLast : Bool) : List (List Char) → List (List Char)
  | [] => []
  | first :: rest => (indent true isLast ++ first) :: rest.map (indent false isLast ++ ·)

/-- The lines of the children one after the other. -/
def branches : List (List (List Char)) → List (List Char)
  | [] => []
  | [last] => branch true last
  | ls :: next :: rest => branch false ls ++ branches (next :: rest)

theorem child_unlines (h : IsBlock ls) (isLast : Bool) :
    child isLast (unlines ls) = unlines (branch isLast ls) := by
  obtain ⟨first, rest, rfl⟩ := exists_cons_of_ne_nil h.ne_nil
  unfold child
  rw [h.lines_trimBreaks]
  simp [branch, tailLines, unlines, flatMap_map]

theorem children_unlines (h : ∀ ls ∈ blocks, IsBlock ls) :
    children (blocks.map unlines) = unlines (branches blocks) := by
  fun_induction branches blocks with
  | case1 => rfl
  | case2 last => exact child_unlines (h last mem_cons_self) true
  | case3 ls next rest ih =>
    obtain ⟨hfirst, hrest⟩ := forall_mem_cons.mp h
    rw [unlines_append, ← child_unlines hfirst false, ← ih hrest]
    rfl

theorem forall_mem_branch {isLast : Bool} (h : ∀ own ∈ ls, ∀ isFirst, P (indent isFirst isLast ++ own)) :
    ∀ line ∈ branch isLast ls, P line := by
  cases ls with
  | nil => exact fun _ hline => absurd hline not_mem_nil
  | cons first rest =>
    obtain ⟨hfirst, hrest⟩ := forall_mem_cons.mp h
    exact forall_mem_cons.mpr ⟨hfirst true, forall_mem_map.mpr fun own hown => hrest own hown false⟩

theorem forall_mem_branches
    (h : ∀ ls ∈ blocks, ∀ own ∈ ls, ∀ isFirst isLast, P (indent isFirst isLast ++ own)) :
    ∀ line ∈ branches blocks, P line := by
  fun_induction branches blocks with
  | case1 => exact fun _ hline => absurd hline not_mem_nil
  | case2 last => exact forall_mem_branch fun own hown isFirst => h last mem_cons_self own hown isFirst true
  | case3 ls next rest ih =>
    obtain ⟨hfirst, hrest⟩ := forall_mem_cons.mp h
    exact forall_mem_append.mpr
      ⟨forall_mem_branch fun own hown isFirst => hfirst own hown isFirst false, ih hrest⟩

theorem IsBlock.node (hline : '\n' ∉ line) (h : ∀ ls ∈ blocks, IsBlock ls) :
    IsBlock (line :: branches blocks) where
  ne_nil := cons_ne_nil _ _
  unbroken := by
    refine forall_mem_cons.mpr ⟨hline, forall_mem_branches fun ls hls own hown isFirst isLast => ?_⟩
    have hindent : '\n' ∉ indent isFirst isLast := by
      cases isFirst <;> cases isLast <;> decide
    rw [mem_append]
    exact not_or.mpr ⟨hindent, (h ls hls).unbroken own hown⟩
  filled := forall_mem_branches fun _ _ _ _ isFirst isLast => by
    cases isFirst <;> cases isLast <;> simp [indent]

/-! ### Reading the lines of the children back -/

/-- Reads a line before the lines read so far: the lines of a child whose first line is still to come, and
those of the children after it. -/
def readLine (l : List Char) (read : List (List Char) × List (List (List Char))) :
    List (List Char) × List (List (List Char)) :=
  if l[2]? = some '─' then ([], (l.drop 4 :: read.1) :: read.2) else (l.drop 4 :: read.1, read.2)

theorem foldr_readLine_branch (hls : ls ≠ []) (isLast : Bool) (blocks : List (List (List Char))) :
    foldr readLine ([], blocks) (branch isLast ls) = ([], ls :: blocks) := by
  obtain ⟨first, rest, rfl⟩ := exists_cons_of_ne_nil hls
  have hrest : foldr readLine ([], blocks) (rest.map (indent false isLast ++ ·)) = (rest, blocks) := by
    induction rest with
    | nil => rfl
    | cons line rest ih =>
      rw [map_cons, foldr_cons, ih (cons_ne_nil _ _)]
      cases isLast <;> simp [readLine, indent]
  rw [branch, foldr_cons, hrest]
  cases isLast <;> simp [readLine, indent]

theorem foldr_readLine_branches (h : ∀ ls ∈ blocks, ls ≠ []) :
    foldr readLine ([], []) (branches blocks) = ([], blocks) := by
  fun_induction branches blocks with
  | case1 => rfl
  | case2 last => exact foldr_readLine_branch (h last mem_cons_self) true []
  | case3 ls next rest ih =>
    obtain ⟨hfirst, hrest⟩ := forall_mem_cons.mp h
    rw [foldr_append, ih hrest]
    exact foldr_readLine_branch hfirst false _

end Outline

/-! ### Trees -/

open Outline

/-- A tree whose nodes have labels of one line each. -/
inductive LabelledTree where
  | node (label : { label : String // '\n' ∉ label.toList }) (children : List LabelledTree)

namespace LabelledTree

/-- The outline of a tree, made of the labels and of the outlines of the children. -/
def text : LabelledTree → String
  | node label children => render label (children.map text)

/-- The lines of the outline of a tree. -/
def outlineLines : LabelledTree → List (List Char)
  | node label children => label.val.toList :: branches (children.map outlineLines)

theorem isBlock_outlineLines (t : LabelledTree) : IsBlock t.outlineLines := by
  induction t using outlineLines.induct with
  | case1 label children ih =>
    rw [outlineLines]
    exact .node label.property (forall_mem_map.mpr ih)

theorem toList_text (t : LabelledTree) : t.text.toList = unlines t.outlineLines := by
  induction t using text.induct with
  | case1 label children ih =>
    have hkids : (children.map text).map String.toList = (children.map outlineLines).map unlines := by
      simpa using ih
    have hblocks : ∀ ls ∈ children.map outlineLines, IsBlock ls :=
      forall_mem_map.mpr fun t _ => t.isBlock_outlineLines
    rw [text, render, hkids, outlineLines]
    simp [writeNode, writeChildren, children_unlines hblocks, unlines, -map_map]

theorem eq_of_outlineLines_eq {s t : LabelledTree} (h : s.outlineLines = t.outlineLines) : s = t := by
  induction s using outlineLines.induct generalizing t with
  | case1 label children ih =>
    obtain ⟨label', children'⟩ := t
    rw [outlineLines, outlineLines] at h
    obtain ⟨hlabel, hkids⟩ := cons_eq_cons.mp h
    have hblocks (ts : List LabelledTree) : ∀ ls ∈ ts.map outlineLines, ls ≠ [] :=
      forall_mem_map.mpr fun t _ => t.isBlock_outlineLines.ne_nil
    have hread := congrArg (foldr readLine ([], [])) hkids
    rw [foldr_readLine_branches (hblocks _), foldr_readLine_branches (hblocks _), Prod.mk.injEq] at hread
    obtain rfl : label = label' := Subtype.ext (String.toList_injective hlabel)
    refine congrArg (node label) (ext_getElem (by simpa using congrArg length hread.2) fun i hi _ => ?_)
    refine ih _ (getElem_mem hi) ?_
    have hlines := getElem_of_eq hread.2 (i := i) (by simpa using hi)
    rwa [getElem_map, getElem_map] at hlines

/-- Two trees have the same outline only if they are the same tree. -/
theorem text_eq_text_iff (s t : LabelledTree) : s.text = t.text ↔ s = t := by
  have hlines (t : LabelledTree) : lines t.text.toList = t.outlineLines ++ [[]] := by
    rw [toList_text, lines_unlines t.isBlock_outlineLines.unbroken]
  refine ⟨fun h => eq_of_outlineLines_eq ((append_left_inj [[]]).mp ?_), congrArg text⟩
  rw [← hlines s, ← hlines t, h]

end LabelledTree

end Relational
