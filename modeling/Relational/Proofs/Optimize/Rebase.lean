import Relational.Optimize.Row
import Relational.Proofs.Optimize.WellFormed

/-!
# Conditions moved from one row to another

A condition that moves to another source sees the row of that source in place of the row that it saw
before. Below the condition the row is found ever deeper, and is hidden in the default values of
variables; everything else that a node sees is the same before and after. A column of the row moves to
the column of the new row that has its name, if their types are equal. So the moved condition means the
same of two rows that have the same values in the columns that move to each other.
-/

namespace Relational

open List

/-! ### Lists that differ in one place -/

/-- Two lists that agree everywhere but in one place, at which their entries are related if the place is
below a bound. -/
structure DifferAt {β : Type} (R : β → β → Prop) (place bound : Nat) (xs ys : List β) : Prop where
  others : ∀ i, i ≠ place → xs[i]? = ys[i]?
  related : place < bound → ∃ x y, xs[place]? = some x ∧ ys[place]? = some y ∧ R x y

theorem DifferAt.scope {β : Type} {R : β → β → Prop} {place bound : Nat} {xs ys : List β}
    (h : DifferAt R place bound xs ys) (isHidden : Bool) (front : List β) :
    DifferAt R (front.length + place) (front.length + if isHidden then 0 else bound)
      (front ++ if isHidden then [] else xs) (front ++ if isHidden then [] else ys) := by
  cases isHidden with
  | true =>
    refine ⟨fun _ _ => rfl, fun hlt => ?_⟩
    rw [if_pos rfl] at hlt
    omega
  | false =>
    refine ⟨fun i hi => ?_, fun hlt => ?_⟩
    · simp only [Bool.false_eq_true, if_false]
      rcases Nat.lt_or_ge i front.length with hfront | hback
      · rw [getElem?_append_left hfront, getElem?_append_left hfront]
      · rw [getElem?_append_right hback, getElem?_append_right hback]
        exact h.others _ (by omega)
    · simp only [Bool.false_eq_true, if_false, Nat.add_lt_add_iff_left] at hlt ⊢
      obtain ⟨x, y, hx, hy, hrelated⟩ := h.related hlt
      refine ⟨x, y, ?_, ?_, hrelated⟩
      all_goals rwa [getElem?_append_right (Nat.le_add_right _ _), Nat.add_sub_cancel_left]

variable {name : String} {s : Stack} {type : Ty}

theorem Columns.getElem?_of_index? {cols : Columns} {place : Nat}
    (hidx : cols.index? name = some place) (htype : cols.type? name = some type) :
    cols[place]? = some (name, type) := by
  unfold index? at hidx
  obtain ⟨before, after, hsplit, hbefore⟩ := lookup_eq_some_iff.mp htype
  rw [hsplit] at hidx ⊢
  have hmiss : before.findIdx? (·.1 == name) = none := by
    rw [findIdx?_eq_none_iff]
    intro col hcol
    rw [BEq.comm]
    simpa only [bne, Bool.not_eq_true'] using hbefore col hcol
  rw [findIdx?_append, hmiss, findIdx?_cons] at hidx
  obtain rfl : before.length = place := by simpa using hidx
  simp

namespace Plan

variable {α : Type} {I : Interpretation α} {p q : Plan} {src tgt : Heading} {rename : String → String}
  {place bound col : Nat} {visible visible' : List Symbol} {env env' : List (Datum α)} {row : Row α}

theorem length_childView (p : Plan) (idx : Nat) (visible : List Symbol) :
    (p.childView idx visible).length =
      (p.childScope idx).length + if p.isWindowed then 0 else visible.length := by
  unfold childView
  cases p.isWindowed <;> simp

/-! ### Rows and environments before and after a move -/

/-- The column of the new row that a column of the old row moves to. -/
def MovesTo (source target : Columns) (rename : String → String) (column place : Nat) : Prop :=
  ∃ name type newType, source[column]? = some (name, type) ∧
    target.index? (rename name) = some place ∧ target.type? (rename name) = some newType ∧
    newType.equals type = true

/-- Rows with the same values in the columns that move to each other. -/
def RowsMove (source target : Heading) (rename : String → String) (row row' : Row α) : Prop :=
  ∀ column place, MovesTo source.columns target.columns rename column place →
    row.get column = row'.get place

/-- The symbols before and after a move: the row in one place is exchanged for the other. -/
def SymbolsMove (source target : Heading) (place : Nat) (visible visible' : List Symbol) : Prop :=
  DifferAt (fun symbol symbol' => symbol = .ofRow source ∧ symbol' = .ofRow target) place
    visible.length visible visible'

/-- The values before and after a move, with rows of which one moves to the other in one place, unless
the place is hidden. -/
def ValuesMove (source target : Heading) (rename : String → String) (place bound : Nat)
    (env env' : List (Datum α)) : Prop :=
  DifferAt (fun value value' => ∃ row row', value = .row row ∧ value' = .row row' ∧
    RowsMove source target rename row row') place bound env env'

theorem SymbolsMove.childView (h : SymbolsMove src tgt place visible visible') (p : Plan)
    (idx : Nat) : SymbolsMove src tgt ((p.childScope idx).length + place)
      (p.childView idx visible) (p.childView idx visible') := by
  have hscope := DifferAt.scope h p.isWindowed (p.childScope idx).reverse
  rw [length_reverse] at hscope
  unfold SymbolsMove
  rw [length_childView]
  exact hscope

theorem ValuesMove.childValues (h : ValuesMove src tgt rename place visible.length env env') (p : Plan)
    (idx : Nat) (vals : List (Datum α)) : ValuesMove src tgt rename ((p.childScope idx).length + place)
      (p.childView idx visible).length (p.childValues idx vals env) (p.childValues idx vals env') := by
  have hscope := DifferAt.scope h p.isWindowed (Row.fit vals (p.childScope idx).length)
  rw [Row.length_fit] at hscope
  rw [length_childView]
  exact hscope

/-! ### References -/

/-- A reference to the symbol in a place. -/
def RefersAt (p : Plan) (place : Nat) : Prop :=
  match p.construct with
  | .stackReference _ index | .stackColumnReference _ index _ => index = place
  | _ => False

theorem SymbolsMove.refersLike (h : SymbolsMove src tgt place visible visible')
    (hp : p.RefersLike visible) (hplace : ¬ p.RefersAt place) : p.RefersLike visible' := by
  unfold RefersLike RefersBy at hp ⊢
  unfold RefersAt at hplace
  split
  · rename_i name idx hcon
    simp only [hcon] at hp hplace
    rwa [← h.others idx hplace]
  · rename_i name idx col hcon
    simp only [hcon] at hp hplace
    rwa [← h.others idx hplace]
  · rename_i location hcon
    simp only [hcon] at hp
    obtain ⟨sym, hsym, hname⟩ := hp
    by_cases hlocation : location.index = place
    · -- Rows have no name, so that either row is as good.
      obtain ⟨hlt, -⟩ := List.getElem?_eq_some_iff.mp hsym
      obtain ⟨_, _, hold, hnew, rfl, rfl⟩ := h.related (hlocation ▸ hlt)
      rw [hlocation, hold] at hsym
      cases hsym
      exact ⟨.ofRow tgt, hlocation ▸ hnew, hname⟩
    · exact ⟨sym, (h.others _ hlocation) ▸ hsym, hname⟩
  · trivial

theorem ValuesMove.denote_eq (h : ValuesMove src tgt rename place bound env env')
    (href : p.construct.isReference = true) (hplace : ¬ p.RefersAt place) :
    p.denote I env' = p.denote I env := by
  obtain ⟨con, _, _, _, _, _⟩ := p
  cases con
  case stackReference name idx =>
    rw [denote, denote, getD, getD, h.others idx hplace]
  case stackColumnReference name idx col =>
    rw [denote, denote, getD, getD, h.others idx hplace]
  all_goals cases href

/-- What becomes of a reference to a column of the row: it moves to a column of the new row, or cannot
move. -/
theorem rebaseColumn_eq {src : Columns} {old : String} (hcol : src[col]? = some (old, type)) (tgt : Columns)
    (rename : String → String) (p : Plan) (name : String) (idx : Nat) :
    rebaseColumn src tgt rename p name idx col = .error .impossible ∨
      ∃ place newType, MovesTo src tgt rename col place ∧
        tgt[place]? = some (rename old, newType) ∧ newType.equals type = true ∧
        (place = col ∧ rename old = name ∧ rebaseColumn src tgt rename p name idx col = .ok (.same p) ∨
          rebaseColumn src tgt rename p name idx col =
            .ok (.changed (make (.stackColumnReference (rename old) idx place) p.type p.position
              []))) := by
  unfold rebaseColumn
  simp only [hcol]
  split
  · rename_i place newType hplace htype
    split
    · exact .inl rfl
    · rename_i hequals
      have hequals : newType.equals type = true := by simpa using hequals
      refine .inr ⟨place, newType, ⟨old, type, newType, hcol, hplace, htype, hequals⟩,
        Columns.getElem?_of_index? hplace htype, hequals, ?_⟩
      split
      · rename_i hsame
        exact .inl ⟨hsame.1, hsame.2, rfl⟩
      · exact .inr rfl
  · exact .inl rfl

theorem rebaseNode_none (src tgt : Columns) (rename : String → String) (p : Plan) (s : Stack) :
    rebaseNode src tgt rename p s none = match p.construct with
      | .stackColumnReference name idx col =>
        if isRowReference idx s then
          match rebaseColumn src tgt rename p name idx col with
          | .ok res => (.ok res, none)
          | .error issue => (.ok (.same p), some issue)
        else (.ok (.same p), none)
      | .stackReference _ idx =>
        (.ok (.same p), if isRowReference idx s then some .impossible else none)
      | _ => (.ok (.same p), none) := by
  obtain ⟨con, _, _, _, _, _⟩ := p
  cases con
  case stackColumnReference name idx col =>
    cases h : isRowReference idx s with
    | false =>
      simp only [rebaseNode, h]
      rfl
    | true =>
      simp only [rebaseNode, h]
      cases rebaseColumn src tgt rename _ name idx col <;> rfl
  case stackReference name idx =>
    cases h : isRowReference idx s with
    | false | true =>
      simp only [rebaseNode, h]
      rfl
  all_goals rfl

theorem rebaseNode_of_not_refersAt {src tgt : Columns} (hdepth : s.depth = place + 1)
    (hplace : ¬ p.RefersAt place) : rebaseNode src tgt rename p s none = (.ok (.same p), none) := by
  unfold RefersAt at hplace
  rw [rebaseNode_none]
  split
  iterate 2
    · rename_i hcon
      simp only [hcon] at hplace
      simp [isRowReference, hdepth, hplace]
  · rfl

theorem SymbolsMove.column (h : SymbolsMove src tgt place visible visible') {name : String}
    {col : Nat} (hcon : p.construct = .stackColumnReference name place col)
    (hp : p.RefersLike visible) : ∃ type type', src.columns[col]? = some (name, type) ∧
      p.type = some type' ∧ type.Like type' ∧ place < visible.length ∧
      visible'[place]? = some (.ofRow tgt) := by
  simp only [RefersLike, RefersBy, hcon] at hp
  obtain ⟨sym, cols, type, type', hsym, hrow, hcol, htype, hlike⟩ := hp
  obtain ⟨hlt, -⟩ := List.getElem?_eq_some_iff.mp hsym
  obtain ⟨_, _, hold, hnew, rfl, rfl⟩ := h.related hlt
  rw [hold] at hsym
  cases hsym
  refine ⟨type, type', ?_, htype, hlike, hlt, hnew⟩
  cases src with
  | none => cases hrow
  | some cols' =>
    obtain rfl : cols' = cols := by simpa [Symbol.ofRow, Heading.toTy] using hrow
    exact hcol

theorem refersLike_ofRow {type' : Ty} (hcon : p.construct = .stackColumnReference name place col)
    (hsym : visible[place]? = some (.ofRow tgt)) (hcol : tgt.columns[col]? = some (name, type))
    (htype : p.type = some type') (hlike : type.Like type') : p.RefersLike visible := by
  simp only [RefersLike, RefersBy, hcon]
  cases tgt with
  | none => simp [Heading.columns] at hcol
  | some cols => exact ⟨_, cols, type, type', hsym, rfl, hcol, htype, hlike⟩

theorem denote_columnReference (hcon : p.construct = .stackColumnReference name place col)
    (hrow : env[place]? = some (.row row)) : p.denote I env = row.get col := by
  cases p
  subst hcon
  rw [denote, getD, hrow]
  rfl

/-- A reference to a column of the row means the same as a reference to the column that it moves to. -/
theorem ValuesMove.denote_column {name' : String} {col' : Nat}
    (h : ValuesMove src tgt rename place bound env env') (hbound : place < bound)
    (hp : p.construct = .stackColumnReference name place col)
    (hq : q.construct = .stackColumnReference name' place col')
    (hmoves : MovesTo src.columns tgt.columns rename col col') : q.denote I env' = p.denote I env := by
  obtain ⟨_, _, hold, hnew, row, row', rfl, rfl, hrows⟩ := h.related hbound
  rw [denote_columnReference hp hold, denote_columnReference hq hnew]
  exact (hrows col col' hmoves).symm

/-- Children of a node, from an index on, that follow the children there were after a move. -/
def ChildrenMove (I : Interpretation α) (source target : Heading) (rename : String → String)
    (place : Nat) (visible visible' : List Symbol) (p : Plan) (index : Nat)
    (children children' : List Plan) : Prop :=
  Childwise (fun i => Follows I (ValuesMove source target rename ((p.childScope i).length + place)
    (p.childView i visible).length) (p.childView i visible')) index children children'

/-- A node over moved children, with its own reference moved: the outcome is a plan that follows the
node, or the move is impossible. -/
def NodeMoves (I : Interpretation α) (source target : Heading) (rename : String → String)
    (place : Nat) (visible visible' : List Symbol) (p q : Plan)
    (outcome : Except Failure Transformed × Option RebaseIssue) : Prop :=
  outcome = (.ok (.same q), some .impossible) ∨
    ∃ result, outcome = (.ok result, none) ∧ (result.isSame = true → result.plan = q) ∧
      p.Follows I (ValuesMove source target rename place visible.length) visible' result.plan

section Node

variable {children : List Plan} (hnode : p.IsProper visible)
  (hsyms : SymbolsMove src tgt place visible visible')
  (hkids : ChildrenMove I src tgt rename place visible visible' p 0 p.children children)
include hkids

theorem ChildrenMove.follows (hnode : p.IsProper visible')
    (href : p.construct.isReference = true → ∀ env env',
      ValuesMove src tgt rename place visible.length env env' → p.denote I env' = p.denote I env) :
    p.Follows I (ValuesMove src tgt rename place visible.length) visible' (p.replaceChildren children) :=
  .replaceChildren hnode href (fun i vals _ _ henv => henv.childValues p i vals) hkids

include hnode hsyms

theorem nodeMoves_columnReference {col : Nat}
    (hcon : p.construct = .stackColumnReference name place col) (hdepth : s.depth = place + 1) :
    NodeMoves I src tgt rename place visible visible' p (p.replaceChildren children)
      (rebaseNode src.columns tgt.columns rename (p.replaceChildren children) s none) := by
  have htype' : (p.replaceChildren children).type = p.type :=
    hnode.typed.type_replaceChildren (hkids.imp fun _ _ _ h => h.alike)
  obtain ⟨type, type', hcol, htype, hlike, hlt, hsym⟩ :=
    hsyms.column hcon hnode.refers
  rw [rebaseNode_none, construct_replaceChildren, hcon]
  simp only [isRowReference, hdepth, BEq.rfl, if_true]
  obtain himpossible | ⟨place', newType, hmoves, hplace, hequals, hres⟩ :=
    rebaseColumn_eq hcol tgt.columns rename (p.replaceChildren children) name place
  · rw [himpossible]
    exact .inl rfl
  have hlike' := Ty.Like.of_equals hequals hlike
  rcases hres with ⟨rfl, hname, hres⟩ | hres
  · rw [hres]
    rw [hname] at hplace
    have hnode' : p.IsProper visible' :=
      ⟨refersLike_ofRow hcon hsym hplace htype hlike', hnode.typed, hnode.unique⟩
    exact .inr ⟨_, rfl, fun _ => rfl, hkids.follows hnode'
      fun _ _ _ henv => henv.denote_column hlt hcon hcon hmoves⟩
  · rw [hres]
    refine .inr ⟨_, rfl, fun h => Bool.noConfusion h, ⟨htype', ?_⟩, ?_, ?_⟩
    · rw [declaredSymbol?, declaredSymbol?, hcon]
      rfl
    · refine throughout_iff.mpr ⟨⟨?_, trivial, ?_⟩, fun _ _ h =>
        (not_mem_nil (mem_of_getElem? h)).elim⟩
      · exact refersLike_ofRow rfl hsym hplace (htype'.trans htype) hlike'
      · change (rowColumns (p.replaceChildren children).type).names.Nodup
        rw [htype']
        exact hnode.unique
    · exact fun _ _ henv => henv.denote_column hlt hcon rfl hmoves

theorem nodeMoves_rebaseNode (hdepth : s.depth = place + 1) :
    NodeMoves I src tgt rename place visible visible' p (p.replaceChildren children)
      (rebaseNode src.columns tgt.columns rename (p.replaceChildren children) s none) := by
  have hcon := p.construct_replaceChildren children
  by_cases hplace : p.RefersAt place
  · unfold RefersAt at hplace
    split at hplace
    · rename_i name idx href
      subst hplace
      refine .inl ?_
      rw [rebaseNode_none, hcon, href]
      simp [isRowReference, hdepth]
    · rename_i name idx col href
      subst hplace
      exact nodeMoves_columnReference hnode hsyms hkids href hdepth
    · exact hplace.elim
  · have hnode' : p.IsProper visible' :=
      ⟨hsyms.refersLike hnode.refers hplace, hnode.typed, hnode.unique⟩
    refine .inr ⟨.same _, ?_, fun _ => rfl, hkids.follows hnode'
      fun h _ _ henv => henv.denote_eq h hplace⟩
    exact rebaseNode_of_not_refersAt hdepth (by rwa [RefersAt, hcon])

end Node

/-! ### Whole plans -/

section Issue

variable {src tgt : Columns} {issue : RebaseIssue}

/-- An outcome with an issue. -/
def HasIssue {β : Type} (issue : RebaseIssue)
    (outcome : Except Failure β × Stack × Option RebaseIssue) : Prop :=
  outcome.2.2 = some issue

theorem HasIssue.bind {β γ : Type} {act : Visit (Stack × Option RebaseIssue) β}
    {next : β → Visit (Stack × Option RebaseIssue) γ} {state : Stack × Option RebaseIssue}
    (h : HasIssue issue (act state)) (hnext : ∀ val s, HasIssue issue (next val (s, some issue))) :
    HasIssue issue ((act >>= next) state) := by
  rw [bind_apply]
  match act state, h with
  | (.ok val, s, _), rfl => exact hnext val s
  | (.error _, s, _), rfl => rfl

theorem hasIssue_finish (p : Plan) (children : List Plan) (isSame : Bool) (s : Stack) : HasIssue issue
      (finish (withStack (rebaseNode src tgt rename)) p children isSame (s, some issue)) := by
  refine .bind ?_ fun q s => .bind rfl fun res s => rfl
  unfold rebuild
  cases isSame with
  | true => rfl
  | false => cases p.withChildren children <;> rfl

mutual

theorem hasIssue_transformWithStack (p : Plan) (s : Stack) : HasIssue issue
    (p.transformWithStack (rebaseNode src tgt rename) (s, some issue)) := by
  match p with
  | ⟨_, _, _, _, _, children⟩ =>
    exact .bind (hasIssue_transformChildrenWithStack _ 0 children s)
      fun (children', isSame) s => hasIssue_finish _ children' isSame s

theorem hasIssue_transformChildrenWithStack (parent : Plan) (idx : Nat) (children : List Plan)
    (s : Stack) : HasIssue issue (transformChildrenWithStack (rebaseNode src tgt rename) parent
      idx children (s, some issue)) := by
  match children with
  | [] => rfl
  | child :: rest =>
    refine .bind ?_ fun first s => .bind
      (hasIssue_transformChildrenWithStack parent (idx + 1) rest s) fun _ _ => rfl
    exact hasIssue_transformWithStack child _

end

end Issue

theorem depth_enterChild (p : Plan) (idx : Nat) (s : Stack) :
    (p.enterChild idx s).2.depth = (p.childScope idx).length + s.depth := by
  rw [Stack.depth, (p.enterChild_eq idx s).2.1, length_append, length_reverse, Stack.depth]

mutual

theorem transformWithStack_moves (I : Interpretation α) (rename : String → String) (p : Plan)
    {place : Nat} {visible visible' : List Symbol} {s : Stack} (hs : s.Sound)
    (hdepth : s.depth = place + 1) (hsyms : SymbolsMove src tgt place visible visible')
    (hp : p.Proper visible) : HasIssue .impossible
        (p.transformWithStack (rebaseNode src.columns tgt.columns rename) (s, none)) ∨
      ∃ res t, p.transformWithStack (rebaseNode src.columns tgt.columns rename) (s, none) =
          (.ok res, t, none) ∧ s.Same t ∧ (res.isSame = true → res.plan = p) ∧
        p.Follows I (ValuesMove src tgt rename place visible.length) visible' res.plan := by
  match p with
  | ⟨con, type, chars, pos, annots, children⟩ =>
    let p : Plan := ⟨con, type, chars, pos, annots, children⟩
    obtain ⟨hnode, hkids⟩ := hp
    rw [transformWithStack]
    obtain hissue | ⟨children', isSame, t, hall, hsame, hkept, hfollow⟩ :=
      transformChildrenWithStack_moves I rename p 0 children hs hdepth hsyms hkids
    · exact .inl (hissue.bind fun (children', isSame) s => hasIssue_finish _ children' isSame s)
    · have hrebuilt : (if isSame then p else p.replaceChildren children') =
          p.replaceChildren children' := by
        cases isSame with
        | true => rw [hkept rfl]; exact (hnode.typed.replaceChildren_self).symm
        | false => rfl
      have hdepth' : t.depth = place + 1 := by rw [← hdepth, Stack.depth, Stack.depth, hsame.symbols]
      rw [bind_apply, hall]
      simp only [finish]
      rw [bind_apply, rebuild_apply hfollow.length_eq, hrebuilt]
      simp only
      obtain himpossible | ⟨res, hstep, hkept', hfollows⟩ :=
        nodeMoves_rebaseNode hnode hsyms hfollow hdepth'
      · refine .inl ?_
        rw [bind_apply, withStack, himpossible]
        rfl
      · refine .inr ⟨⟨res.plan, isSame && res.isSame⟩, t, ?_, hsame, ?_, hfollows⟩
        · rw [bind_apply, withStack, hstep]
          rfl
        · intro h
          rw [Bool.and_eq_true] at h
          rw [hkept' h.2, ← hrebuilt, h.1]
          rfl

theorem transformChildrenWithStack_moves (I : Interpretation α) (rename : String → String)
    (parent : Plan) (idx : Nat) (children : List Plan) {place : Nat}
    {visible visible' : List Symbol} {s : Stack} (hs : s.Sound) (hdepth : s.depth = place + 1)
    (hsyms : SymbolsMove src tgt place visible visible')
    (hkids : ThroughoutFrom IsProper parent visible idx children) :
    HasIssue .impossible (transformChildrenWithStack
        (rebaseNode src.columns tgt.columns rename) parent idx children (s, none)) ∨
      ∃ children' isSame t, transformChildrenWithStack
          (rebaseNode src.columns tgt.columns rename) parent idx children (s, none) =
          (.ok (children', isSame), t, none) ∧ s.Same t ∧ (isSame = true → children' = children) ∧
        ChildrenMove I src tgt rename place visible visible' parent idx children
          children' := by
  match children with
  | [] => exact .inr ⟨[], true, s, rfl, .refl s, fun _ => rfl, .nil⟩
  | child :: rest =>
    obtain ⟨hkid, hrest⟩ := hkids
    rw [transformChildrenWithStack]
    have hdepth' : (parent.enterChild idx s).2.depth = (parent.childScope idx).length + place + 1 := by
      rw [depth_enterChild, hdepth, Nat.add_assoc]
    obtain hissue | ⟨res, inner, hfirst, hinner, hkept, hfollow⟩ :=
      transformWithStack_moves I rename child (sound_enterChild hs parent idx) hdepth'
        (hsyms.childView parent idx) hkid
    · exact .inl (.bind hissue fun first s => .bind
        (hasIssue_transformChildrenWithStack parent (idx + 1) rest s) fun _ _ => rfl)
    · have hleft := release_enterChild hinner
      have hdepth'' : (inner.release (parent.enterChild idx s).1).1.depth = place + 1 := by
        rw [← hdepth, Stack.depth, Stack.depth, hleft.symbols]
      have hentered : tryInChild parent idx (transformWithStack
          (rebaseNode src.columns tgt.columns rename) child) (s, none) =
          (.ok res, (inner.release (parent.enterChild idx s).1).1, none) := by
        unfold tryInChild
        simp only [hfirst]
      rw [bind_apply, hentered]
      simp only
      obtain hissue | ⟨rest', isSame, t, hall, hsame, hkept', hfollow'⟩ :=
        transformChildrenWithStack_moves I rename parent (idx + 1) rest (hleft.sound hs) hdepth''
          hsyms hrest
      · exact .inl (hissue.bind fun _ _ => rfl)
      · refine .inr ⟨res.plan :: rest', res.isSame && isSame, t, ?_, hleft.trans hsame, ?_,
          .cons hfollow hfollow'⟩
        · rw [bind_apply, hall, orChild_eq hkept]
          rfl
        · intro h
          rw [Bool.and_eq_true] at h
          rw [hkept h.1, hkept' h.2]

end

theorem symbolsMove_cons (src tgt : Heading) (visible : List Symbol) :
    SymbolsMove src tgt 0 (.ofRow src :: visible) (.ofRow tgt :: visible) := by
  refine ⟨fun i hi => ?_, fun _ => ⟨.ofRow src, .ofRow tgt, rfl, rfl, rfl, rfl⟩⟩
  cases i with
  | zero => exact absurd rfl hi
  | succ i => rfl

theorem valuesMove_cons {row' : Row α} (h : RowsMove src tgt rename row row') (bound : Nat)
    (env : List (Datum α)) : ValuesMove src tgt rename 0 bound (.row row :: env) (.row row' :: env) := by
  refine ⟨fun i hi => ?_, fun _ => ⟨.row row, .row row', rfl, rfl, row, row', rfl, rfl, h⟩⟩
  cases i with
  | zero => exact absurd rfl hi
  | succ i => rfl

theorem sound_rowStack (heading : Heading) : (rowStack heading).Sound :=
  fun _ h => nomatch h

/-- A condition moved to another row is well-formed there and means the same of rows that move to each
other, unless it cannot move. -/
theorem rebase_moves (I : Interpretation α) (tgt : Heading) (rename : String → String)
    (hp : p.Proper (.ofRow src :: visible)) : p.rebase src tgt rename = .error .impossible ∨
      ∃ q, p.rebase src tgt rename = .ok q ∧ q.Proper (.ofRow tgt :: visible) ∧
        ∀ row row' env, RowsMove src tgt rename row row' →
          q.denote I (.row row' :: env) = p.denote I (.row row :: env) := by
  unfold rebase
  obtain hissue | ⟨res, t, heq, -, -, hfollow⟩ := transformWithStack_moves I rename p
    (sound_rowStack src) rfl (symbolsMove_cons src tgt visible) hp
  · refine .inl ?_
    match transformWithStack (rebaseNode src.columns tgt.columns rename) p
      (rowStack src, none), hissue with
    | (.ok _, _, _), rfl => rfl
    | (.error _, _, _), rfl => rfl
  · refine .inr ⟨res.plan, by rw [heq], hfollow.proper, fun row row' env hrows => ?_⟩
    exact hfollow.denote_eq _ _ (valuesMove_cons hrows _ env)

/-! ### The columns in use -/

theorem noteUse_fst (p : Plan) (s : Stack) (uses : RowUses) : (noteUse p s uses).1 = true := by
  unfold noteUse
  cases p.construct with
  | stackColumnReference _ idx _ | stackReference _ idx =>
    dsimp only
    split <;> rfl
  | _ => rfl

theorem lt_of_mem_rowUses {heading : Heading} (hp : p.Proper (.ofRow heading :: visible)) :
    ∀ col ∈ (p.rowUses heading).columns, col < heading.columns.length := by
  refine inspectWithStack_keeps (f := noteUse)
    (K := fun p s => ∃ place visible, s.depth = place + 1 ∧
      SymbolsMove heading heading place visible visible ∧ p.Proper visible)
    (J := fun uses : RowUses => ∀ col ∈ uses.columns, col < heading.columns.length) noteUse_fst ?_ ?_
    (sound_rowStack heading) ⟨0, _, rfl, symbolsMove_cons heading heading visible, hp⟩ (by simp)
  · rintro p s uses ⟨place, visible, hdepth, hsyms, hp⟩ huses
    have hnode := (throughout_iff.mp hp).1
    obtain ⟨con, _, _, _, _, _⟩ := p
    cases con
    case stackColumnReference name idx col =>
      cases hrow : isRowReference idx s with
      | false =>
        simp only [noteUse, hrow]
        exact huses
      | true =>
        obtain rfl : idx = place := by simpa [isRowReference, hdepth] using hrow
        obtain ⟨_, -, hcol, -⟩ := hsyms.column rfl hnode.refers
        simp only [noteUse, hrow]
        refine forall_mem_append.mpr ⟨huses, forall_mem_singleton.mpr ?_⟩
        exact (List.getElem?_eq_some_iff.mp hcol).1
    case stackReference name idx =>
      cases hrow : isRowReference idx s with
      | false | true =>
        simp only [noteUse, hrow]
        exact huses
    all_goals exact huses
  · rintro p s t idx child ⟨place, visible, hdepth, hsyms, hp⟩ - hsame hidx
    refine ⟨_, _, ?_, hsyms.childView p idx, (throughout_iff.mp hp).2 idx child hidx⟩
    rw [depth_enterChild, Stack.depth, ← hsame.symbols, ← Stack.depth, hdepth, Nat.add_assoc]

end Plan

end Relational
