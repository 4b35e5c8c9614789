import Relational.Proofs.Plan.Scope

/-!
# The meaning of plans

A plan means a value that depends on the values of the symbols that it sees. Table variables are lists of
rows. The relational operators select, rebuild and combine rows in order; every other node applies some
function to its children, which are functions of the values of the symbols that they see on top of those
of the node.

A join goes through the rows of one side and looks for matches on the other. Rows without a match are
kept on the side that an outer join preserves, with nil in the columns of the other side. A join without
a condition is natural: the columns of the same name have to agree and are kept once, with the value of
the side that is preserved.
-/

namespace Relational

open List

/-- A value: nothing, a scalar, a row of values, or a table of rows. -/
inductive Datum (α : Type) where
  | nil
  | scalar (value : α)
  | row (values : List (Datum α))
  | table (rows : List (List (Datum α)))

/-- The values of a row in the order of its columns. -/
abbrev Row (α : Type) := List (Datum α)

variable {α β : Type} {p q new : Plan} {idx place : Nat}

namespace Row

variable {column : Nat} {row : Row α}

/-- The value in a column, nil if there is none. -/
def get (row : Row α) (column : Nat) : Datum α :=
  row.getD column .nil

/-- The row with a number of columns, nil where it has none. -/
def fit (row : Row α) (width : Nat) : Row α :=
  (List.range width).map row.get

/-- The value in the column of a name. -/
def named (row : Row α) (columns : Columns) (name : String) : Datum α :=
  ((columns.index? name).map row.get).getD .nil

theorem get_eq_of_getElem? {val : Datum α} (h : row[column]? = some val) : row.get column = val := by
  simp [get, getD, h]

theorem get_map_of_getElem? {items : List β} {f : β → Datum α} {item : β} (h : items[column]? = some item) :
    Row.get (items.map f) column = f item :=
  get_eq_of_getElem? (by simp [h])

theorem get_fit {width : Nat} (h : column < width) : (row.fit width).get column = row.get column :=
  get_map_of_getElem? (by simp [h])

theorem length_fit (row : Row α) (width : Nat) : (row.fit width).length = width := by
  simp [fit]

theorem get_append_of_lt {row' : Row α} (h : column < row.length) :
    Row.get (row ++ row') column = row.get column := by
  simp [get, getD, getElem?_append_left h]

theorem get_append_add (row row' : Row α) (column : Nat) :
    Row.get (row ++ row') (row.length + column) = row'.get column := by
  simp [get, getD, getElem?_append_right]

theorem named_eq {cols : Columns} {name : String} (h : cols.index? name = some place) :
    row.named cols name = row.get place := by
  simp [named, h]

end Row

namespace Datum

/-- The value in a column of a row. -/
def column : Datum α → Nat → Datum α
  | row values, index => Row.get values index
  | _, _ => nil

/-- A table with its rows changed; other values stay. -/
def overRows (change : List (Row α) → List (Row α)) : Datum α → Datum α
  | table rows => table (change rows)
  | value => value

/-- The rows of a table for which a condition holds. -/
def restrict (f : Row α → Bool) (value : Datum α) : Datum α :=
  value.overRows (·.filter f)

end Datum

/-! ### Joins -/

/-- Rows, or one row in place of none. -/
def orUnmatched (unmatched : Row α) (rows : List (Row α)) : List (Row α) :=
  if rows.isEmpty then [unmatched] else rows

/-- The rows of a join from the rows of its sides. -/
def joinRows (kind : JoinKind) (isMatch : Row α → Row α → Bool) (combine : Row α → Row α → Row α)
    (left right : List (Row α)) : List (Row α) :=
  match kind with
  | .left => left.flatMap fun l =>
      orUnmatched (combine l []) ((right.filter (isMatch l)).map (combine l))
  | .right => right.flatMap fun r =>
      orUnmatched (combine [] r) ((left.filter (isMatch · r)).map (combine · r))
  | .inner | .other => left.flatMap fun l => (right.filter (isMatch l)).map (combine l)

/-- The join of two tables. -/
def Datum.join (kind : JoinKind) (isMatch : Row α → Row α → Bool)
    (combine : Row α → Row α → Row α) : Datum α → Datum α → Datum α
  | table left, table right => table (joinRows kind isMatch combine left right)
  | _, _ => nil

/-- The columns of a natural join: those of the left side, and those of the right side that the left
side does not have. -/
def sharedOnce (left right : Columns) : Columns :=
  left ++ right.filter fun column => !left.has column.1

/-- The value of a natural join in the column of a name: that of the side which has the column, of the
side that is preserved if both have it. -/
def sharedValue (kind : JoinKind) (left right : Columns) (l r : Row α) (name : String) : Datum α :=
  if left.has name && !(kind == .right && right.has name) then l.named left name
  else r.named right name

/-- The row of a natural join from the rows of its sides. -/
def naturalRow (kind : JoinKind) (left right : Columns) (l r : Row α) : Row α :=
  (sharedOnce left right).map fun column => sharedValue kind left right l r column.1

/-- The row of a join with a condition from the rows of its sides. -/
def pairedRow (left right : Columns) (l r : Row α) : Row α :=
  l.fit left.length ++ r.fit right.length

/-! ### Interpretations -/

/-- A value that depends on the values of the symbols that are brought into scope, innermost first. -/
abbrev Dependent (α : Type) := List (Datum α) → Datum α

/-- What plans are about: the rows of the table variables, which conditions hold, which values agree in a
natural join, and the functions that all other nodes apply. The literal truth holds, and values of
columns with equal types agree only if they are the same. -/
structure Interpretation (α : Type) where
  tables : TableVar → List (Row α)
  holds : Datum α → Bool
  agree : Ty → Ty → Datum α → Datum α → Bool
  node : Construct → Option Ty → List (Dependent α) → Datum α
  holds_literal : ∀ type children, holds (node (.literal (.boolean true)) type children) = true
  eq_of_agree : ∀ left right l r, right.equals left = true → agree left right l r = true → l = r

namespace Interpretation

variable (I : Interpretation α)

/-- Whether the shared columns of two rows agree. -/
def sharedAgree (left right : Columns) (l r : Row α) : Bool :=
  left.all fun (name, type) =>
    match right.type? name with
    | some type' => I.agree type type' (l.named left name) (r.named right name)
    | none => true

/-- The meaning of a node from the columns and the meanings of its children. -/
def meaning (construct : Construct) (type : Option Ty) (columns : List Columns)
    (children : List (Dependent α)) : Datum α :=
  match construct, columns, children with
  | .tableVarReference tv, _, _ => .table (I.tables tv)
  | .restrict _, _, [source, condition] =>
    (source []).restrict fun row => I.holds (condition [.row row])
  | .project _ names, [columns], [source] =>
    (source []).overRows (·.map fun row : Row α => names.map (row.named columns))
  | .rename _ _, _, [source] => source []
  | .extend _ _, columns :: _, source :: values =>
    (source []).overRows (·.map fun row : Row α =>
      row.fit columns.length ++ values.map fun value => value [.row row])
  | .join _ kind, [left, right], [leftSide, rightSide] =>
    .join kind (I.sharedAgree left right) (naturalRow kind left right) (leftSide []) (rightSide [])
  | .join _ kind, [left, right, _], [leftSide, rightSide, condition] =>
    .join kind (fun l r => I.holds (condition [.row r, .row l])) (pairedRow left right)
      (leftSide []) (rightSide [])
  | construct, _, children => I.node construct type children

end Interpretation

/-! ### Plans -/

/-- The columns of the rows of a relational value; a list of rows is one, too. -/
def rowColumns (type : Option Ty) : Columns :=
  match type with
  | some (.rows _ columns) | some (.list (.rows .row columns)) => columns
  | _ => []

/-- Whether a construct refers to a symbol. -/
def Construct.isReference : Construct → Bool
  | stackReference .. | stackColumnReference .. => true
  | _ => false

namespace Plan

variable {env env' : List (Datum α)} (I : Interpretation α) {children : List Plan}

/-- The columns of the rows that a plan yields. -/
def columns (p : Plan) : Columns :=
  rowColumns p.type

theorem columns_of_heading? {heading : Heading} (h : p.heading? = some heading) :
    p.columns = heading.columns := by
  unfold heading? at h
  unfold columns
  cases htype : p.type with
  | none => simp [htype] at h
  | some type =>
    rw [htype, Option.bind_some] at h
    cases type with
    | rows form columns =>
      obtain rfl : some columns = heading := Option.some.inj h
      rfl
    | anyRows form =>
      obtain rfl : none = heading := Option.some.inj h
      rfl
    | scalar _ | list _ | anyList | any => cases h

/-- The values of the symbols that a child sees, from those brought into its scope and those that its
parent sees. -/
def childValues (p : Plan) (index : Nat) (values env : List (Datum α)) : List (Datum α) :=
  Row.fit values (p.childScope index).length ++ if p.isWindowed then [] else env

mutual

/-- The meaning of a plan under the values of the symbols that it sees, innermost first. -/
def denote (I : Interpretation α) : Plan → Dependent α
  | ⟨construct, type, characteristics, position, annotations, children⟩, env =>
    match construct with
    | .stackReference _ index => env.getD index .nil
    | .stackColumnReference _ index column => (env.getD index .nil).column column
    | construct =>
      I.meaning construct type (children.map columns)
        (denoteFrom I ⟨construct, type, characteristics, position, annotations, children⟩ env 0
          children)

/-- The meanings of the children of a node from an index on. -/
def denoteFrom (I : Interpretation α) (parent : Plan) (env : List (Datum α)) :
    Nat → List Plan → List (Dependent α)
  | _, [] => []
  | index, child :: rest =>
    (fun values => denote I child (parent.childValues index values env)) ::
      denoteFrom I parent env (index + 1) rest

end

theorem denote_eq_meaning (h : p.construct.isReference = false) (env : List (Datum α)) : p.denote I env =
      I.meaning p.construct p.type (p.children.map columns) (denoteFrom I p env 0 p.children) := by
  obtain ⟨con, _, _, _, _, _⟩ := p
  cases con
  case stackReference | stackColumnReference => cases h
  all_goals rw [denote]; all_goals simp

/-! ### Nodes over other children -/

/-- Plans of the same type that bring the same symbol into scope. -/
structure Alike (p q : Plan) : Prop where
  type : q.type = p.type
  declared : q.declaredSymbol? = p.declaredSymbol?

/-- A relation between the children of two nodes one by one, from an index on. -/
inductive Childwise (R : Nat → Plan → Plan → Prop) : Nat → List Plan → List Plan → Prop
  | nil {index : Nat} : Childwise R index [] []
  | cons {index child child' rest rest'} :
      R index child child' → Childwise R (index + 1) rest rest' →
      Childwise R index (child :: rest) (child' :: rest')

namespace Childwise

variable {R R' : Nat → Plan → Plan → Prop} {children' : List Plan}

section

variable (h : Childwise R idx children children')

include h

theorem imp (himp : ∀ i child child', R i child child' → R' i child child') :
    Childwise R' idx children children' := by
  induction h with
  | nil => exact .nil
  | cons hfirst _ ih => exact .cons (himp _ _ _ hfirst) ih

theorem map_eq {f : Plan → β} (hf : ∀ i child child', R i child child' → f child' = f child) :
    children'.map f = children.map f := by
  induction h with
  | nil => rfl
  | cons hfirst _ ih => rw [map_cons, map_cons, hf _ _ _ hfirst, ih]

theorem length_eq : children'.length = children.length := by
  induction h with
  | nil => rfl
  | cons _ _ ih => rw [length_cons, length_cons, ih]

end

theorem forall₂ {R : Plan → Plan → Prop} (h : Childwise (fun _ => R) idx children children') :
    List.Forall₂ R children children' := by
  induction h with
  | nil => exact .nil
  | cons hfirst _ ih => exact .cons hfirst ih

variable (h : ∀ i child, children[i]? = some child → R (idx + i) child child)

include h

theorem refl : Childwise R idx children children := by
  induction children generalizing idx with
  | nil => exact .nil
  | cons first rest ih =>
    refine .cons (h 0 first rfl) (ih fun i child hi => ?_)
    rw [Nat.add_right_comm]
    exact h (i + 1) child hi

theorem set (hnew : ∀ child, children[place]? = some child → R (idx + place) child new) :
    Childwise R idx children (children.set place new) := by
  induction children generalizing idx place with
  | nil => exact .nil
  | cons first rest ih =>
    have hrest : ∀ i child, rest[i]? = some child → R (idx + 1 + i) child child := by
      intro i child hi
      rw [Nat.add_right_comm]
      exact h (i + 1) child hi
    cases place with
    | zero => exact .cons (hnew first rfl) (.refl hrest)
    | succ place =>
      refine .cons (h 0 first rfl) (ih hrest fun child hkid => ?_)
      rw [Nat.add_right_comm]
      exact hnew child hkid

end Childwise

theorem rowSymbols_congr (h : q.type = p.type) : q.rowSymbols = p.rowSymbols := by
  rw [rowSymbols, rowSymbols, heading?, heading?, h]

section

variable (hcon : q.construct = p.construct)

include hcon

theorem childScope_congr (hkids : Childwise (fun _ => Alike) 0 p.children q.children) (idx : Nat) :
    q.childScope idx = p.childScope idx := by
  cases p
  obtain ⟨con', type', chars', pos', annots', children'⟩ := q
  subst hcon
  cases con' with
  | block =>
    have hdecl := hkids.map_eq (f := declaredSymbol?) fun _ _ _ h => h.declared
    have htake := congrArg (fun syms => (syms.take idx).filterMap id) hdecl
    simpa only [childScope, ← map_take, filterMap_map, Function.id_comp] using htake
  | restrict _ | extend _ _ =>
    cases hkids with
    | nil => rfl
    | cons hsrc _ =>
      rcases idx with _ | _ | index
      all_goals simp only [childScope, rowSymbols_congr hsrc.type]
  | join _ _ =>
    rcases hkids with _ | ⟨hleft, _ | ⟨hright, _⟩⟩
    · rfl
    · rfl
    · rcases idx with _ | _ | _ | index
      all_goals simp only [childScope, rowSymbols_congr hleft.type, rowSymbols_congr hright.type]
  | forEach _ _ | tryHandler _ _ =>
    rcases idx with _ | _ | index
    all_goals simp only [childScope]
  | _ => rfl

theorem isWindowed_congr : q.isWindowed = p.isWindowed := by
  rw [isWindowed, isWindowed, hcon]

variable (hkids : Childwise (fun _ => Alike) 0 p.children q.children)

include hkids

theorem childView_congr (idx : Nat) (visible : List Symbol) :
    q.childView idx visible = p.childView idx visible := by
  rw [childView, childView, childScope_congr hcon hkids, isWindowed_congr hcon]

theorem childValues_congr (idx : Nat) (vals env : List (Datum α)) :
    q.childValues idx vals env = p.childValues idx vals env := by
  rw [childValues, childValues, childScope_congr hcon hkids, isWindowed_congr hcon]

end

theorem childValues_of_childScope (hscope : p.childScope idx = []) (hwindowed : p.isWindowed = false)
    (vals env : List (Datum α)) : p.childValues idx vals env = env := by
  rw [childValues, hscope, hwindowed]
  rfl

theorem childView_of_childScope (hscope : p.childScope idx = []) (hwindowed : p.isWindowed = false)
    (visible : List Symbol) : p.childView idx visible = visible := by
  rw [childView, hscope, hwindowed]
  rfl

theorem denoteFrom_congr {children' : List Plan}
    (h : Childwise (fun i child child' => ∀ vals,
      child'.denote I (q.childValues i vals env') = child.denote I (p.childValues i vals env))
      idx children children') :
    denoteFrom I q env' idx children' = denoteFrom I p env idx children := by
  induction h with
  | nil => rfl
  | cons hfirst _ ih => rw [denoteFrom, denoteFrom, ih, funext hfirst]

theorem denoteFrom_set {I : Interpretation α} {start : Nat} {change : Datum α → Datum α}
    (h : ∀ child vals, children[idx]? = some child → new.denote I (p.childValues (start + idx) vals env) =
      change (child.denote I (p.childValues (start + idx) vals env))) :
    denoteFrom I p env start (children.set idx new) =
      (denoteFrom I p env start children).modify idx fun d vals => change (d vals) := by
  induction children generalizing start idx with
  | nil => cases idx <;> rfl
  | cons first rest ih =>
    cases idx with
    | zero =>
      exact congrArg (· :: _) (funext fun vals => h first vals rfl)
    | succ idx =>
      simp only [set_cons_succ, denoteFrom, modify_succ_cons]
      rw [ih]
      intro child vals hkid
      have heq := h child vals (by simpa using hkid)
      rwa [← Nat.add_assoc, Nat.add_right_comm] at heq

/-- The meaning of a node that refers to no symbol depends on its construct, its type and the types and
meanings of its children only. -/
theorem denote_congr (href : p.construct.isReference = false) (hcon : q.construct = p.construct)
    (htype : q.type = p.type) (hkids : Childwise (fun _ => Alike) 0 p.children q.children)
    (hdenote : Childwise (fun i child child' => ∀ values,
      child'.denote I (p.childValues i values env') = child.denote I (p.childValues i values env))
      0 p.children q.children) :
    q.denote I env' = p.denote I env := by
  have hcols : q.children.map columns = p.children.map columns :=
    hkids.map_eq fun _ _ _ h => congrArg rowColumns h.type
  have hvals : denoteFrom I q env' 0 q.children = denoteFrom I p env 0 p.children := by
    refine denoteFrom_congr I (hdenote.imp fun i child child' h values => ?_)
    rw [childValues_congr hcon hkids]
    exact h values
  rw [denote_eq_meaning I href, denote_eq_meaning I (hcon ▸ href), hcon, htype, hcols, hvals]

end Plan

end Relational
