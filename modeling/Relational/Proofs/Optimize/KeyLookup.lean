import Relational.Optimize.Access
import Relational.Proofs.Optimize.Congruence
import Relational.Proofs.Optimize.Normalization

/-!
# Key lookups

A restriction of a table variable is read by key lookup if its condition compares all columns of a key
with values that do not depend on the row. If a comparison only holds between equal values, rows for which
the condition holds have equal values in those columns, so that there is one such row at most.

A column is found through the conversions around it. What is compared then are converted values, and a
conversion may take different values of the column to the same value. The rows of the table have to be
told apart after the conversions.
-/

namespace Relational

open List

variable {α : Type} {place : Nat} {name : String} {heading : Heading}

/-! ### Plans that do not depend on a row -/

/-- No reference to the row at all. -/
def RowUses.IsEmpty (uses : RowUses) : Prop :=
  uses.columns = [] ∧ uses.isWhole = false

namespace Plan

variable {I : Interpretation α} {p : Plan} {uses : RowUses}

/-- A plan that does not depend on the value of the symbol in a place. -/
def IgnoresAt (I : Interpretation α) (place : Nat) (p : Plan) : Prop :=
  ∀ env env' : List (Datum α), (∀ i, i ≠ place → env[i]? = env'[i]?) →
    p.denote I env' = p.denote I env

theorem noteUse_spec {s : Stack} (hdepth : s.depth = place + 1) (h : (noteUse p s uses).2.IsEmpty) :
    uses.IsEmpty ∧ ¬ p.RefersAt place := by
  have hrow : isRowReference place s = true := by simp [isRowReference, hdepth]
  unfold noteUse at h
  unfold RefersAt
  cases hcon : p.construct with
  | stackColumnReference _ idx col =>
    simp only [hcon] at h
    split at h
    · exact absurd h.1 (append_ne_nil_of_right_ne_nil _ (cons_ne_nil col []))
    · rename_i hother
      exact ⟨h, fun hidx => hother (hidx ▸ hrow)⟩
  | stackReference _ idx =>
    simp only [hcon] at h
    split at h
    · cases (show true = false from h.2)
    · rename_i hother
      exact ⟨h, fun hidx => hother (hidx ▸ hrow)⟩
  | _ =>
    rw [hcon] at h
    exact ⟨h, id⟩

/-- A node that is no reference to a place does not depend on the value there if its children do
not. -/
theorem ignoresAt_of_children (hrefers : ¬ p.RefersAt place)
    (hkids : ∀ (i : Nat) (child : Plan), p.children[i]? = some child →
      child.IgnoresAt I ((p.childScope i).length + place)) : p.IgnoresAt I place := by
  intro env env' henv
  have hval : ∀ idx, idx ≠ place → env'.getD idx .nil = env.getD idx .nil := by
    intro idx hidx
    rw [getD_eq_getElem?_getD, getD_eq_getElem?_getD, henv idx hidx]
  obtain ⟨con, type, chars, pos, annots, children⟩ := p
  cases href : con.isReference with
  | true =>
    cases con with
    | stackReference name idx =>
      exact hval idx hrefers
    | stackColumnReference name idx col =>
      exact congrArg (·.column col) (hval idx hrefers)
    | _ => cases href
  | false =>
    rw [denote_eq_meaning I href, denote_eq_meaning I href]
    congr 1
    refine denoteFrom_congr I (.refl fun i child hi vals => ?_)
    rw [Nat.zero_add]
    refine hkids i child hi _ _ ?_
    have hdiffer : DifferAt (fun _ _ => True) place 0 env env' := ⟨henv, by simp⟩
    have hscope := hdiffer.scope (isWindowed ⟨con, type, chars, pos, annots,
      children⟩) (Row.fit vals (childScope ⟨con, type, chars, pos, annots,
      children⟩ i).length)
    rw [Row.length_fit] at hscope
    exact hscope.others

/-- An inspection that notes nothing below a row finds plans that do not depend on it. -/
theorem findsNone_of_chain {children : List Plan} {idx : Nat} {s : Stack} {uses' : RowUses}
    (h : Chain (fun p s uses uses' => ∀ place, s.depth = place + 1 → uses'.IsEmpty →
      uses.IsEmpty ∧ p.IgnoresAt I place) p idx children s uses uses') (hdepth : s.depth = place + 1)
    (hempty : uses'.IsEmpty) :
    uses.IsEmpty ∧ ∀ (i : Nat) (child : Plan), children[i]? = some child →
      child.IgnoresAt I ((p.childScope (idx + i)).length + place) := by
  induction h with
  | nil => exact ⟨hempty, by simp⟩
  | @cons idx child rest s t _ _ _ _ hkid hsame _ ih =>
    obtain ⟨hempty, hrest⟩ := ih (by rw [← hdepth, Stack.depth, Stack.depth, hsame.symbols]) hempty
    obtain ⟨hempty, hfirst⟩ := hkid _ (by rw [depth_enterChild, hdepth, Nat.add_assoc]) hempty
    refine ⟨hempty, fun i other hi => ?_⟩
    cases i with
    | zero =>
      obtain rfl : child = other := by simpa using hi
      exact hfirst
    | succ i =>
      have hother := hrest i other (by simpa using hi)
      rwa [Nat.add_assoc, Nat.add_comm 1] at hother

theorem ignoresAt_of_rowUses (h : (p.rowUses heading).IsEmpty) : p.IgnoresAt I 0 := by
  obtain ⟨t, uses', hrun, -, hnone⟩ := inspectWithStack_of_chain (f := noteUse)
    (D := fun p s uses uses' => ∀ place, s.depth = place + 1 → uses'.IsEmpty →
      uses.IsEmpty ∧ p.IgnoresAt I place) noteUse_fst (fun p s uses uses' _ hchain place hdepth hempty => by
        obtain ⟨hempty, hkids⟩ := findsNone_of_chain hchain hdepth hempty
        obtain ⟨hempty, hrefers⟩ := noteUse_spec hdepth hempty
        refine ⟨hempty, ignoresAt_of_children hrefers fun i child hi => ?_⟩
        have hkid := hkids i child hi
        rwa [Nat.zero_add] at hkid) p (sound_rowStack heading) {}
  rw [rowUses, hrun] at h
  exact (hnone 0 rfl h).2

end Plan

/-! ### Conditions -/

namespace Interpretation

/-- A comparison for equality holds between equal values only. -/
def ComparesEqual (I : Interpretation α) : Prop :=
  ∀ (op : Operator) (type : Option Ty) (left right : Dependent α), Name.unqualified op.name = "iEqual" →
    I.holds (I.node (.call op) type [left, right]) = true → left [] = right []

/-- A conjunction holds only if all its arguments do. -/
def ConjoinsAll (I : Interpretation α) : Prop :=
  ∀ (op : Operator) (type : Option Ty) (arguments : List (Dependent α)),
    Name.unqualified op.name = "iAnd" → I.holds (I.node (.call op) type arguments) = true →
    ∀ argument ∈ arguments, I.holds (argument []) = true

end Interpretation

namespace Plan

variable {I : Interpretation α} {p : Plan} {env : List (Datum α)} {rows : List (Row α)}

theorem exists_call_of_isCallOf {con : Construct} (h : isCallOf con name = true) :
    ∃ op, con = .call op ∧ Name.unqualified op.name = name := by
  cases con with
  | call op => exact ⟨op, rfl, by simpa [isCallOf] using h⟩
  | _ => cases h

theorem denoteFrom_plain (hscope : ∀ idx, p.childScope idx = []) (hwindow : p.isWindowed = false)
    (env : List (Datum α)) (idx : Nat) (children : List Plan) :
    denoteFrom I p env idx children = children.map fun child _ => child.denote I env := by
  induction children generalizing idx with
  | nil => rfl
  | cons child rest ih =>
    simp only [denoteFrom, childValues_of_childScope (hscope idx) hwindow, ih, map_cons]

theorem denote_applied (h : (∃ op, p.construct = .call op) ∨ ∃ conv, p.construct = .convert conv)
    (env : List (Datum α)) : p.denote I env =
      I.node p.construct p.type (p.children.map fun child _ => child.denote I env) := by
  obtain ⟨op, hcon⟩ | ⟨conv, hcon⟩ := h
  all_goals
    have hscope : ∀ idx, p.childScope idx = [] := fun idx => by simp [childScope, hcon]
    have hwindow : p.isWindowed = false := by simp [isWindowed, hcon]
    rw [denote_eq_meaning I (by rw [hcon]; rfl), denoteFrom_plain hscope hwindow, hcon]
    rfl

theorem conjunctsAll_eq (ps : List Plan) : conjunctsAll ps = ps.flatMap conjuncts := by
  induction ps with
  | nil => rfl
  | cons p ps ih => rw [conjunctsAll, ih, flatMap_cons]

theorem holds_of_mem_conjuncts (hconjoins : I.ConjoinsAll) (h : I.holds (p.denote I env) = true) :
    ∀ part ∈ p.conjuncts, I.holds (part.denote I env) = true := by
  induction p using childInduction with
  | step p ih =>
    intro part hpart
    cases hand : isCallOf p.construct "iAnd" with
    | false =>
      obtain ⟨con, type, chars, pos, annots, children⟩ := p
      obtain rfl : part = _ := by simpa [conjuncts, hand] using hpart
      exact h
    | true =>
      obtain ⟨op, hcon, hname⟩ := exists_call_of_isCallOf hand
      rw [denote_applied (.inl ⟨op, hcon⟩), hcon] at h
      have hkids : ∀ child ∈ p.children, I.holds (child.denote I env) = true := by
        intro child hkid
        exact hconjoins op p.type _ hname h _ (mem_map_of_mem hkid)
      cases p
      rw [conjuncts, if_pos hand, conjunctsAll_eq] at hpart
      obtain ⟨child, hkid, hpart⟩ := mem_flatMap.mp hpart
      exact ih child hkid (hkids child hkid) part hpart

/-! ### The columns that a condition fixes -/

/-- A side of a comparison that is equal for two rows of a table only if the column that it reads is:
what is around the column tells its values apart. -/
def TellsApart (I : Interpretation α) (rows : List (Row α)) (env : List (Datum α)) (side : Plan) :
    Prop :=
  ∀ column, side.rowColumn? = some column → ∀ r ∈ rows, ∀ r' ∈ rows,
    side.denote I (.row r :: env) = side.denote I (.row r' :: env) → r.get column = r'.get column

theorem tellsApart_of_rowColumn? (h : p.rowColumn? = none) : p.TellsApart I rows env := by
  intro col hcol
  rw [h] at hcol
  cases hcol

theorem tellsApart_columnReference {col : Nat}
    (hcon : p.construct = .stackColumnReference name 0 col) : p.TellsApart I rows env := by
  intro col' hcol r _ r' _ hsame
  obtain rfl : col = col' := by
    cases p
    subst hcon
    simpa [rowColumn?, unconverted] using hcol
  rwa [denote_columnReference hcon rfl, denote_columnReference hcon rfl] at hsame

/-- A conversion that takes different values to different ones tells apart what its operand does. -/
theorem tellsApart_convert {conv : Conversion} {operand : Plan}
    (hcon : p.construct = .convert conv) (hkids : p.children = [operand])
    (hinjective : ∀ f g, I.node (.convert conv) p.type [f] = I.node (.convert conv) p.type [g] →
      f [] = g []) (h : operand.TellsApart I rows env) : p.TellsApart I rows env := by
  intro col hcol r hr r' hr' hsame
  rw [denote_applied (.inr ⟨conv, hcon⟩), denote_applied (.inr ⟨conv, hcon⟩), hcon, hkids] at hsame
  refine h col ?_ r hr r' hr' (hinjective _ _ hsame)
  cases p
  subst hcon hkids
  simpa [rowColumn?, unconverted, unconvertedHead] using hcol

end Plan

/-- A side of a comparison that is a column of the row, by name, compared with a plan that does not
refer to the row. -/
def Fixes (heading : Heading) (side other : Plan) (name : String) : Prop :=
  ∃ place type, side.rowColumn? = some place ∧ heading.columns[place]? = some (name, type) ∧
    (other.rowUses heading).IsEmpty

/-- A comparison of which one side fixes a column. -/
def IsFixing (heading : Heading) (part : Plan) (name : String) : Prop :=
  Plan.isCallOf part.construct "iEqual" = true ∧ ∃ left right, part.children = [left, right] ∧
    (Fixes heading left right name ∨ Fixes heading right left name)

theorem referencesRow_yields (p : Plan) (heading : Heading) :
    Yields (referencesRow p heading) fun isReference =>
      isReference = false → (p.rowUses heading).IsEmpty := by
  unfold referencesRow
  dsimp only
  split
  · refine .pure fun hnone => ?_
    simp only [Bool.or_eq_false_iff, Bool.not_eq_false', List.isEmpty_iff] at hnone
    exact hnone.symm
  · exact .throw

theorem fixedColumn?_yields (heading : Heading) (side other : Plan) :
    Yields (fixedColumn? heading side other) fun name? =>
      ∀ name, name? = some name → Fixes heading side other name := by
  unfold fixedColumn?
  cases hside : side.rowColumn? with
  | none => exact .pure (by simp)
  | some place =>
    refine (referencesRow_yields other heading).bind fun isReference hnone => ?_
    cases isReference with
    | true => exact .pure (by simp)
    | false =>
      simp only [Bool.false_eq_true, if_false]
      split
      · exact .pure (by simp)
      split
      · rename_i name type hcol
        refine .pure fun name' hname => ?_
        obtain rfl : name = name' := Option.some.inj hname
        exact ⟨place, type, hside, hcol, hnone rfl⟩
      · exact .throw

theorem equalityColumn?_yields (heading : Heading) (part : Plan) :
    Yields (equalityColumn? heading part) fun name? =>
      ∀ name, name? = some name → IsFixing heading part name := by
  unfold equalityColumn?
  split
  · rename_i hequal
    split
    · rename_i left right hkids
      refine (fixedColumn?_yields heading left right).bind fun name? hleft => ?_
      cases name? with
      | some name =>
        refine .pure fun name' hname => ?_
        exact ⟨hequal, left, right, hkids, .inl (hleft name' hname)⟩
      | none =>
        refine (fixedColumn?_yields heading right left).imp fun name? hright name hname => ?_
        exact ⟨hequal, left, right, hkids, .inr (hright name hname)⟩
    · exact .pure (by simp)
  · exact .pure (by simp)

theorem foldlM_equalityColumn?_yields (heading : Heading) (parts : List Plan) (names : List String) :
    Yields (parts.foldlM (fun names part => do
        return names ++ (← equalityColumn? heading part).toList) names : Passing (List String))
      fun names' => ∀ name ∈ names', name ∈ names ∨ ∃ part ∈ parts, IsFixing heading part name := by
  induction parts generalizing names with
  | nil => exact .pure fun name hname => .inl hname
  | cons part rest ih =>
    refine .bind (P := fun names' => ∀ name ∈ names', name ∈ names ∨ IsFixing heading part name)
      ?_ fun names' hnames' => (ih names').imp fun names'' hnames'' name hname => ?_
    · refine (equalityColumn?_yields heading part).bind fun name? hfixing => .pure fun name hname => ?_
      obtain hname | hname := mem_append.mp hname
      · exact .inl hname
      · exact .inr (hfixing name (Option.mem_toList.mp hname))
    · obtain hname | ⟨part', hpart, hfixing⟩ := hnames'' name hname
      · exact (hnames' name hname).imp_right fun hfixing => ⟨part, by simp, hfixing⟩
      · exact .inr ⟨part', by simp [hpart], hfixing⟩

theorem equalityColumns_yields (cond : Plan) (heading : Heading) :
    Yields (equalityColumns cond heading) fun names =>
      ∀ name ∈ names, ∃ part ∈ cond.conjuncts, IsFixing heading part name :=
  (foldlM_equalityColumn?_yields heading cond.conjuncts []).imp fun names h name hname =>
    (h name hname).resolve_left (by simp)

/-! ### Rows that are found by a key -/

theorem Columns.index?_eq {cols : Columns} (hunique : cols.names.Nodup) {type : Ty}
    (h : cols[place]? = some (name, type)) : cols.index? name = some place := by
  obtain ⟨hplace, hget⟩ := List.getElem?_eq_some_iff.mp h
  refine findIdx?_eq_some_iff_getElem.mpr ⟨hplace, by simp [hget], fun j hj hsame => ?_⟩
  have hname : cols.names[j]? = some name := by
    simpa [names, getElem?_eq_getElem (Nat.lt_trans hj hplace)] using hsame
  exact Nat.ne_of_lt hj (place_eq hunique hname (names_getElem? h))

/-- Rows with the same values in the columns of some names. -/
def Row.AgreesOn (columns : Columns) (names : List String) (r r' : Row α) : Prop :=
  ∀ name ∈ names, r.named columns name = r'.named columns name

section Restriction

variable {I : Interpretation α} {env : List (Datum α)} {rows : List (Row α)} {r r' : Row α}
  (hunique : heading.columns.names.Nodup) (hr : r ∈ rows) (hr' : r' ∈ rows)

include hunique hr hr'

/-- Rows for which a column equals a plan that does not refer to the row have the same value there. -/
theorem Fixes.named_eq {side other : Plan} (h : Fixes heading side other name)
    (hapart : side.TellsApart I rows env)
    (hequal : side.denote I (.row r :: env) = other.denote I (.row r :: env))
    (hequal' : side.denote I (.row r' :: env) = other.denote I (.row r' :: env)) :
    r.named heading.columns name = r'.named heading.columns name := by
  obtain ⟨place, type, hplace, hcol, hempty⟩ := h
  have hother : other.denote I (.row r :: env) = other.denote I (.row r' :: env) := by
    refine Plan.ignoresAt_of_rowUses hempty _ _ fun i hi => ?_
    cases i with
    | zero => exact absurd rfl hi
    | succ i => rfl
  have hidx := Columns.index?_eq hunique hcol
  rw [Row.named_eq hidx, Row.named_eq hidx]
  refine hapart place hplace r hr r' hr' ?_
  rw [hequal, hother, hequal']

theorem IsFixing.named_eq (hcompares : I.ComparesEqual) {part : Plan} (h : IsFixing heading part name)
    (hapart : ∀ side ∈ part.children, side.TellsApart I rows env)
    (hholds : I.holds (part.denote I (.row r :: env)) = true)
    (hholds' : I.holds (part.denote I (.row r' :: env)) = true) :
    r.named heading.columns name = r'.named heading.columns name := by
  obtain ⟨hcall, left, right, hkids, hfixes⟩ := h
  obtain ⟨op, hcon, hname⟩ := Plan.exists_call_of_isCallOf hcall
  have hsides : ∀ env, I.holds (part.denote I env) = true → left.denote I env = right.denote I env := by
    intro env hholds
    rw [Plan.denote_applied (.inl ⟨op, hcon⟩), hcon, hkids] at hholds
    exact hcompares op part.type _ _ hname hholds
  obtain hfixes | hfixes := hfixes
  · exact hfixes.named_eq hunique hr hr' (hapart left (by simp [hkids])) (hsides _ hholds)
      (hsides _ hholds')
  · exact hfixes.named_eq hunique hr hr' (hapart right (by simp [hkids])) (hsides _ hholds).symm
      (hsides _ hholds').symm

end Restriction

/-- A key of a table variable all of whose columns are fixed by parts of a condition. -/
structure FixesKey (tv : TableVar) (heading : Heading) (condition : Plan) (key : List String) : Prop where
  mem : key ∈ tv.keys
  fixed : ∀ name ∈ key, ∃ part ∈ condition.conjuncts, IsFixing heading part name

theorem key?_spec {tv : TableVar} {cols key : List String} (h : tv.key? cols = some key) :
    key ∈ tv.keys ∧ key ≠ [] ∧ ∀ name ∈ key, name ∈ cols := by
  have hcovered := find?_some h
  simp only [Bool.and_eq_true, all_eq_true, contains_iff_mem, Bool.not_eq_true',
    isEmpty_eq_false_iff] at hcovered
  exact ⟨mem_of_find?_eq_some h, hcovered.2, hcovered.1⟩

section Lookup

variable {p src cond : Plan} {op : Operator} {tv : TableVar}
  (h : p.IsRestriction op src cond) (htable : src.construct = .tableVarReference tv)

include h htable

theorem accessPath_yields : Yields (accessPath p) fun path => path = .keyLookup →
    ∃ heading key, src.heading? = some heading ∧ FixesKey tv heading cond key := by
  unfold accessPath
  simp only [h.construct, h.children, Plan.tableVar?, htable]
  cases hhead : src.heading? with
  | none =>
    refine Yields.pure fun hpath => ?_
    cases hkey : tv.key? [] with
    | none => simp [hkey] at hpath
    | some key =>
      obtain ⟨-, hnonempty, hcovered⟩ := key?_spec hkey
      exact absurd (eq_nil_iff_forall_not_mem.mpr fun name hname => by
        simpa using hcovered name hname) hnonempty
  | some heading =>
    refine (equalityColumns_yields cond heading).bind fun cols hfixed => Yields.pure fun hpath => ?_
    cases hkey : tv.key? cols with
    | none => simp [hkey] at hpath
    | some key =>
      obtain ⟨hmem, -, hcovered⟩ := key?_spec hkey
      exact ⟨heading, key, rfl, hmem, fun name hname => hfixed name (hcovered name hname)⟩

variable {I : Interpretation α} {env : List (Datum α)}

theorem denote_restrict_tableVar (hhead : src.heading? = some heading) :
    p.denote I env = .table ((I.tables tv).filter fun row =>
      I.holds (cond.denote I (.row row :: env))) := by
  have hsrc : src.denote I env = .table (I.tables tv) := by
    rw [Plan.denote_eq_meaning I (by rw [htable]; rfl), htable, Interpretation.meaning]
  rw [h.denote_eq, hsrc]
  simp only [h.childValues_condition hhead]
  rfl

end Lookup

section Selected

variable {I : Interpretation α} {env : List (Datum α)} {tv : TableVar} {cond : Plan}
  {key : List String}

theorem FixesKey.agreesOn (h : FixesKey tv heading cond key) (hconjoins : I.ConjoinsAll)
    (hcompares : I.ComparesEqual) (hunique : heading.columns.names.Nodup)
    (hapart : ∀ part ∈ cond.conjuncts, Plan.isCallOf part.construct "iEqual" = true →
      ∀ side ∈ part.children, side.TellsApart I (I.tables tv) env)
    {r r' : Row α} (hr : r ∈ I.tables tv) (hr' : r' ∈ I.tables tv)
    (hholds : I.holds (cond.denote I (.row r :: env)) = true)
    (hholds' : I.holds (cond.denote I (.row r' :: env)) = true) : r.AgreesOn heading.columns key r' := by
  intro name hname
  obtain ⟨part, hpart, hfixing⟩ := h.fixed name hname
  exact hfixing.named_eq hunique hr hr' hcompares (hapart part hpart hfixing.1)
    (Plan.holds_of_mem_conjuncts hconjoins hholds part hpart)
    (Plan.holds_of_mem_conjuncts hconjoins hholds' part hpart)

end Selected

theorem length_le_one_of_pairwise_not {β : Type} {R : β → β → Prop} {items : List β}
    (hall : ∀ x ∈ items, ∀ y ∈ items, R x y) (hnone : items.Pairwise fun x y => ¬ R x y) :
    items.length ≤ 1 := by
  rcases items with _ | ⟨x, _ | ⟨y, rest⟩⟩
  · simp
  · simp
  · have hnot : ¬ R x y := (pairwise_cons.mp hnone).1 y (by simp)
    exact absurd (hall x (by simp) y (by simp)) hnot

/-- A key lookup finds one row at most. The rows that a restricted table variable yields when it is read by
key lookup are equal if rows of the table that agree on a key are, and there is one at most if no two
rows of the table agree on a key. -/
theorem keyLookup_at_most_one {I : Interpretation α} (hconjoins : I.ConjoinsAll)
    (hcompares : I.ComparesEqual) {p source condition : Plan} {op : Operator} {tv : TableVar}
    (hconstruct : p.construct = .restrict op) (hchildren : p.children = [source, condition])
    (htable : source.construct = .tableVarReference tv) (hunique : source.columns.names.Nodup)
    {s s' : PassState} (hpath : accessPath p s = (.ok .keyLookup, s')) (env : List (Datum α))
    (hapart : ∀ part ∈ condition.conjuncts, Plan.isCallOf part.construct "iEqual" = true →
      ∀ side ∈ part.children, side.TellsApart I (I.tables tv) env) :
    ∃ rows, p.denote I env = .table rows ∧
      (∀ r, r ∈ rows ↔ r ∈ I.tables tv ∧ I.holds (condition.denote I (.row r :: env)) = true) ∧
      ((∀ key ∈ tv.keys, ∀ r ∈ I.tables tv, ∀ r' ∈ I.tables tv,
          r.AgreesOn source.columns key r' → r = r') → ∀ r ∈ rows, ∀ r' ∈ rows, r = r') ∧
      ((∀ key ∈ tv.keys, (I.tables tv).Pairwise fun r r' => ¬ r.AgreesOn source.columns key r') →
        rows.length ≤ 1) := by
  have h : p.IsRestriction op source condition := ⟨hconstruct, hchildren⟩
  obtain ⟨heading, key, hheading, hkey⟩ := accessPath_yields h htable s _ s' hpath rfl
  have hcolumns := Plan.columns_of_heading? hheading
  rw [hcolumns] at hunique ⊢
  refine ⟨_, denote_restrict_tableVar h htable hheading, fun r => by
    rw [List.mem_filter], fun hdistinct => ?_, fun hdistinct => ?_⟩
  · intro r hr r' hr'
    obtain ⟨hr, hholds⟩ := List.mem_filter.mp hr
    obtain ⟨hr', hholds'⟩ := List.mem_filter.mp hr'
    exact hdistinct key hkey.mem r hr r' hr'
      (hkey.agreesOn hconjoins hcompares hunique hapart hr hr' hholds hholds')
  · refine length_le_one_of_pairwise_not (fun r hr r' hr' => ?_) ((hdistinct key hkey.mem).filter _)
    obtain ⟨hr, hholds⟩ := List.mem_filter.mp hr
    obtain ⟨hr', hholds'⟩ := List.mem_filter.mp hr'
    exact hkey.agreesOn hconjoins hcompares hunique hapart hr hr' hholds hholds'

/-! ### Lookups through conversions -/

/-- Truth as a number. -/
def truthNumber (isTrue : Bool) : Datum Int :=
  .scalar (if isTrue then 1 else 0)

/-- Whether a value is true. -/
def isTruth : Datum Int → Bool
  | .scalar value => value == 1
  | _ => false

/-- Whether two values are the same number. -/
def sameNumber : Datum Int → Datum Int → Bool
  | .scalar l, .scalar r => l == r
  | _, _ => false

theorem eq_of_sameNumber {l r : Datum Int} (h : sameNumber l r = true) : l = r := by
  cases l <;> cases r <;> simp_all [sameNumber]

/-- An interpretation by whole numbers, with one function for all conversions. -/
def convertingInterpretation (convert : Int → Int) (tables : TableVar → List (Row Int)) :
    Interpretation Int where
  tables
  holds := isTruth
  agree _ _ := sameNumber
  node
    | .literal (.boolean true), _, _ => .scalar 1
    | .literal (.integer _ value), _, _ => .scalar value
    | .call op, _, arguments =>
      if Name.unqualified op.name = "iAnd" then truthNumber (arguments.all fun f => isTruth (f []))
      else
        match arguments with
        | [left, right] => truthNumber (sameNumber (left []) (right []))
        | _ => .nil
    | .convert _, _, [operand] =>
      match operand [] with
      | .scalar value => .scalar (convert value)
      | value => value
    | _, _, _ => .nil
  holds_literal _ _ := rfl
  eq_of_agree _ _ _ _ _ h := eq_of_sameNumber h

section Converting

variable (convert : Int → Int) (tables : TableVar → List (Row Int))

theorem isTruth_truthNumber (isTrue : Bool) : isTruth (truthNumber isTrue) = isTrue := by
  cases isTrue <;> rfl

theorem convertingInterpretation_conjoinsAll : (convertingInterpretation convert tables).ConjoinsAll := by
  intro op type args hname hholds
  simp only [convertingInterpretation, if_pos hname, isTruth_truthNumber, all_eq_true] at hholds
  exact hholds

theorem convertingInterpretation_comparesEqual : (convertingInterpretation convert tables).ComparesEqual := by
  intro op type left right hname hholds
  have hnot : ¬ "iEqual" = "iAnd" := by decide
  simp only [convertingInterpretation, hname, if_neg hnot, isTruth_truthNumber] at hholds
  exact eq_of_sameNumber hholds

theorem convertingInterpretation_injective {convert : Int → Int} (hinjective : convert.Injective)
    (conv : Conversion) (type : Option Ty) (f g : Dependent Int)
    (h : (convertingInterpretation convert tables).node (.convert conv) type [f] =
      (convertingInterpretation convert tables).node (.convert conv) type [g]) : f [] = g [] := by
  simp only [convertingInterpretation] at h
  cases hf : f [] <;> cases hg : g [] <;> simp_all [hinjective.eq_iff]

end Converting

/-- A table variable with a key. -/
def keyedVariable : TableVar :=
  .base "T" (some [("k", integerType), ("n", integerType)]) "" [["k"]]

/-- A conversion for samples. -/
def sampleConversion : Conversion :=
  { source := { serial := 4, name := "Reading" }, target := { serial := 2, name := "System.Integer" } }

/-- The key column of a row, converted. -/
def convertedKey : Plan :=
  .make (.convert sampleConversion) (some integerType) .none
    [.make (.stackColumnReference "k" 0 0) (some integerType) .none []]

/-- A comparison for samples. -/
def comparison (left right : Plan) : Plan :=
  .make (.call (sampleOperator "System.iEqual")) (some booleanType) .none [left, right]

/-- The rows of a table variable. -/
def keyedSource : Plan :=
  .make (.tableVarReference keyedVariable) (some (integerTable ["k", "n"])) .none []

/-- A condition that the converted key is a variable outside. -/
def keyComparison : Plan :=
  comparison (.make (.stackReference "x" 1) (some integerType) .none []) convertedKey

/-- A condition that the other column is a literal. -/
def otherComparison : Plan :=
  comparison (.make (.stackColumnReference "n" 0 1) (some integerType) .none [])
    (.make (.literal (.integer .int 5)) (some integerType) .none [])

/-- A restriction of a table variable by both conditions. -/
def keyedRestriction : Plan :=
  .make (.restrict (sampleOperator "System.iRestrict")) (some (integerTable ["k", "n"])) .none
    [keyedSource, .make (.call (sampleOperator "System.iAnd")) (some booleanType) .none
      [keyComparison, otherComparison]]

theorem accessPath_keyedRestriction : accessPath keyedRestriction {} = (.ok .keyLookup, {}) :=
  rfl

theorem agreesOn_keyedSource_iff (k k' : Int) (rest rest' : Row Int) :
    Row.AgreesOn keyedSource.columns ["k"] (.scalar k :: rest) (.scalar k' :: rest') ↔ k = k' := by
  have hnamed : ∀ (k : Int) (rest : Row Int),
      Row.named (.scalar k :: rest) keyedSource.columns "k" = .scalar k := fun _ _ => rfl
  simp [Row.AgreesOn, hnamed]

theorem tellsApart_keyComparison {convert : Int → Int} (hinjective : convert.Injective)
    {tables : TableVar → List (Row Int)} {rows : List (Row Int)} {env : List (Datum Int)} :
    ∀ side ∈ keyComparison.children,
      side.TellsApart (convertingInterpretation convert tables) rows env := by
  refine forall_mem_cons.mpr ⟨Plan.tellsApart_of_rowColumn? rfl, forall_mem_singleton.mpr ?_⟩
  refine Plan.tellsApart_convert rfl rfl ?_ (Plan.tellsApart_columnReference rfl)
  exact convertingInterpretation_injective tables hinjective sampleConversion _

theorem tellsApart_otherComparison {I : Interpretation α} {rows : List (Row α)} {env : List (Datum α)} :
    ∀ side ∈ otherComparison.children, side.TellsApart I rows env :=
  forall_mem_cons.mpr ⟨Plan.tellsApart_columnReference rfl,
    forall_mem_singleton.mpr (Plan.tellsApart_of_rowColumn? rfl)⟩

theorem keyLookup_at_most_one_shifted :
    ∃ rows, keyedRestriction.denote (convertingInterpretation (· + 1) fun _ =>
        [[.scalar 2, .scalar 5], [.scalar 4, .scalar 5], [.scalar 3, .scalar 7]]) [.scalar 3] =
      .table rows ∧ [.scalar 2, .scalar 5] ∈ rows ∧ rows.length ≤ 1 := by
  have hinjective : Function.Injective fun value : Int => value + 1 := fun _ _ h => by
    simpa using h
  obtain ⟨rows, hrows, hmem, -, hlength⟩ := keyLookup_at_most_one
    (convertingInterpretation_conjoinsAll _ _) (convertingInterpretation_comparesEqual _ _)
    (p := keyedRestriction) rfl rfl rfl (by decide) accessPath_keyedRestriction [.scalar 3]
    (List.forall_mem_cons.mpr ⟨fun _ => tellsApart_keyComparison hinjective,
      List.forall_mem_singleton.mpr fun _ => tellsApart_otherComparison⟩)
  refine ⟨rows, hrows, (hmem _).mpr ⟨by simp [convertingInterpretation], rfl⟩,
    hlength (List.forall_mem_singleton.mpr ?_)⟩
  simp [convertingInterpretation, agreesOn_keyedSource_iff]

/-- A key lookup through a conversion that takes different keys to the same value may find different
rows. -/
theorem exists_keyLookup_two_rows :
    ∃ (I : Interpretation Int) (tv : TableVar) (source condition p : Plan) (op : Operator)
      (env : List (Datum Int)) (r r' : Row Int), I.ConjoinsAll ∧ I.ComparesEqual ∧
      p.construct = .restrict op ∧ p.children = [source, condition] ∧
      source.construct = .tableVarReference tv ∧ source.columns.names.Nodup ∧
      accessPath p {} = (.ok .keyLookup, {}) ∧
      (∀ key ∈ tv.keys, (I.tables tv).Pairwise fun r r' => ¬ r.AgreesOn source.columns key r') ∧
      r ≠ r' ∧ p.denote I env = .table [r, r'] := by
  refine ⟨convertingInterpretation (· / 10) fun _ => [[.scalar 21, .scalar 5], [.scalar 24, .scalar 5]],
    keyedVariable, keyedSource, _, keyedRestriction, _, [.scalar 2], _, _,
    convertingInterpretation_conjoinsAll _ _, convertingInterpretation_comparesEqual _ _, rfl, rfl, rfl,
    by decide, accessPath_keyedRestriction, ?_, ?_, rfl⟩
  · refine List.forall_mem_singleton.mpr ?_
    simp [convertingInterpretation, agreesOn_keyedSource_iff]
  · simp

end Relational
