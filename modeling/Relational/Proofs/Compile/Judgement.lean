import Relational.Proofs.Compile.Setting
import Relational.Proofs.Compile.Vocabulary
import Relational.Proofs.Resolution.Overloads

/-!
# Plans that are compiled in a setting

The plans of expressions and of statements are described by rules, one for each construct, that say in
which setting each child was compiled. The rules follow the compiler; what holds of all compiled plans is
then proved by induction on the rules.

Rows are brought into scope by the compiler as it reads the operand of a relational construct, and by an
inspection as it finds the operand in the plan. Between the two the operand may have become a table, so
that a row with unknown columns may turn into one without columns. Nothing can refer to either.

What is stored under a type suits it by the names of its columns, unless it is converted there.
-/

namespace Relational

open List

variable {child : Plan}

/-- Symbols that cannot be told apart by references: they have one name, columns and constancy, and one
type if they have a name. -/
structure Symbol.Alike (s t : Symbol) : Prop where
  name : s.name = t.name
  columns : s.columns = t.columns
  isConstant : s.isConstant = t.isConstant
  type : s.name ≠ "" → s.type = t.type

theorem Symbol.Alike.refl (s : Symbol) : s.Alike s :=
  ⟨rfl, rfl, rfl, fun _ => rfl⟩

variable {idx : Nat} {Γ : Setting} {b : Builder} {name : String}

theorem Symbol.exists_type_of_columns {s : Symbol} {column : String × Ty}
    (h : s.columns[idx]? = some column) :
    ∃ columns, s.type = some (.rows .row columns) ∧ columns[idx]? = some column := by
  unfold columns at h
  split at h
  · rename_i type htype
    unfold Ty.rowColumns at h
    split at h
    · exact ⟨_, htype, h⟩
    · simp at h
  · simp at h

/-- The operators of relational constructs that bring rows into scope, with the number of their
operands. An unknown kind of joins has the empty name. -/
def rowOperators : List (String × Nat) :=
  [("iRestrict", 1), ("iExtend", 1), ("iJoin", 2), ("iLeftJoin", 2), ("iRightJoin", 2), ("", 2)]

/-- A plan whose rows are like those of a heading. -/
def Plan.YieldsRows (p : Plan) (heading : Heading) : Prop :=
  ∃ heading', p.heading? = some heading' ∧
    (Symbol.ofRow heading).Alike (Symbol.ofRow heading')

/-- Whether values of the first type are taken under the second one as they are, as far as the names of
columns tell. Some may be missing with `widen`, or if another one is there twice. -/
def Ty.SuitsByName (widen : Bool) : Ty → Ty → Prop
  | .rows form columns, .rows form' columns' => columns' = [] ∨ form = form' ∧
      Columns.names columns ⊆ Columns.names columns' ∧
        (widen ∨ columns.length = columns'.length ∨ Columns.names columns' ⊆ Columns.names columns)
  | _, _ => True

theorem Ty.SuitsByName.refl (widen : Bool) (type : Ty) : type.SuitsByName widen type := by
  cases type with
  | rows form cols => exact .inr ⟨rfl, fun _ => id, .inr (.inl rfl)⟩
  | scalar | anyRows | list | anyList | any => trivial

/-- A plan that is stored under a type: it suits the type, unless its columns or elements are converted. -/
def Plan.StoredAs (widen : Bool) (type : Ty) (p : Plan) : Prop :=
  p.kind = .structuralConvert ∨ ∀ own ∈ p.type, own.SuitsByName widen type

theorem Plan.StoredAs.of_type {widen : Bool} {type : Ty} {p : Plan} (h : p.type = some type) :
    p.StoredAs widen type := by
  refine .inr fun own hown => ?_
  obtain rfl := Option.some.inj (h.symm.trans hown)
  exact .refl widen type

namespace Setting

/-- No window begins above the innermost symbol. -/
def Sound (Γ : Setting) : Prop :=
  ∀ base ∈ Γ.windows, base ≤ Γ.symbols.length

/-- An overload that a name stands for in a setting. -/
def Finds (options : ResolutionOptions) (Γ : Setting) (name : String) (op : Operator) : Prop :=
  Γ.operators.Finds options Γ.scope name op

/-- All overloads of relational operators take tables with any columns. -/
def TakesTables (options : ResolutionOptions) (Γ : Setting) : Prop :=
  ∀ entry ∈ rowOperators, ∀ op, Γ.Finds options entry.1 op → op.takesTables entry.2

theorem Sound.push (h : Γ.Sound) (syms : List Symbol) : (Γ.push syms).Sound := by
  intro base hbase
  have hle := h base hbase
  simp only [Setting.push, length_append]
  omega

theorem Sound.hide (h : Γ.Sound) : Γ.hide.Sound := by
  intro base hbase
  rcases mem_cons.mp hbase with rfl | hbase
  · exact Nat.le_refl _
  · exact h base hbase

theorem visible_push (h : Γ.Sound) (syms : List Symbol) :
    (Γ.push syms).visible = (syms.map Symbol.unmodified).reverse ++ Γ.visible := by
  have hbase : Γ.windows.headD 0 ≤ Γ.symbols.length := by
    cases hwins : Γ.windows with
    | nil => exact Nat.zero_le _
    | cons first rest => exact h first (by simp [hwins])
  unfold visible Setting.push
  have hlen : ((syms.map Symbol.unmodified).reverse ++ Γ.symbols).length -
      Γ.windows.headD 0 = (syms.map Symbol.unmodified).reverse.length +
        (Γ.symbols.length - Γ.windows.headD 0) := by
    rw [length_append]
    omega
  rw [hlen, take_length_add_append]

theorem visible_enter (h : Γ.Sound) (syms : List Symbol) :
    (Γ.enter syms).visible = (syms.map Symbol.unmodified).reverse ++ Γ.visible :=
  visible_push (Γ := Γ.inFrame) h syms

theorem visible_hide (Γ : Setting) : Γ.hide.visible = [] := by
  unfold visible hide
  simp [inFrame]

end Setting

/-! ### New names -/

/-- No name is equal to a given one up to case; symbols without a name do not count. -/
def IsNewName (names : List String) (name : String) : Prop :=
  ∀ other ∈ names, other ≠ "" → ¬ Text.equalFold other name

/-- The names of the visible symbols, innermost first. -/
def Setting.names (Γ : Setting) : List String :=
  Γ.visible.map (·.name)

theorem Builder.In.visible_eq (h : b.In Γ) : b.stack.visible.map Symbol.unmodified = Γ.visible := by
  rw [← h.setting]
  unfold Stack.visible Setting.visible Builder.setting Stack.depth Stack.base
  rw [map_take, length_map]

theorem Builder.In.names_eq (h : b.In Γ) : b.stack.visible.map (·.name) = Γ.names := by
  unfold Setting.names
  rw [← h.visible_eq, map_map]
  rfl

theorem Builder.In.collisions_eq_nil_iff (h : b.In Γ) :
    b.stack.collisions name = [] ↔ IsNewName Γ.names name := by
  rw [← h.names_eq]
  simp [Stack.collisions, IsNewName]

/-! ### Rules -/

/-- A named symbol at an index that may be written to. -/
def IsVariableAt (visible : List Symbol) (index : Nat) : Prop :=
  ∃ symbol, visible[index]? = some symbol ∧ symbol.name ≠ "" ∧ symbol.isConstant = false

/-- A plan that may be written to, if it refers to a symbol. -/
def Plan.WritesAt (visible : List Symbol) (p : Plan) : Prop :=
  ∀ name index, p.construct = .stackReference name index → IsVariableAt visible index

/-- The plans of expressions compiled in a setting. -/
inductive IsExpression (options : CompilerOptions) : Setting → Plan → Prop
  /-- A construct without effect on scopes. -/
  | plain {Γ construct type position children} (hplain : construct.isPlain children.length)
      (hchildren : ∀ child ∈ children, IsExpression options Γ child) :
      IsExpression options Γ (.make construct type position children)
  /-- A call, which may write to what is passed by reference. -/
  | call {Γ op type position arguments} (harguments : ∀ argument ∈ arguments, IsExpression options Γ argument)
      (hrefers : op.signature.Refers (Plan.WritesAt Γ.visible) 0 arguments) :
      IsExpression options Γ (.make (.call op) type position arguments)
  | literal {Γ : Setting} (value : Value) (type : Option Ty) (position : Position) :
      IsExpression options Γ (.make (.literal value) type position [])
  /-- A table of rows that are stored under its columns. -/
  | table {Γ columns position rows} (hrows : ∀ row ∈ rows, IsExpression options Γ row)
      (hstored : ∀ row ∈ rows, row.StoredAs options.widen (.rows .row columns)) :
      IsExpression options Γ (.make .tableSelector (some (.rows .table columns)) position rows)
  /-- A list of elements that are stored under its element type. -/
  | list {Γ type position elements} (helements : ∀ element ∈ elements, IsExpression options Γ element)
      (hstored : ∀ element ∈ elements, element.StoredAs options.widen type) :
      IsExpression options Γ (.make .listSelector (some (.list type)) position elements)
  /-- A visible symbol. -/
  | symbol {Γ index symbol position} (hsymbol : Γ.visible[index]? = some symbol) (hname : symbol.name ≠ "") :
      IsExpression options Γ (.make (.stackReference symbol.name index) symbol.type position [])
  /-- A column of a visible symbol. -/
  | column {Γ index column symbol name type position} (hsymbol : Γ.visible[index]? = some symbol)
      (hcolumn : symbol.columns[column]? = some (name, type)) :
      IsExpression options Γ
        (.make (.stackColumnReference name index column) (some type) position [])
  /-- A restriction, which has the type of its source and whose condition sees a row of it. -/
  | restrict {Γ op heading source condition position} (hop : Γ.Finds options.resolution "iRestrict" op)
      (hheading : op.takesTables 1 → source.YieldsRows heading)
      (hsource : IsExpression options Γ source)
      (hcondition : IsExpression options (Γ.enter [.ofRow heading]) condition) :
      IsExpression options Γ (.make (.restrict op) source.type position [source, condition])
  /-- Computed columns, which see a row of the source. -/
  | extend {Γ op heading source values names type position} (hop : Γ.Finds options.resolution "iExtend" op)
      (hheading : op.takesTables 1 → source.YieldsRows heading)
      (hsource : IsExpression options Γ source)
      (hvalues : ∀ value ∈ values, IsExpression options (Γ.enter [.ofRow heading]) value) :
      IsExpression options Γ (.make (.extend op names) type position (source :: values))
  /-- A join, whose condition sees a row of either side. -/
  | join {Γ op kind leftHeading rightHeading left right} {condition : Option Plan} {type position}
      (hop : Γ.Finds options.resolution (joinOperator kind) op)
      (hheadings : op.takesTables 2 →
        left.YieldsRows leftHeading ∧ right.YieldsRows rightHeading)
      (hleft : IsExpression options Γ left) (hright : IsExpression options Γ right)
      (hcondition : ∀ p ∈ condition,
        IsExpression options (Γ.enter [.ofRow leftHeading, .ofRow rightHeading]) p) :
      IsExpression options Γ
        (.make (.join op kind) type position (left :: right :: condition.toList))

/-- The plans of statements compiled in a setting. -/
inductive IsStatement (options : CompilerOptions) : Setting → Plan → Prop
  | noOp {Γ : Setting} (position : Position) : IsStatement options Γ (.noOp position)
  | expression {Γ p} (h : IsExpression options Γ p) : IsStatement options Γ p
  /-- Statements, each of which sees the variables of those before it. -/
  | block {Γ statements position} (h : ∀ i p, statements[i]? = some p →
        IsStatement options ((Γ.enter []).declareAll (statements.take i)) p) :
      IsStatement options Γ (.make .block none position statements)
  /-- A declaration of a new variable, whose default value sees nothing around it. -/
  | declaration {Γ name type isConstant position} {value : Option Plan} (hnew : IsNewName Γ.names name)
      (hvalue : ∀ p ∈ value, IsExpression options Γ.hide p)
      (hstored : ∀ p ∈ value, p.StoredAs options.widen type) :
      IsStatement options Γ
        (.make (.variable_ name (some type) isConstant) none position value.toList)
  /-- An assignment to a visible variable. -/
  | assignment {Γ target symbol value position} (hsymbol : Γ.visible[target.index]? = some symbol)
      (hname : symbol.name = target.name) (hnamed : symbol.name ≠ "")
      (hconstant : symbol.isConstant = false) (hvalue : IsExpression options Γ value)
      (hstored : ∀ type ∈ symbol.type, value.StoredAs options.widen type)
      (hcolumn : target.column = none) :
      IsStatement options Γ (.make (.assignment target) none position [value])
  | conditional {Γ condition branches position} (hcondition : IsExpression options Γ condition)
      (hbranches : ∀ branch ∈ branches, IsStatement options (Γ.enter []) branch)
      (hcount : branches.length = 1 ∨ branches.length = 2) :
      IsStatement options Γ (.make .conditional none position (condition :: branches))
  | case {Γ branches last position} (hconditions : ∀ branch ∈ branches, IsExpression options Γ branch.1)
      (hbranches : ∀ branch ∈ branches, IsStatement options (Γ.enter []) branch.2)
      (hlast : ∀ p ∈ last, IsStatement options (Γ.enter []) p) :
      IsStatement options Γ (.make .case none position (caseChildren branches last))
  | whileLoop {Γ condition body position} (hcondition : IsExpression options Γ condition)
      (hbody : IsStatement options ((Γ.within .loop).enter []) body) :
      IsStatement options Γ (.make .whileLoop none position [condition, body])
  /-- A loop, whose body sees its variable. -/
  | forEach {Γ name type source body position} (hsource : IsExpression options Γ source)
      (hbody : IsStatement options ((Γ.enter [{ name, type := some type }]).within .loop) body) :
      IsStatement options Γ (.make (.forEach name (some type)) none position [source, body])
  | breakLoop {Γ position} (h : 0 < Γ.nesting.loops) :
      IsStatement options Γ (.make .breakLoop none position [])
  | continueLoop {Γ position} (h : 0 < Γ.nesting.loops) :
      IsStatement options Γ (.make .continueLoop none position [])
  /-- A body and its handler, which sees the error if it has a name. -/
  | tryHandler {Γ name type body} {handler : Option Plan} {position}
      (hbody : IsStatement options (Γ.enter []) body)
      (hhandler : ∀ p ∈ handler, IsStatement options
        ((Γ.enter (if name = "" then [] else [{ name, type }])).within .handler) p) :
      IsStatement options Γ
        (.make (.tryHandler name type) none position (body :: handler.toList))
  | raise {Γ : Setting} {error : Option Plan} {position : Position}
      (hnone : error = none → 0 < Γ.nesting.handlers)
      (herror : ∀ p ∈ error, IsExpression options Γ p) :
      IsStatement options Γ (.make .raise none position error.toList)

/-- The plans of the statements of a block, each compiled with the variables of those before it. -/
def IsBlock (options : CompilerOptions) (Γ : Setting) (ps : List Plan) : Prop :=
  ∀ i p, ps[i]? = some p → IsStatement options (Γ.declareAll (ps.take i)) p

variable {opts : CompilerOptions} {Γ' : Setting} {p node : Plan} {visible : List Symbol}
  {P : Plan → List Symbol → Prop} {con : Construct} {heading : Heading}

theorem IsExpression.declaredSymbol?_eq (h : IsExpression opts Γ p) : p.declaredSymbol? = none := by
  cases h with
  | @plain _ con _ _ _ hplain _ =>
    cases con <;> simp_all [Construct.isPlain, Plan.declaredSymbol?, Plan.make]
  | call | literal | table | list | symbol | column | restrict | extend | join => rfl

theorem IsExpression.kind_ne (h : IsExpression opts Γ p) :
    p.kind ≠ .noOp ∧ p.kind ≠ .breakLoop ∧ p.kind ≠ .continueLoop ∧ p.kind ≠ .raise := by
  cases h with
  | @plain _ con _ _ _ hplain =>
    cases con <;> simp_all [Construct.isPlain, Plan.kind, Plan.make, Construct.kind]
  | call | literal | table | list | symbol | column | restrict | extend | join =>
    simp [Plan.kind, Plan.make, Construct.kind]

theorem IsStatement.isNewName (h : IsStatement opts Γ p) :
    ∀ sym ∈ p.declaredSymbol?, IsNewName Γ.names sym.name := by
  intro sym hsym
  cases h with
  | expression h => simp [h.declaredSymbol?_eq] at hsym
  | declaration hnew =>
    cases hsym
    exact hnew
  | noOp | block | assignment | conditional | case | whileLoop | forEach | breakLoop | continueLoop
  | tryHandler | raise => cases hsym

/-- Settings that expressions cannot tell apart. -/
structure Setting.Same (Γ Γ' : Setting) : Prop where
  symbols : Γ.symbols = Γ'.symbols
  windows : Γ.windows = Γ'.windows
  scope : Γ.scope = Γ'.scope
  operators : Γ.operators = Γ'.operators

theorem Setting.Same.visible_eq (h : Γ.Same Γ') : Γ.visible = Γ'.visible := by
  rw [visible, visible, h.symbols, h.windows]

theorem Setting.Same.enter (h : Γ.Same Γ') (syms : List Symbol) : (Γ.enter syms).Same (Γ'.enter syms) := by
  refine ⟨?_, h.windows, h.scope, h.operators⟩
  change _ ++ Γ.symbols = _ ++ Γ'.symbols
  rw [h.symbols]

theorem Setting.Same.finds (h : Γ.Same Γ') {op : Operator} (hop : Γ.Finds opts.resolution name op) :
    Γ'.Finds opts.resolution name op := by
  unfold Finds at hop ⊢
  rwa [← h.scope, ← h.operators]

theorem IsExpression.of_same (h : IsExpression opts Γ p) (hsame : Γ.Same Γ') : IsExpression opts Γ' p := by
  induction h generalizing Γ' with
  | plain hplain _ ih => exact .plain hplain fun child hkid => ih child hkid hsame
  | call _ hrefers ih =>
    exact .call (fun child hkid => ih child hkid hsame) (hsame.visible_eq ▸ hrefers)
  | literal => exact .literal _ _ _
  | table _ hstored ih => exact .table (fun row hrow => ih row hrow hsame) hstored
  | list _ hstored ih => exact .list (fun element helement => ih element helement hsame) hstored
  | symbol hsym hname => exact .symbol (hsame.visible_eq ▸ hsym) hname
  | column hsym hcol => exact .column (hsame.visible_eq ▸ hsym) hcol
  | restrict hop hhead _ _ ihsource ihcondition =>
    exact .restrict (hsame.finds hop) hhead (ihsource hsame) (ihcondition (hsame.enter _))
  | extend hop hhead _ _ ihsource ihvalues =>
    exact .extend (hsame.finds hop) hhead (ihsource hsame) fun val hval =>
      ihvalues val hval (hsame.enter _)
  | join hop hheads _ _ _ ihleft ihright ihcondition =>
    exact .join (hsame.finds hop) hheads (ihleft hsame) (ihright hsame) fun p hp =>
      ihcondition p hp (hsame.enter _)

theorem IsExpression.leave (h : IsExpression opts (Γ.enter []) p) : IsExpression opts Γ p :=
  h.of_same ⟨rfl, rfl, rfl, rfl⟩

namespace Plan

theorem childView_of_isPlain (h : con.isPlain n) (type : Option Ty) (pos : Position)
    (children : List Plan) (idx : Nat) : (make con type pos children).childView idx visible = visible := by
  cases con <;> simp_all [Construct.isPlain, childView, childScope, isWindowed, make]

theorem refersBy_of_isPlain (h : con.isPlain n) (type : Option Ty) (pos : Position)
    (children : List Plan) : (make con type pos children).RefersBy Eq visible := by
  cases con <;> simp_all [Construct.isPlain, RefersBy, make]

theorem YieldsRows.rowSymbols (h : p.YieldsRows heading) :
    ∃ heading', p.rowSymbols = [Symbol.ofRow heading'] ∧
      (Symbol.ofRow heading).Alike (Symbol.ofRow heading') := by
  obtain ⟨heading', hhead, halike⟩ := h
  exact ⟨heading', by rw [Plan.rowSymbols, hhead]; rfl, halike⟩

end Plan

/-- The visible symbols of a setting are like those that an inspection finds. -/
abbrev SeesAlike (Γ : Setting) (visible : List Symbol) : Prop :=
  List.Forall₂ Symbol.Alike Γ.visible visible

namespace SeesAlike

variable (h : SeesAlike Γ visible)

include h

theorem getElem? {sym : Symbol} (hsym : Γ.visible[idx]? = some sym) :
    ∃ other, visible[idx]? = some other ∧ sym.Alike other := by
  obtain ⟨hlt, heq⟩ := List.getElem?_eq_some_iff.mp hsym
  have hlt' : idx < visible.length := h.length_eq ▸ hlt
  refine ⟨visible[idx], getElem?_eq_getElem hlt', ?_⟩
  have halike := h.get hlt hlt'
  simpa [heq] using halike

variable (hsound : Γ.Sound)

include hsound

theorem enter {syms others : List Symbol}
    (hsyms : List.Forall₂ Symbol.Alike (syms.map Symbol.unmodified) others) :
    SeesAlike (Γ.enter syms) (others.reverse ++ visible) := by
  rw [SeesAlike, Setting.visible_enter hsound]
  exact rel_append (rel_reverse hsyms) h

theorem enter_nil : SeesAlike (Γ.enter []) visible := by
  have henter : SeesAlike (Γ.enter []) (([] : List Symbol).reverse ++ visible) :=
    h.enter hsound .nil
  exact henter

theorem enter_rows {src : Plan} (hsrc : src.YieldsRows heading) :
    SeesAlike (Γ.enter [.ofRow heading]) (src.rowSymbols.reverse ++ visible) := by
  obtain ⟨heading', heq, halike⟩ := hsrc.rowSymbols
  rw [heq]
  exact h.enter hsound (.cons halike .nil)

theorem enter_joined {leftHeading rightHeading : Heading} {left right : Plan}
    (hleft : left.YieldsRows leftHeading) (hright : right.YieldsRows rightHeading) :
    SeesAlike (Γ.enter [.ofRow leftHeading, .ofRow rightHeading])
      ((left.rowSymbols ++ right.rowSymbols).reverse ++ visible) := by
  obtain ⟨heading, heq, halike⟩ := hleft.rowSymbols
  obtain ⟨heading', heq', halike'⟩ := hright.rowSymbols
  rw [heq, heq']
  exact h.enter hsound (.cons halike (.cons halike' .nil))

end SeesAlike

theorem IsExpression.refersBy (h : IsExpression opts Γ p) (hsees : SeesAlike Γ visible) :
    p.RefersBy Eq visible := by
  cases h with
  | plain hplain => exact Plan.refersBy_of_isPlain hplain _ _ _
  | call | literal | table | list | restrict | extend | join => trivial
  | symbol hsym hname =>
    obtain ⟨other, hother, halike⟩ := hsees.getElem? hsym
    exact ⟨other, hother, halike.name.symm, (halike.type hname).symm⟩
  | @column _ _ _ _ _ type _ hsym hcol =>
    obtain ⟨other, hother, halike⟩ := hsees.getElem? hsym
    rw [halike.columns] at hcol
    obtain ⟨cols, hrow, hcol⟩ := Symbol.exists_type_of_columns hcol
    exact ⟨other, cols, type, type, hother, hrow, hcol, rfl, rfl⟩

theorem IsVariableAt.alike (h : IsVariableAt Γ.visible idx) (hsees : SeesAlike Γ visible) :
    IsVariableAt visible idx := by
  obtain ⟨sym, hsym, hname, hconst⟩ := h
  obtain ⟨other, hother, halike⟩ := hsees.getElem? hsym
  exact ⟨other, hother, halike.name ▸ hname, halike.isConstant ▸ hconst⟩

theorem SeesAlike.push (h : SeesAlike Γ visible) (hsound : Γ.Sound) (syms : List Symbol) :
    SeesAlike (Γ.push syms) (syms.reverse ++ visible) := by
  rw [SeesAlike, Setting.visible_push hsound]
  refine rel_append (rel_reverse ?_) h
  rw [forall₂_map_left_iff, forall₂_same]
  exact fun sym _ => ⟨rfl, rfl, rfl, fun _ => rfl⟩

theorem SeesAlike.enter_symbols (h : SeesAlike Γ visible) (hsound : Γ.Sound)
    (syms : List Symbol) : SeesAlike (Γ.enter syms) (syms.reverse ++ visible) :=
  (show SeesAlike Γ.inFrame visible from h).push hsound syms

theorem IsStatement.refersBy (h : IsStatement opts Γ p) (hsees : SeesAlike Γ visible) :
    p.RefersBy Eq visible := by
  cases h with
  | expression h => exact h.refersBy hsees
  | assignment hsym hname =>
    obtain ⟨other, hother, halike⟩ := hsees.getElem? hsym
    exact ⟨other, hother, halike.name.symm.trans hname⟩
  | noOp | block | declaration | conditional | case | whileLoop | forEach | breakLoop | continueLoop
  | tryHandler | raise => trivial

/-! ### Children -/

/-- Whether a child is the body of a loop. -/
def Plan.IsLoopBody (p : Plan) (index : Nat) : Prop :=
  (p.kind = .whileLoop ∨ p.kind = .forEach) ∧ index = 1

/-- Whether a child handles errors. -/
def Plan.IsHandler (p : Plan) (index : Nat) : Prop :=
  p.kind = .tryHandler ∧ index = 1

/-- The setting of a child of a node: the child finds the same operators, and stands in no more loops and
handlers, but for bodies of loops and for handlers. -/
structure Setting.Inside (p : Plan) (index : Nat) (Γ Γ' : Setting) : Prop where
  scope : Γ'.scope = Γ.scope
  operators : Γ'.operators = Γ.operators
  loops : p.IsLoopBody index ∨ Γ'.nesting.loops ≤ Γ.nesting.loops
  handlers : p.IsHandler index ∨ Γ'.nesting.handlers ≤ Γ.nesting.handlers
  sound : Γ.Sound → Γ'.Sound

namespace Setting.Inside

theorem refl : Inside p idx Γ Γ :=
  ⟨rfl, rfl, .inr (Nat.le_refl _), .inr (Nat.le_refl _), id⟩

theorem push (h : Inside p idx Γ Γ') (syms : List Symbol) : Inside p idx Γ (Γ'.push syms) :=
  ⟨h.scope, h.operators, h.loops, h.handlers, fun hsound => (h.sound hsound).push syms⟩

theorem enter (syms : List Symbol) : Inside p idx Γ (Γ.enter syms) :=
  ⟨rfl, rfl, .inr (Nat.le_refl _), .inr (Nat.le_refl _), fun hsound => hsound.push syms⟩

theorem takesTables {opts : ResolutionOptions} (h : Inside p idx Γ Γ') (htables : Γ.TakesTables opts) :
    Γ'.TakesTables opts := by
  unfold TakesTables Finds
  rw [h.scope, h.operators]
  exact htables

end Setting.Inside

theorem eq_some_of_getElem?_toList {val : Option Plan} (h : val.toList[idx]? = some child) :
    idx = 0 ∧ val = some child := by
  cases val with
  | none => cases h
  | some val => simpa [getElem?_singleton] using h

/-- What a node sees is like its setting, and then a child of it sees what is like the child's. -/
def Setting.ShowsAlike (p : Plan) (index : Nat) (Γ Γ' : Setting) : Prop :=
  ∀ visible, Γ.Sound → SeesAlike Γ visible → SeesAlike Γ' (p.childView index visible)

/-- The children of an expression are expressions, which see what they were compiled with where relational
overloads take tables. -/
theorem IsExpression.exists_of_getElem? (h : IsExpression opts Γ p)
    (hkid : p.children[idx]? = some child) : ∃ Γ', IsExpression opts Γ' child ∧
      Γ.Inside p idx Γ' ∧ (Γ.TakesTables opts.resolution → Γ.ShowsAlike p idx Γ') := by
  have hmem := mem_of_getElem? hkid
  cases h with
  | plain hplain h =>
    refine ⟨Γ, h child hmem, .refl, fun _ visible _ hsees => ?_⟩
    rwa [Plan.childView_of_isPlain hplain]
  | call h | table h | list h => exact ⟨Γ, h child hmem, .refl, fun _ _ _ hsees => hsees⟩
  | literal | symbol | column => cases hmem
  | @restrict _ op _ _ _ _ hop hhead hsrc hcond =>
    rcases idx with _ | _ | index <;> cases hkid
    · exact ⟨Γ, hsrc, .refl, fun _ _ _ hsees => hsees⟩
    · refine ⟨_, hcond, .enter _, fun htables visible hsound hsees => ?_⟩
      exact hsees.enter_rows hsound (hhead (htables ("iRestrict", 1) (by simp [rowOperators]) op hop))
  | @extend _ op _ _ _ _ _ _ hop hhead hsrc hvals =>
    rcases idx with _ | index
    · cases hkid
      exact ⟨Γ, hsrc, .refl, fun _ _ _ hsees => hsees⟩
    · refine ⟨_, hvals child (mem_of_getElem? hkid), .enter _, fun htables visible hsound hsees => ?_⟩
      exact hsees.enter_rows hsound (hhead (htables ("iExtend", 1) (by simp [rowOperators]) op hop))
  | @join _ op kind _ _ _ _ cond _ _ hop hheads hleft hright hcond =>
    rcases idx with _ | _ | index
    · cases hkid
      exact ⟨Γ, hleft, .refl, fun _ _ _ hsees => hsees⟩
    · cases hkid
      exact ⟨Γ, hright, .refl, fun _ _ _ hsees => hsees⟩
    · obtain ⟨rfl, hsome⟩ := eq_some_of_getElem?_toList hkid
      refine ⟨_, hcond child hsome, .enter _, fun htables visible hsound hsees => ?_⟩
      have hentry : (joinOperator kind, 2) ∈ rowOperators := by
        cases kind <;> simp [rowOperators, joinOperator]
      obtain ⟨hleft, hright⟩ := hheads (htables _ hentry op hop)
      exact hsees.enter_joined hsound hleft hright

/-- The children of a statement are statements, which see what they were compiled with. -/
theorem IsStatement.exists_of_getElem? (h : IsStatement opts Γ p)
    (hkid : p.children[idx]? = some child) : ∃ Γ', IsStatement opts Γ' child ∧
      Γ.Inside p idx Γ' ∧ ((IsExpression opts Γ p → Γ.TakesTables opts.resolution) →
        Γ.ShowsAlike p idx Γ') := by
  have hmem := mem_of_getElem? hkid
  cases h with
  | noOp | breakLoop | continueLoop => cases hmem
  | expression h =>
    obtain ⟨Γ', hkid, hinside, hshows⟩ := h.exists_of_getElem? hkid
    exact ⟨Γ', .expression hkid, hinside, fun htables => hshows (htables h)⟩
  | block h =>
    exact ⟨_, h idx child hkid, (Setting.Inside.enter []).push _, fun _ visible hsound hsees =>
      (hsees.enter_nil hsound).push (hsound.push []) _⟩
  | declaration _ hval =>
    refine ⟨Γ.hide, .expression (hval child (Option.mem_toList.mp hmem)),
      ⟨rfl, rfl, .inr (Nat.le_refl _), .inr (Nat.le_refl _), .hide⟩, fun _ _ _ _ => ?_⟩
    rw [SeesAlike, Setting.visible_hide]
    exact .nil
  | assignment _ _ _ _ hval =>
    obtain rfl := mem_singleton.mp hmem
    exact ⟨Γ, .expression hval, .refl, fun _ _ _ hsees => hsees⟩
  | conditional hcond hbranches =>
    rcases mem_cons.mp hmem with rfl | hmem
    · exact ⟨Γ, .expression hcond, .refl, fun _ _ _ hsees => hsees⟩
    · exact ⟨_, hbranches child hmem, .enter [], fun _ _ hsound hsees => hsees.enter_nil hsound⟩
  | case hconds hbranches hlast =>
    rcases mem_caseChildren hmem with ⟨branch, hbranch, rfl | rfl⟩ | hkid
    · exact ⟨Γ, .expression (hconds branch hbranch), .refl, fun _ _ _ hsees => hsees⟩
    · exact ⟨_, hbranches branch hbranch, .enter [], fun _ _ hsound hsees => hsees.enter_nil hsound⟩
    · exact ⟨_, hlast child hkid, .enter [], fun _ _ hsound hsees => hsees.enter_nil hsound⟩
  | whileLoop hcond hbody =>
    rcases idx with _ | _ | index <;> cases hkid
    · exact ⟨Γ, .expression hcond, .refl, fun _ _ _ hsees => hsees⟩
    · exact ⟨_, hbody, ⟨rfl, rfl, .inl ⟨.inl rfl, rfl⟩, .inr (Nat.le_refl _), fun hsound => hsound.push []⟩,
        fun _ _ hsound hsees => hsees.enter_nil hsound⟩
  | forEach hsrc hbody =>
    rcases idx with _ | _ | index <;> cases hkid
    · exact ⟨Γ, .expression hsrc, .refl, fun _ _ _ hsees => hsees⟩
    · exact ⟨_, hbody, ⟨rfl, rfl, .inl ⟨.inr rfl, rfl⟩, .inr (Nat.le_refl _), fun hsound => hsound.push _⟩,
        fun _ _ hsound hsees => hsees.enter_symbols hsound _⟩
  | tryHandler hbody hhandler =>
    rcases idx with _ | index
    · cases hkid
      exact ⟨_, hbody, .enter [], fun _ _ hsound hsees => hsees.enter_nil hsound⟩
    · obtain ⟨rfl, hsome⟩ := eq_some_of_getElem?_toList hkid
      exact ⟨_, hhandler child hsome, ⟨rfl, rfl, .inr (Nat.le_refl _), .inl ⟨rfl, rfl⟩,
        fun hsound => hsound.push _⟩, fun _ _ hsound hsees => hsees.enter_symbols hsound _⟩
  | raise _ herror =>
    exact ⟨Γ, .expression (herror child (Option.mem_toList.mp hmem)), .refl, fun _ _ _ hsees => hsees⟩

theorem IsExpression.exists_of_mem_nodes (h : IsExpression opts Γ p) (hnode : node ∈ p.nodes) :
    ∃ Γ', IsExpression opts Γ' node := by
  refine Plan.forall_mem_nodes_of_children (P := fun q => ∃ Γ', IsExpression opts Γ' q) ?_ ⟨Γ, h⟩ node hnode
  rintro q ⟨_, hq⟩ child hkid
  obtain ⟨idx, hidx⟩ := getElem?_of_mem hkid
  obtain ⟨Γ', hkid, -⟩ := hq.exists_of_getElem? hidx
  exact ⟨Γ', hkid⟩

theorem IsStatement.exists_of_mem_nodes (h : IsStatement opts Γ p) (hnode : node ∈ p.nodes) :
    ∃ Γ', IsStatement opts Γ' node := by
  refine Plan.forall_mem_nodes_of_children (P := fun q => ∃ Γ', IsStatement opts Γ' q) ?_ ⟨Γ, h⟩ node hnode
  rintro q ⟨_, hq⟩ child hkid
  obtain ⟨idx, hidx⟩ := getElem?_of_mem hkid
  obtain ⟨Γ', hkid, -⟩ := hq.exists_of_getElem? hidx
  exact ⟨Γ', hkid⟩

/-- A property that statements have where they see what is like their setting holds throughout a compiled
statement, if relational overloads take tables or expressions have the property wherever they are. -/
theorem IsStatement.throughout (h : IsStatement opts Γ p)
    (hnode : ∀ {Γ' : Setting} {q : Plan} {visible : List Symbol}, SeesAlike Γ' visible →
      IsStatement opts Γ' q → P q visible)
    (htables : Γ.TakesTables opts.resolution ∨ ∀ {Γ' : Setting} {q : Plan} {visible : List Symbol},
      IsExpression opts Γ' q → P q visible)
    (hsound : Γ.Sound) (hsees : SeesAlike Γ visible) : p.Throughout P visible := by
  induction p using Plan.childInduction generalizing Γ visible with
  | step p ih =>
    by_cases hp : IsExpression opts Γ p → Γ.TakesTables opts.resolution
    · refine Plan.throughout_iff.mpr ⟨hnode hsees h, fun idx child hidx => ?_⟩
      obtain ⟨Γ', hkid, hinside, hshows⟩ := h.exists_of_getElem? hidx
      exact ih child (mem_of_getElem? hidx) hkid (htables.imp_left hinside.takesTables)
        (hinside.sound hsound) (hshows hp visible hsound hsees)
    · obtain ⟨hp, hnot⟩ := Classical.not_imp.mp hp
      refine Plan.throughout_of_forall_mem_nodes fun node hnode _ => ?_
      obtain ⟨_, hnode⟩ := hp.exists_of_mem_nodes hnode
      exact htables.resolve_left hnot hnode

end Relational
