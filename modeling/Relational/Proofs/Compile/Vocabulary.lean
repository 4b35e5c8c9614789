import Relational.Compile.Statement
import Relational.Proofs.Catalog.Operators

/-!
# Vocabularies

A compilation hands types, columns, symbols, conversions, overloads and plans from one step to the next.
What can be said of them is described by predicates, with a rule for each way in which one of them is made
from others. A vocabulary is a choice of such predicates. It may restrict the scalar types that come up,
tell in which setting a plan was compiled, or say nothing at all.
-/

namespace Relational

open List

/-- The heading of the rows of a relational operand by its type. -/
def relationHeading? : Option Ty → Option Heading
  | some (.rows _ columns) => some (some columns)
  | some (.anyRows _) => some none
  | some (.list (.rows .row columns)) => some (some columns)
  | some (.list (.anyRows .row)) => some none
  | _ => none

/-- Whether a construct over so many other expressions, or a table variable, refers to no symbol, brings
none into scope and stores nothing under a type. -/
def Construct.isPlain : Construct → Nat → Bool
  | tableVarReference _, 0 | columnExtractor .., 1 | convert _, 1 | structuralConvert _, 1 | project .., 1
  | rename .., 1 | conditional, 3 | rowSelector _, _ | case, _ => true
  | _, _ => false

/-- The type of the symbol that a construct brings into scope. -/
def Construct.symbolType? : Construct → Option Ty
  | .variable_ _ type _ | .forEach _ type | .tryHandler _ type => type
  | _ => none

variable {cols cs : Columns} {form : Form} {name : String}

theorem mem_caseChildren {p : Plan} {branches : List (Plan × Plan)} {last : Option Plan}
    (h : p ∈ caseChildren branches last) : (∃ branch ∈ branches, p = branch.1 ∨ p = branch.2) ∨ p ∈ last := by
  rcases mem_append.mp h with h | h
  · obtain ⟨branch, hbranch, hp⟩ := mem_flatMap.mp h
    exact Or.inl ⟨branch, hbranch, by simpa using hp⟩
  · exact Or.inr (by simpa using h)

/-- A plan with the conversions of an outcome applied to it. -/
def Plan.applied (position : Position) (context : ConversionContext) (p : Plan) : Plan :=
  if context.isExact then p
  else if context.path.isEmpty then
    make (.structuralConvert context) (some context.target) position [p]
  else convertAlong position context.path p

/-- The arguments for parameters that are passed by reference, from an index on, have a property. -/
def Signature.Refers (R : Plan → Prop) (s : Signature) (start : Nat) (arguments : List Plan) : Prop :=
  ∀ (i : Nat) (p : Plan), arguments[i]? = some p →
    (s[start + i]?).any (·.modifier == .var) → R p

/-- The arguments of a match for parameters that are passed by reference keep a property when they are
converted. -/
def OverloadMatch.Refers (R : Plan → Prop) (m : OverloadMatch) : Prop :=
  ∀ (i : Nat) (fit : ArgumentMatch), m.arguments[i]? = some fit →
    (m.operator.signature[i]?).any (·.modifier == .var) → ∀ context ∈ fit.conversion,
      ∀ (position : Position) (p : Plan), R p → R (p.applied position context)

/-- What is said of types, columns, symbols, operators, objects and conversions. -/
structure TypeVocabulary where
  scalar : ScalarType → Prop
  type : Ty → Prop
  columns : Columns → Prop
  symbol : Symbol → Prop
  operator : Operator → Prop
  object : CatalogObject → Prop
  context : ConversionContext → Prop
  type_scalar : ∀ {s}, scalar s → type (.scalar s)
  type_nil : type .nil
  type_generic : ∀ {kind t}, genericType? kind = some t → type t
  type_anyRow : type (.anyRows .row)
  type_list : ∀ {t}, type (.list t) ↔ type t
  type_rows : ∀ {form cs}, type (.rows form cs) ↔ columns cs
  columns_nil : columns []
  columns_type : ∀ {cs c}, columns cs → c ∈ cs → type c.2
  columns_concat : ∀ {cs name t}, columns cs → ¬cs.has name → type t → columns (cs ++ [(name, t)])
  columns_append : ∀ {cs ds}, columns cs → columns ds → (∀ name ∈ ds.names, name ∉ cs.names) →
    columns (cs ++ ds)
  columns_filter : ∀ {cs} (keep : String × Ty → Bool), columns cs → columns (cs.filter keep)
  columns_rename : ∀ {cs : Columns} {index name}, columns cs → index < cs.length →
    (∀ other ∈ cs.index? name, other = index) → columns (cs.modify index fun c => (name, c.2))
  symbol_row : ∀ {heading : Heading}, type (heading.toTy .row) → symbol (.ofRow heading)
  operator_type : ∀ {op}, operator op → ∀ t ∈ op.returnType, type t
  object_type : ∀ {tv}, object (.tableVar tv) → type tv.type
  context_target : ∀ {c}, context c → type c.target
  context_path : ∀ {c}, context c → ∀ step ∈ c.path, type (.scalar step.target)

/-- What is said of plans as well: of those in the setting, of those in a scope with symbols, of those that
are stored under a type, and of those that are passed by reference. A name designates a symbol at a place, a
conversion is found between two types, a relation has a heading, and the overload of a name takes operands. -/
structure Vocabulary extends TypeVocabulary where
  place : Location → Symbol → Prop
  plan : Plan → Prop
  inner : List Symbol → Plan → Prop
  stored : Ty → Plan → Prop
  reference : Plan → Prop
  between : Ty → Ty → ConversionContext → Prop
  heading : Option Ty → Heading → Prop
  taken : String → List Plan → Operator → List Plan → Prop
  place_type : ∀ {l s}, place l s → ∀ t ∈ s.type, type t
  plan_type : ∀ {p}, plan p → ∀ t ∈ p.type, type t
  plan_literal : ∀ {v t position}, type t → plan (.make (.literal v) (some t) position [])
  plan_symbol : ∀ {l s position}, place l s → l.column = none →
    plan (.make (.stackReference l.name l.index) s.type position [])
  plan_column : ∀ {l s i name t position}, place l s → s.columns[i]? = some (name, t) →
    plan (.make (.stackColumnReference name l.index i) (some t) position [])
  plan_plain : ∀ {construct t position children}, construct.isPlain children.length → (∀ t' ∈ t, type t') →
    (∀ child ∈ children, plan child) → plan (.make construct t position children)
  plan_call : ∀ {op t position children}, (∀ t' ∈ t, type t') → (∀ child ∈ children, plan child) →
    op.signature.Refers reference 0 children → plan (.make (.call op) t position children)
  plan_table : ∀ {cs position rows}, columns cs → (∀ row ∈ rows, stored (.rows .row cs) row) →
    plan (.make .tableSelector (some (.rows .table cs)) position rows)
  plan_list : ∀ {t position elements}, type t → (∀ element ∈ elements, stored t element) →
    plan (.make .listSelector (some (.list t)) position elements)
  plan_restrict : ∀ {source condition h op bound position}, plan source → heading source.type h →
    inner [.ofRow h] condition → taken "iRestrict" [source, condition] op bound →
      plan (.make (.restrict op) (bound.head?.bind (·.type)) position bound)
  plan_extend : ∀ {source h values op bound names cs position}, plan source →
    heading source.type h → (∀ value ∈ values, inner [.ofRow h] value) →
    taken "iExtend" [source] op bound → columns cs →
      plan (.make (.extend op names) (some (.rows .table cs)) position (bound ++ values))
  plan_join : ∀ {left right} {condition : Option Plan} {h h' kind op bound cs position}, plan left →
    plan right → heading left.type h → heading right.type h' →
    (∀ p ∈ condition, inner [.ofRow h, .ofRow h'] p) →
    taken (joinOperator kind) (left :: right :: condition.toList) op bound → columns cs →
      plan (.make (.join op kind) (some (.rows .table cs)) position bound)
  plan_taken : ∀ {construct source name op bound cs position}, construct.isPlain 1 → plan source →
    taken name [source] op bound → columns cs →
      plan (.make construct (some (.rows .table cs)) position bound)
  inner_nil : ∀ {p}, inner [] p → plan p
  inner_type : ∀ {symbols p}, inner symbols p → ∀ t ∈ p.type, type t
  stored_plan : ∀ {t p}, stored t p → plan p
  stored_same : ∀ {s t p}, plan p → p.type = some s → (s.isNil || s.isA t) → stored t p
  stored_applied : ∀ {s t p c} position, plan p → p.type = some s → between s t c → c.check = none →
    stored t (p.applied position c)
  between_context : ∀ {s t c}, between s t c → context c
  heading_of : ∀ {p h}, plan p → relationHeading? p.type = some h → heading p.type h
  heading_type : ∀ {t h}, heading t h → type (h.toTy .row)

namespace TypeVocabulary

variable {T : TypeVocabulary} {heading : Heading}

theorem type_of_columns (h : T.columns cs) : ∀ t ∈ some (Ty.rows form cs), T.type t := by
  rintro _ ⟨⟩
  exact T.type_rows.mpr h

theorem columns_of_toTy (h : T.type (heading.toTy form)) : T.columns heading.columns := by
  cases heading with
  | none => exact T.columns_nil
  | some cols => exact T.type_rows.mp h

theorem columns_rowColumns {type : Ty} (h : T.type type) : T.columns type.rowColumns := by
  cases type with
  | rows form cols =>
    cases form with
    | row => exact T.type_rows.mp h
    | table | cursor => exact T.columns_nil
  | scalar | anyRows | list | anyList | any => exact T.columns_nil

theorem toTy_of_relationHeading? {type : Option Ty} (htype : ∀ t ∈ type, T.type t)
    (h : relationHeading? type = some heading) : T.type (heading.toTy .row) := by
  unfold relationHeading? at h
  split at h
  · cases h
    exact T.type_rows.mpr (T.type_rows.mp (htype _ rfl))
  · cases h
    exact T.type_anyRow
  · cases h
    exact T.type_list.mp (htype _ rfl)
  · cases h
    exact T.type_anyRow
  · cases h

theorem applied_of {P : Plan → Prop} {pos : Position} {ctx : ConversionContext} {p : Plan}
    (hnode : ∀ {con : Construct} {t : Ty} {q : Plan}, con.isPlain 1 → T.type t → P q →
      P (.make con (some t) pos [q])) (hp : P p) (hctx : T.context ctx) : P (p.applied pos ctx) := by
  have hpath := T.context_path hctx
  unfold Plan.applied
  split
  · exact hp
  · split
    · exact hnode rfl (T.context_target hctx) hp
    · unfold Plan.convertAlong
      revert hpath
      generalize ctx.path = path
      induction path generalizing p with
      | nil => exact fun _ => hp
      | cons step path ih =>
        intro hpath
        obtain ⟨hfirst, hrest⟩ := forall_mem_cons.mp hpath
        exact ih (hnode rfl hfirst hp) hrest

/-- A predicate of plans that is said of every node if it is said of its children and the types that it
has and brings into scope are in order. References to symbols need a place, and something may be asked of
arguments that are passed by reference. -/
structure IsPlanning (T : TypeVocabulary) (place : Location → Symbol → Prop) (plan : Plan → Prop)
    (reference : Plan → Prop := fun _ => True) : Prop where
  place_type : ∀ {l s}, place l s → ∀ t ∈ s.type, T.type t
  plan_type : ∀ {p}, plan p → ∀ t ∈ p.type, T.type t
  plan_symbol : ∀ {l s position}, place l s → l.column = none →
    plan (.make (.stackReference l.name l.index) s.type position [])
  plan_node : ∀ {construct t position children},
    construct.kind ≠ .stackReference ∧ construct.kind ≠ .call →
    (∀ t' ∈ construct.symbolType?, T.type t') → (∀ t' ∈ t, T.type t') →
    (∀ child ∈ children, plan child) → plan (.make construct t position children)
  plan_call : ∀ {op t position children}, (∀ t' ∈ t, T.type t') → (∀ child ∈ children, plan child) →
    op.signature.Refers reference 0 children → plan (.make (.call op) t position children)
  plan_asTable : ∀ {position p table}, plan p → asTable? position p = some table → plan table

namespace IsPlanning

variable {place : Location → Symbol → Prop} {plan reference : Plan → Prop}
  (h : T.IsPlanning place plan reference) {con : Construct} {pos : Position} {children : List Plan}

include h

theorem plan_plain {t : Option Ty} {n : Nat} (hplain : con.isPlain n) (ht : ∀ t' ∈ t, T.type t')
    (hkids : ∀ child ∈ children, plan child) : plan (.make con t pos children) := by
  refine h.plan_node ?_ ?_ ht hkids
  all_goals cases con <;> simp_all [Construct.isPlain, Construct.kind, Construct.symbolType?]

theorem plan_relation (hkind : con.kind ≠ .stackReference ∧ con.kind ≠ .call)
    (hsym : con.symbolType? = none) (hcs : T.columns cs) (hkids : ∀ child ∈ children, plan child) :
    plan (.make con (some (.rows .table cs)) pos children) :=
  h.plan_node hkind (by simp [hsym]) (T.type_of_columns hcs) hkids

end IsPlanning

end TypeVocabulary

namespace Vocabulary

/-- A vocabulary that says the same of plans wherever they are compiled and whatever they are for. -/
structure IsUniform (V : Vocabulary) : Prop where
  planning : V.IsPlanning V.place V.plan V.reference
  inner_iff : ∀ {symbols p}, V.inner symbols p ↔ V.plan p
  taken : ∀ {name operands op bound}, V.operator op → (∀ p ∈ bound, V.plan p) →
    V.taken name operands op bound

theorem IsUniform.noOp {V : Vocabulary} (h : V.IsUniform) (pos : Position) : V.plan (.noOp pos) :=
  h.planning.plan_node (by simp [Construct.kind]) (by simp [Construct.symbolType?]) (by simp) (by simp)

/-- The vocabulary of a predicate of plans. -/
def uniform {T : TypeVocabulary} {place : Location → Symbol → Prop} {plan reference : Plan → Prop}
    (h : T.IsPlanning place plan reference) : Vocabulary where
  toTypeVocabulary := T
  place := place
  plan := plan
  inner _ := plan
  stored _ := plan
  reference := reference
  between _ _ := T.context
  heading _ h := T.type (h.toTy .row)
  taken _ _ op bound := T.operator op ∧ ∀ p ∈ bound, plan p
  place_type := h.place_type
  plan_type := h.plan_type
  plan_literal ht := h.plan_node (by simp [Construct.kind]) (by simp [Construct.symbolType?])
    (by simpa using ht) (by simp)
  plan_symbol := h.plan_symbol
  plan_column hplace hcol := by
    refine h.plan_node (by simp [Construct.kind]) (by simp [Construct.symbolType?]) ?_ (by simp)
    rintro _ ⟨⟩
    unfold Symbol.columns at hcol
    split at hcol
    · rename_i type htype
      exact T.columns_type (T.columns_rowColumns (h.place_type hplace type htype))
        (List.mem_of_getElem? hcol)
    · cases hcol
  plan_plain := h.plan_plain
  plan_call := h.plan_call
  plan_table hcs hrows := h.plan_relation (by simp [Construct.kind]) rfl hcs hrows
  plan_list ht helements := h.plan_node (by simp [Construct.kind]) (by simp [Construct.symbolType?])
    (by simpa using T.type_list.mpr ht) helements
  plan_restrict _ _ _ htaken := by
    refine h.plan_node (by simp [Construct.kind]) (by simp [Construct.symbolType?]) ?_ htaken.2
    intro type htype
    obtain ⟨first, hfirst, hsome⟩ := Option.bind_eq_some_iff.mp htype
    exact h.plan_type (htaken.2 first (List.mem_of_mem_head? hfirst)) type hsome
  plan_extend _ _ hvals htaken hcs := h.plan_relation (by simp [Construct.kind]) rfl hcs
    (List.forall_mem_append.mpr ⟨htaken.2, hvals⟩)
  plan_join _ _ _ _ _ htaken hcs := h.plan_relation (by simp [Construct.kind]) rfl hcs htaken.2
  plan_taken hplain _ htaken hcs := h.plan_plain hplain (T.type_of_columns hcs) htaken.2
  inner_nil := id
  inner_type := h.plan_type
  stored_plan := id
  stored_same hp _ _ := hp
  stored_applied _ hp _ hctx _ := T.applied_of
    (fun hplain ht hq => h.plan_plain hplain (by simpa using ht) (by simpa using hq)) hp hctx
  between_context := id
  heading_of hp hhead := T.toTy_of_relationHeading? (h.plan_type hp) hhead
  heading_type := id

theorem isUniform_uniform {T : TypeVocabulary} {place : Location → Symbol → Prop}
    {plan reference : Plan → Prop} (h : T.IsPlanning place plan reference) : (uniform h).IsUniform :=
  ⟨h, .rfl, And.intro⟩

/-- What is said of types if nothing is. -/
def allTypes : TypeVocabulary where
  scalar _ := True
  type _ := True
  columns _ := True
  symbol _ := True
  operator _ := True
  object _ := True
  context _ := True
  type_list := .rfl
  type_rows := .rfl
  type_scalar _ := trivial
  type_nil := trivial
  type_generic _ := trivial
  type_anyRow := trivial
  columns_nil := trivial
  columns_type _ _ := trivial
  columns_concat _ _ _ := trivial
  columns_append _ _ _ := trivial
  columns_filter _ _ := trivial
  columns_rename _ _ _ := trivial
  symbol_row _ := trivial
  operator_type _ _ _ := trivial
  object_type _ := trivial
  context_target _ := trivial
  context_path _ _ _ := trivial

theorem isPlanning_allTypes : allTypes.IsPlanning (fun _ _ => True) fun _ => True where
  place_type _ _ _ := trivial
  plan_type _ _ _ := trivial
  plan_symbol _ _ := trivial
  plan_node _ _ _ _ := trivial
  plan_call _ _ _ := trivial
  plan_asTable _ _ := trivial

/-- The vocabulary without restrictions. -/
def all : Vocabulary :=
  uniform isPlanning_allTypes

/-! ### Restricted scalar types -/

theorem scalars_rows {scalar : ScalarType → Prop} : (∀ s ∈ (Ty.rows form cols).scalars, scalar s) ↔
      ∀ col ∈ cols, ∀ s ∈ col.2.scalars, scalar s := by
  simp only [Ty.scalars, mem_columnScalars]
  constructor
  · exact fun h col hcol s hs => h s ⟨col, hcol, hs⟩
  · rintro h s ⟨col, hcol, hs⟩
    exact h col hcol s hs

section Scalars

variable (scalar : ScalarType → Prop) (refers : Prop) (hnil : scalar .nil) (hany : scalar .any)

/-- Types over scalar types of a kind, among them that of the nil value and the generic one. Symbols with
names are variables, which there may be or not. -/
def scalarTypes : TypeVocabulary where
  scalar := scalar
  type t := ∀ s ∈ t.scalars, scalar s
  columns cs := ∀ c ∈ cs, ∀ s ∈ c.2.scalars, scalar s
  symbol symbol := (∀ t ∈ symbol.type, ∀ s ∈ t.scalars, scalar s) ∧ (symbol.name ≠ "" → refers)
  operator op := ∀ t ∈ op.returnType, ∀ s ∈ t.scalars, scalar s
  object
    | .scalarType s => scalar s
    | .tableVar tv => ∀ s ∈ tv.type.scalars, scalar s
  context c := (∀ s ∈ c.target.scalars, scalar s) ∧ ∀ step ∈ c.path, scalar step.target
  type_scalar h := List.forall_mem_singleton.mpr h
  type_nil := List.forall_mem_singleton.mpr hnil
  type_generic h := by
    unfold genericType? at h
    split at h
    case h_2 =>
      cases h
      exact List.forall_mem_singleton.mpr hany
    all_goals
      cases h
      try exact fun _ hs => absurd hs List.not_mem_nil
  type_anyRow _ hs := absurd hs List.not_mem_nil
  type_list := .rfl
  type_rows := scalars_rows
  columns_nil _ hc := absurd hc List.not_mem_nil
  columns_type h hc := h _ hc
  columns_concat h _ ht := List.forall_mem_append.mpr ⟨h, List.forall_mem_singleton.mpr ht⟩
  columns_append h h' _ := List.forall_mem_append.mpr ⟨h, h'⟩
  columns_filter _ h c hc := h c (List.mem_of_mem_filter hc)
  columns_rename h _ _ column hcol := by
    obtain ⟨i, hi⟩ := List.mem_iff_getElem?.mp hcol
    rw [List.getElem?_modify] at hi
    obtain ⟨old, hold, rfl⟩ := Option.map_eq_some_iff.mp hi
    have hscalars := h old (List.mem_of_getElem? hold)
    split
    all_goals exact hscalars
  symbol_row h := ⟨fun _ ht => Option.some.inj ht ▸ h, fun hname => absurd rfl hname⟩
  operator_type := id
  object_type := id
  context_target h := h.1
  context_path h step hstep := List.forall_mem_singleton.mpr (h.2 step hstep)

theorem isPlanning_scalarTypes : (scalarTypes scalar refers hnil hany).IsPlanning
    (fun l sym => (scalarTypes scalar refers hnil hany).symbol sym ∧ (l.column = none → refers))
    (fun p => (∀ t ∈ p.type, ∀ s ∈ t.scalars, scalar s) ∧ (p.kind = .stackReference → refers)) where
  place_type h := h.1.1
  plan_type h := h.1
  plan_symbol h hcol := ⟨h.1.1, fun _ => h.2 hcol⟩
  plan_node hkind _ ht _ := ⟨ht, fun heq => absurd heq hkind.1⟩
  plan_call ht _ _ := ⟨ht, fun heq => by cases heq⟩
  plan_asTable {pos p table} hp htable := by
    unfold asTable? at htable
    split at htable
    · rename_i cols htype
      cases htable
      refine ⟨?_, fun heq => by cases heq⟩
      rintro _ ⟨⟩
      exact scalars_rows.mpr (scalars_rows.mp (hp.1 _ htype))
    · rename_i element htype _
      split at htable
      · cases htable
        refine ⟨?_, fun heq => by cases heq⟩
        rintro _ ⟨⟩
        have helement : ∀ s ∈ element.scalars, scalar s := hp.1 (.list element) htype
        exact scalars_rows.mpr ((scalarTypes scalar refers hnil hany).columns_rowColumns helement)
      · cases htable
    · cases htable

/-- The vocabulary of scalar types of a kind. -/
def ofScalars : Vocabulary :=
  uniform (isPlanning_scalarTypes scalar refers hnil hany)

end Scalars

end Vocabulary

/-! ### What is handed on -/

/-- What may be said of values of a type. -/
class Expressible (α : Type) where
  expressed : Vocabulary → α → Prop
  expressed_all : ∀ value, expressed .all value

/-- What the vocabulary says of a value. -/
def Vocabulary.Expresses {α : Type} [Expressible α] (V : Vocabulary) (value : α) : Prop :=
  Expressible.expressed V value

theorem Vocabulary.expresses_all {α : Type} [Expressible α] (val : α) : Vocabulary.all.Expresses val :=
  Expressible.expressed_all val

section Instances

instance : Expressible PUnit := ⟨fun _ _ => True, fun _ => trivial⟩

instance : Expressible String := ⟨fun _ _ => True, fun _ => trivial⟩

instance : Expressible Position := ⟨fun _ _ => True, fun _ => trivial⟩

instance : Expressible Location := ⟨fun _ _ => True, fun _ => trivial⟩

instance : Expressible ScalarType := ⟨fun V => V.scalar, fun _ => trivial⟩

instance : Expressible Ty := ⟨fun V => V.type, fun _ => trivial⟩

instance {α : Type} [Expressible α] : Expressible (Option α) :=
  ⟨fun V option => ∀ value ∈ option, V.Expresses value, fun _ value _ => Vocabulary.expresses_all value⟩

instance {α : Type} [Expressible α] : Expressible (List α) :=
  ⟨fun V list => ∀ value ∈ list, V.Expresses value, fun _ value _ => Vocabulary.expresses_all value⟩

instance {α β : Type} [Expressible α] [Expressible β] : Expressible (α × β) :=
  ⟨fun V pair => V.Expresses pair.1 ∧ V.Expresses pair.2, fun pair =>
    ⟨Vocabulary.expresses_all pair.1, Vocabulary.expresses_all pair.2⟩⟩

instance : Expressible (List (String × Ty)) := ⟨fun V => V.columns, fun _ => trivial⟩

instance : Expressible Plan := ⟨fun V => V.plan, fun _ => trivial⟩

instance : Expressible Symbol := ⟨fun V => V.symbol, fun _ => trivial⟩

instance : Expressible Operator := ⟨fun V => V.operator, fun _ => trivial⟩

instance : Expressible ConversionContext := ⟨fun V => V.context, fun _ => trivial⟩

instance : Expressible ArgumentMatch :=
  ⟨fun V fit => V.Expresses fit.conversion, fun fit => Vocabulary.expresses_all fit.conversion⟩

instance : Expressible OverloadMatch :=
  ⟨fun V found => V.Expresses found.operator ∧ V.Expresses found.arguments ∧ found.Refers V.reference,
    fun found => ⟨Vocabulary.expresses_all found.operator, Vocabulary.expresses_all found.arguments,
      fun _ _ _ _ _ _ _ _ _ => trivial⟩⟩

instance : Expressible CatalogObject := ⟨fun V => V.object, fun _ => trivial⟩

/-- What is said of what a name designates. -/
def ResolvedName.expressed (V : Vocabulary) : ResolvedName → Prop
  | .symbol location found _ => V.place location found
  | .object found => V.object found

instance : Expressible ResolvedName := ⟨ResolvedName.expressed, fun found => by
  cases found with
  | symbol | object => exact trivial⟩

/-- What is said of plans in a scope with symbols. -/
abbrev Expressible.inner (symbols : List Symbol) : Expressible Plan :=
  ⟨fun V => V.inner symbols, fun _ => trivial⟩

/-- What is said of plans that are stored under a type. -/
abbrev Expressible.stored (type : Ty) : Expressible Plan :=
  ⟨fun V => V.stored type, fun _ => trivial⟩

/-- What is said of plans that are all stored under a type. -/
abbrev Expressible.allStored (type : Ty) : Expressible (List Plan) :=
  letI := stored type
  inferInstance

/-- What is said of a conversion between two types. -/
abbrev Expressible.between (source target : Ty) : Expressible ConversionContext :=
  ⟨fun V => V.between source target, fun _ => trivial⟩

/-- What is said of the heading of a relation with a type. -/
abbrev Expressible.heading (type : Option Ty) : Expressible Heading :=
  ⟨fun V => V.heading type, fun _ => trivial⟩

/-- What is said of the headings of two kinds of rows. -/
abbrev Expressible.headings : Expressible (Heading × Heading) :=
  ⟨fun V both => V.type (both.1.toTy .row) ∧ V.type (both.2.toTy .row), fun _ => ⟨trivial, trivial⟩⟩

/-- What is said of the overload of a name and the operands that it takes. -/
abbrev Expressible.taken (name : String) (operands : List Plan) : Expressible (Operator × List Plan) :=
  ⟨fun V result => V.taken name operands result.1 result.2, fun _ => ⟨trivial, fun _ _ => trivial⟩⟩

/-- What is said of a plan after it was checked that it may be passed by reference. -/
abbrev Expressible.reference (argument : Plan) : Expressible PUnit :=
  ⟨fun V _ => V.reference argument, fun _ => trivial⟩

/-- What is said of an argument for a parameter. -/
abbrev Expressible.argument (parameter : Option Parameter) : Expressible Plan :=
  ⟨fun V p => V.plan p ∧ (parameter.any (·.modifier == .var) → V.reference p),
    fun _ => ⟨trivial, fun _ => trivial⟩⟩

/-- What is said of the arguments for the parameters from an index on. -/
abbrev Expressible.arguments (signature : Signature) (start : Nat) : Expressible (List Plan) :=
  ⟨fun V ps => (∀ p ∈ ps, V.plan p) ∧ signature.Refers V.reference start ps,
    fun _ => ⟨fun _ _ => trivial, fun _ _ _ _ => trivial⟩⟩

/-- What is said of the values of columns after those that are done, compiled in a scope with symbols. -/
abbrev Expressible.values (symbols : List Symbol) (done : Columns) :
    Expressible (List (String × Ty × Plan)) :=
  ⟨fun V values => V.columns (done ++ values.map fun (name, type, _) => (name, type)) ∧
    ∀ value ∈ values, V.inner symbols value.2.2, fun _ => ⟨trivial, fun _ _ => trivial⟩⟩

end Instances

namespace Vocabulary

variable {V : Vocabulary}

section Collections

variable {α : Type} {A : Expressible α}

theorem expresses_none : V.Expresses (none : Option α) :=
  fun _ h => absurd h (by simp)

theorem expresses_some {val : α} (h : V.Expresses val) : V.Expresses (some val) := by
  rintro _ ⟨⟩
  exact h

theorem expresses_position (pos : Option Position) : V.Expresses pos :=
  fun _ _ => trivial

theorem expresses_nil : V.Expresses ([] : List α) :=
  fun _ h => absurd h not_mem_nil

theorem expresses_cons {val : α} {list : List α} (h : V.Expresses val) (hlist : V.Expresses list) :
    V.Expresses (val :: list) :=
  forall_mem_cons.mpr ⟨h, hlist⟩

end Collections

theorem expresses_asTables? (hV : V.IsUniform) {pos : Position} {plans tables : List Plan}
    (h : V.Expresses plans) (htables : asTables? pos plans = some tables) : V.Expresses tables := by
  unfold asTables? at htables
  split at htables
  · cases htables
    intro table htable
    obtain ⟨p, hp, rfl⟩ := mem_map.mp htable
    cases hsome : asTable? pos p with
    | none => exact h p hp
    | some table => exact hV.planning.plan_asTable (h p hp) hsome
  · cases htables

end Vocabulary

end Relational
