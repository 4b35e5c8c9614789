import Relational.Proofs.Compile.Program
import Relational.Proofs.Compile.Upkeep
import Relational.Proofs.Optimize.Congruence

/-!
# What a program writes to

An assignment writes to its target, and a call may write to what is passed by reference. Where an inspection
comes to them, the target and the arguments are variables in scope. An argument that is passed by reference
is not converted: overloads are matched so, and remembered matches are matches that were found before.
-/

namespace Relational

open Compiling

variable {opts : CompilerOptions} {Γ : Setting} {p : Plan} {visible : List Symbol} {op : Operator}

/-! ### References -/

/-- A reference to a symbol. -/
def Plan.IsReference (p : Plan) : Prop :=
  ∃ name index, p.construct = .stackReference name index

/-- All calls in a plan are passed references to symbols where they take arguments by reference. -/
def Plan.PassesReferences (p : Plan) : Prop :=
  ∀ node ∈ p.nodes, ∀ op, node.construct = .call op →
    op.signature.Refers Plan.IsReference 0 node.children

/-- Nothing is said of types, and conversions leave out what is passed by reference. -/
def referenceHoldings : Holdings :=
  { Holdings.all with references := True }

namespace Plan

variable {con : Construct} {type : Option Ty} {pos : Position} {children : List Plan}

theorem passesReferences_make (hcon : con.kind ≠ .call) (hkids : ∀ child ∈ children, child.PassesReferences) :
    (make con type pos children).PassesReferences :=
  forall_mem_nodes.mpr ⟨fun _ hop => (hcon (congrArg Construct.kind hop)).elim, hkids⟩

theorem passesReferences_call (hkids : ∀ child ∈ children, child.PassesReferences)
    (hrefers : op.signature.Refers IsReference 0 children) :
    (make (.call op) type pos children).PassesReferences := by
  refine forall_mem_nodes.mpr ⟨fun other hother => ?_, hkids⟩
  cases hother
  exact hrefers

theorem PassesReferences.child (h : p.PassesReferences) : ∀ child ∈ p.children, child.PassesReferences :=
  fun child hkid node hnode => h node (mem_nodes.mpr (.inr ⟨child, hkid, hnode⟩))

theorem PassesReferences.asTable? {table : Plan} (h : p.PassesReferences)
    (htable : Relational.asTable? pos p = some table) : table.PassesReferences := by
  unfold Relational.asTable? at htable
  split at htable
  · cases htable
    exact passesReferences_make (by simp [Construct.kind]) (by simpa using h)
  · split at htable
    · cases htable
      exact passesReferences_make (by simp [Construct.kind]) h.child
    · cases htable
  · cases htable

end Plan

theorem isPlanning_passesReferences : Vocabulary.allTypes.IsPlanning (fun _ _ => True)
    Plan.PassesReferences Plan.IsReference where
  place_type _ _ _ := trivial
  plan_type _ _ _ := trivial
  plan_symbol _ _ := Plan.passesReferences_make (by simp [Construct.kind]) (by simp)
  plan_node hkind _ _ := Plan.passesReferences_make hkind.2
  plan_call _ := Plan.passesReferences_call
  plan_asTable := .asTable?

theorem describes_passesReferences : referenceHoldings.Describes (.uniform isPlanning_passesReferences) where
  uniform := Vocabulary.isUniform_uniform _
  scalar _ := trivial
  type := id
  symbol := ⟨fun _ _ _ => trivial, fun _ => trivial⟩
  place _ _ _ := trivial
  object _ := trivial
  between _ := trivial
  found hfits := by
    refine ⟨trivial, fun _ _ _ _ => trivial, fun i fit hfit hvar ctx hctx => ?_⟩
    rw [hfits.references trivial i fit hfit hvar] at hctx
    cases hctx
  reference hcon := ⟨_, _, hcon⟩

/-! ### Targets -/

/-- A node that writes to variables in scope only: the target of an assignment is one and no column of a row,
and so is what a call is passed by reference. -/
structure Plan.WritesIn (visible : List Symbol) (p : Plan) : Prop where
  target : ∀ location, p.construct = .assignment location →
    location.column = none ∧ IsVariableAt visible location.index
  arguments : ∀ op, p.construct = .call op → op.signature.Refers (fun argument =>
    ∃ name index, argument.construct = .stackReference name index ∧ IsVariableAt visible index) 0 p.children

theorem IsExpression.refers (h : IsExpression opts Γ p) (hsees : SeesAlike Γ visible)
    (hop : p.construct = .call op) : op.signature.Refers (Plan.WritesAt visible) 0 p.children := by
  cases h with
  | plain hplain =>
    cases hop
    cases hplain
  | call _ hrefers =>
    cases hop
    exact fun i arg harg hvar name idx hcon =>
      (hrefers i arg harg hvar name idx hcon).alike hsees
  | literal | table | list | symbol | column | restrict | extend | join => cases hop

theorem IsStatement.writesIn (h : IsStatement opts Γ p) (hsees : SeesAlike Γ visible) :
    (∀ location, p.construct = .assignment location →
      location.column = none ∧ IsVariableAt visible location.index) ∧
    ∀ op, p.construct = .call op → op.signature.Refers (Plan.WritesAt visible) 0 p.children := by
  cases h with
  | expression h =>
    refine ⟨fun location hcon => ?_, fun op => h.refers hsees⟩
    cases h with
    | plain hplain =>
      cases hcon
      cases hplain
    | call | literal | table | list | symbol | column | restrict | extend | join => cases hcon
  | assignment hsym _ hnamed hconst _ _ hcol =>
    refine ⟨fun location hcon => ?_, fun op hcon => by cases hcon⟩
    cases hcon
    exact ⟨hcol, .alike ⟨_, hsym, hnamed, hconst⟩ hsees⟩
  | noOp | block | declaration | conditional | case | whileLoop | forEach | breakLoop | continueLoop
  | tryHandler | raise =>
    refine ⟨fun _ hcon => ?_, fun _ hcon => ?_⟩
    all_goals cases hcon

/-! ### Programs -/

/-- The remembered matches of a workspace leave what is passed by reference as it is. -/
def Workspace.RemembersReferences (w : Workspace) : Prop :=
  ∀ cache ∈ w.operatorCache, ∀ entry ∈ cache.entries, entry.2.found.PassesReferences

theorem Workspace.holds_referenceHoldings_iff {w : Workspace} :
    w.Holds referenceHoldings ↔ w.RemembersReferences := by
  constructor
  · exact fun h cache hcache entry hentry => (h.matched cache hcache entry hentry).references trivial
  · refine fun h => ⟨⟨fun entry _ => ?_, fun _ _ _ _ => trivial, fun _ _ _ _ => trivial⟩,
      fun _ _ _ _ => trivial, fun cache hcache entry hentry => ?_⟩
    · cases entry.2 with
      | scalarType | tableVar => trivial
    · exact ⟨trivial, fun _ _ _ _ => trivial, fun _ => h cache hcache entry hentry⟩

namespace Builder

variable {c : Compiler} {statement : Stmt} {b b' : Builder}

/-- Where the names of relational operators lead to overloads that take tables, a program that is compiled
from an empty stack writes to variables only, which are in scope where an inspection comes to the writes. What
is remembered in the end is as it was presupposed. -/
theorem writesIn_of_build (hsymbols : b.stack.symbols = []) (hwindows : b.stack.windows = [])
    (hframes : b.stack.frameCount = 0)
    (htables : ∀ entry ∈ rowOperators, ∀ sources,
      (findOverloads c.options.resolution b.scope entry.1 b.workspace).1 = .ok sources →
        ∀ source ∈ sources, ∀ op ∈ source.overloads.operators, op.takesTables entry.2)
    (hremembers : b.workspace.RemembersReferences) (h : build c statement b = (.ok p, b')) :
    (∀ visit ∈ p.visits {}, visit.1.WritesIn visit.2.visible) ∧ b'.workspace.RemembersReferences := by
  have hb : b.Holds referenceHoldings :=
    ⟨Workspace.holds_referenceHoldings_iff.mpr hremembers, fun _ _ _ _ => trivial, fun _ _ _ _ => trivial⟩
  obtain ⟨hb', hp⟩ := hb.build describes_passesReferences h
  have hwrites := forall_visits_of_takesTables hsymbols hwindows hframes htables h
    fun hsees hq => IsStatement.writesIn hq hsees
  have hreferences := Plan.forall_mem_visits (s := {}) (by simp [Stack.Sound])
    (Plan.throughout_of_forall_mem_nodes fun node hnode _ => hp node hnode)
  refine ⟨fun visit hvisit => ⟨(hwrites visit hvisit).1, fun op hop i argument hargument hvar => ?_⟩,
    Workspace.holds_referenceHoldings_iff.mp hb'.holds⟩
  obtain ⟨name, index, hconstruct⟩ := hreferences visit hvisit op hop i argument hargument hvar
  exact ⟨name, index, hconstruct,
    (hwrites visit hvisit).2 op hop i argument hargument hvar name index hconstruct⟩

/-- A catalog with the relational operators, an operator `f` that takes an argument by reference, and an
operator `any` that takes operands of any type. -/
def writingCatalog : Catalog :=
  let writing : Operator := { serial := 8, name := "f", signature := [{ type := .any, modifier := .var }]
                              returnType := some (.scalar truthValues) }
  { relationalCatalog (.anyRows .table) with
    operators := [("f", { name := "f", operators := [writing] }), tableOperator 9 "any" [.any, .any]] ++
      (relationalCatalog (.anyRows .table)).operators }

/-- A program that declares a constant and a variable first. -/
def declaringProgram (statements : List Stmt) : Stmt :=
  .block .none
    ([.declaration .none "c" .missing (.literal .none (.boolean true) "") true,
      .declaration .none "v" .missing (.literal .none (.boolean true) "") false] ++ statements)

/-- A call that may write to the variable. -/
def writingCall : Expr :=
  .call .none "f" [.identifier .none "v"]

/-- The variable is written to by an assignment and by a call. -/
def writingProgram : Stmt :=
  declaringProgram [.assignment .none "V" (.identifier .none "c"), .expression .none writingCall]

/-- The rows of a list for which the call is true. -/
def listWritingProgram : Stmt :=
  declaringProgram [.expression .none (.restrict .none (.list .none [trueRow "a"] .missing) writingCall)]

/-- A workspace in which relational operators of the catalog take tables, but restrictions go by an alias. -/
def aliasingWorkspace : Workspace :=
  { catalog := writingCatalog, session := some { operators := [("iRestrict", "any")] } }

/-- Whether a call is passed a constant where it takes its first argument by reference. -/
def passesConstant (p : Plan) (visible : List Symbol) : Bool :=
  match p.construct, p.children with
  | .call op, ⟨.stackReference _ index, _, _, _, _, _⟩ :: _ =>
    (op.signature[0]?).any (·.modifier == .var) && (visible[index]?).any (·.isConstant)
  | _, _ => false

theorem not_writesIn_of_passesConstant (h : passesConstant p visible) : ¬ p.WritesIn visible := by
  intro hwrites
  unfold passesConstant at h
  split at h
  · rename_i op name index _ _ _ _ _ rest hcon hkids
    rw [Bool.and_eq_true] at h
    obtain ⟨_, _, hcon', symbol, hsymbol, -, hconstant⟩ :=
      hwrites.arguments op hcon 0 _ (by rw [hkids]; rfl) h.1
    cases hcon'
    rw [hsymbol, Option.any_some, hconstant] at h
    cases h.2
  · cases h

theorem writesIn_of_build_call : ∃ p b',
    build {} writingProgram (.start {} { catalog := writingCatalog }) = (.ok p, b') ∧
      (p.visits {}).map (·.1.kind) = [.block, .variable_, .literal, .variable_, .literal, .assignment,
        .stackReference, .call, .stackReference] ∧
      ∀ visit ∈ p.visits {}, visit.1.WritesIn visit.2.visible := by
  have hbuild : (build {} writingProgram (.start {} { catalog := writingCatalog })).1.toOption.any fun p =>
      (p.visits {}).map (·.1.kind) = [.block, .variable_, .literal, .variable_, .literal, .assignment,
        .stackReference, .call, .stackReference] := by decide +kernel
  have htables : rowOperators.all (overloadsTakeTables {} {} { catalog := writingCatalog }) := by
    decide +kernel
  obtain ⟨p, b', h, hkinds⟩ := exists_build_of_any hbuild
  refine ⟨p, b', h, of_decide_eq_true hkinds, (writesIn_of_build rfl rfl rfl ?_ ?_ h).1⟩
  · exact takesTables_of_all htables
  · rintro cache ⟨⟩

/-- With an alias of the session for overloads that take lists, a call in the condition of a restriction may
write to a constant, whatever the relational operators of the catalog take. -/
theorem exists_build_not_writesIn :
    ∃ c statement b p b', b.stack.symbols = [] ∧ b.stack.windows = [] ∧ b.stack.frameCount = 0 ∧
      (∀ entry ∈ rowOperators, ∀ sources,
        (findOverloads c.options.resolution b.scope entry.1 { b.workspace with session := none }).1 =
            .ok sources →
          ∀ source ∈ sources, ∀ op ∈ source.overloads.operators, op.takesTables entry.2) ∧
      b.workspace.RemembersReferences ∧ build c statement b = (.ok p, b') ∧
      ∃ visit ∈ p.visits {}, ¬ visit.1.WritesIn visit.2.visible := by
  have hbuild : (build {} listWritingProgram (.start {} aliasingWorkspace)).1.toOption.any fun p =>
      (p.visits {}).any fun visit => passesConstant visit.1 visit.2.visible := by decide +kernel
  have htables : rowOperators.all (overloadsTakeTables {} {} { aliasingWorkspace with session := none }) := by
    decide +kernel
  obtain ⟨p, b', h, hpasses⟩ := exists_build_of_any hbuild
  obtain ⟨visit, hvisit, hpass⟩ := List.any_eq_true.mp hpasses
  refine ⟨{}, listWritingProgram, _, p, b', rfl, rfl, rfl, ?_, ?_, h, visit, hvisit,
    not_writesIn_of_passesConstant hpass⟩
  · exact takesTables_of_all htables
  · rintro cache ⟨⟩

end Builder

end Relational
