import Relational.Plan.Node
import Relational.Text.Outline

/-!
# The text of plans

A plan is written as an outline, a line for each node: what the construct is, its names, its type, and
for relational nodes the device and the access path that the optimizer chose.
-/

namespace Relational

namespace Plan

def relationalHeader (name detail : String) (annotations : Annotations) : String :=
  name ++ (if detail = "" then "" else "(" ++ detail ++ ")") ++
    (if annotations.device = "" then "" else " on " ++ annotations.device) ++
    (if annotations.accessPath = .unknown then "" else " [" ++ annotations.accessPath.text ++ "]")

def literalText (value : Value) (type : Option Ty) : String :=
  match value with
  | .nil => "nil"
  | .text s => Text.quote s ++ ": " ++ typeText type
  | value => value.toText ++ ": " ++ typeText type

/-- How a join is described: natural when it has no condition, across the copies of a transaction when
it is marked so. -/
def joinText (kind : JoinKind) (arity : Nat) (annotations : Annotations) : String :=
  (if arity = 2 then "natural " else "") ++ kind.text ++
    (if annotations.isTransactionJoin then ", transaction" else "")

def header (p : Plan) : String :=
  let type := typeText p.type
  match p.construct with
  | .noOp => "NoOp"
  | .block => "Block"
  | .variable_ name type isConstant =>
    (if isConstant then "Const " else "Var ") ++ name ++ ": " ++ typeText type
  | .assignment target => "Assign " ++ target.name ++ "[" ++ toString target.index ++ "]"
  | .conditional => "If"
  | .case => "Case"
  | .whileLoop => "While"
  | .forEach name type => "ForEach " ++ name ++ ": " ++ typeText type
  | .breakLoop => "Break"
  | .continueLoop => "Continue"
  | .tryHandler name errorType =>
    if name = "" then "Try" else "Try except " ++ name ++ ": " ++ typeText errorType
  | .raise => if p.children.isEmpty then "Reraise" else "Raise"
  | .literal value => literalText value p.type
  | .stackReference name index => name ++ "[" ++ toString index ++ "]: " ++ type
  | .stackColumnReference name index column =>
    name ++ "[" ++ toString index ++ "." ++ toString column ++ "]: " ++ type
  | .columnExtractor column _ => "Column " ++ column ++ ": " ++ type
  | .tableVarReference tv => "TableVar(" ++ tv.name ++ ")"
  | .call op => "Call " ++ op.text ++ ": " ++ (p.type.map Ty.text).getD "<none>"
  | .convert conversion => "Convert " ++ conversion.text
  | .structuralConvert context =>
    "StructuralConvert " ++ context.source.text ++ " to " ++ context.target.text
  | .rowSelector columns => "Row(" ++ ", ".intercalate columns ++ ")"
  | .tableSelector => "Table: " ++ type
  | .listSelector => "List: " ++ type
  | .restrict _ => relationalHeader "Restrict" "" p.annotations
  | .project _ columns => relationalHeader "Project" (", ".intercalate columns) p.annotations
  | .rename _ columns =>
    relationalHeader "Rename"
      (", ".intercalate (columns.map fun (old, new) => old ++ " as " ++ new)) p.annotations
  | .extend _ names => relationalHeader "Extend" (", ".intercalate names) p.annotations
  | .join _ kind =>
    relationalHeader "Join" (joinText kind p.children.length p.annotations) p.annotations

/-- The outlines of the branches of a case from those of its children. -/
def caseOutlines : List String → List String
  | [] => []
  | [last] => [Outline.render "Else" [last]]
  | condition :: branch :: rest => Outline.render "When" [condition, branch] :: caseOutlines rest

/-- The outline of a node from those of its children. -/
def outline (p : Plan) (children : List String) : String :=
  match p.construct with
  | .case => Outline.render p.header (caseOutlines children)
  | _ => Outline.render p.header children

mutual

def text : Plan → String
  | ⟨construct, type, characteristics, position, annotations, children⟩ =>
    outline ⟨construct, type, characteristics, position, annotations, children⟩ (texts children)

def texts : List Plan → List String
  | [] => []
  | p :: ps => p.text :: texts ps

end

end Plan

/-- What is told about a construct beside its kind. -/
def Construct.remark : Construct → String
  | .literal value => value.typeName
  | .restrict op | .project op _ | .rename op _ | .extend op _ | .join op _ => op.text
  | .convert conversion => (conversion.operator.map Operator.text).getD ""
  | .structuralConvert context => context.text
  | .columnExtractor _ index => toString index
  | .tryHandler _ errorType => (errorType.map Ty.text).getD ""
  | .tableVarReference tv => (tv.source.map fun source => "copy of " ++ source.name).getD ""
  | _ => ""

/-- The characteristics as five letters, a dash for each one that is absent. -/
def Characteristics.letters (c : Characteristics) : String :=
  let letter := fun (holds : Bool) (l : Char) => if holds then l else '-'
  String.ofList
    [letter c.isFunctional 'F', letter c.isDeterministic 'D', letter c.isRepeatable 'R',
     letter c.isNilable 'N', letter c.isLiteral 'L']

end Relational
