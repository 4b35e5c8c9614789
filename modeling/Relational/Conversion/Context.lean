import Relational.Cause
import Relational.Conversion.Path

/-!
# Conversions between types

The outcome of asking for a conversion from one type to another: for scalar types the best path or the
paths that tie, for rows and tables the outcome for each column and the columns without a counterpart,
for lists and cursors the outcome for what they contain.
-/

namespace Relational

/-- The outcome of asking for a conversion. -/
structure ConversionContext where
  source : Ty
  target : Ty
  canConvert : Bool := false
  path : ConversionPath := []
  candidates : List ConversionPath := []
  columns : List (String × ConversionContext) := []
  element : Option ConversionContext := none
  missingFromTarget : List String := []
  missingFromSource : List String := []
  visited : List String := []

namespace ConversionContext

mutual

def isExact : ConversionContext → Bool
  | ⟨_, _, canConvert, path, _, columns, element, _, _, _⟩ =>
    canConvert && path.isEmpty && columnsExact columns &&
      match element with
      | some e => e.isExact
      | none => true

/-- Whether nothing has to be converted in any column. -/
def columnsExact : List (String × ConversionContext) → Bool
  | [] => true
  | (_, c) :: rest => c.isExact && columnsExact rest

end

mutual

def isAmbiguous : ConversionContext → Bool
  | ⟨_, _, _, _, candidates, columns, element, _, _, _⟩ =>
    decide (1 < candidates.length) || columnsAmbiguous columns ||
      match element with
      | some e => e.isAmbiguous
      | none => false

def columnsAmbiguous : List (String × ConversionContext) → Bool
  | [] => false
  | (_, c) :: rest => c.isAmbiguous || columnsAmbiguous rest

end

mutual

def score : ConversionContext → Int
  | ⟨_, _, _, path, _, columns, element, _, _, _⟩ =>
    path.score + columnsScore columns +
      match element with
      | some e => e.score
      | none => 0

def columnsScore : List (String × ConversionContext) → Int
  | [] => 0
  | (_, c) :: rest => c.score + columnsScore rest

end

mutual

def length : ConversionContext → Nat
  | ⟨_, _, _, path, _, columns, element, _, _, _⟩ =>
    path.length + columnsLength columns +
      match element with
      | some e => e.length
      | none => 0

def columnsLength : List (String × ConversionContext) → Nat
  | [] => 0
  | (_, c) :: rest => c.length + columnsLength rest

end

def isNarrowing (c : ConversionContext) : Bool :=
  c.score < 0

def column? (c : ConversionContext) (name : String) : Option ConversionContext :=
  c.columns.lookup name

def text (c : ConversionContext) : String :=
  if c.isAmbiguous then "ambiguous " ++ c.source.text ++ " to " ++ c.target.text
  else if !c.canConvert then "no conversion " ++ c.source.text ++ " to " ++ c.target.text
  else if c.isExact then "exact " ++ c.target.text
  else c.source.text ++ " to " ++ c.target.text ++ " (score " ++ toString c.score ++ ", length " ++
    toString c.length ++ ")"

mutual

/-- The texts of the paths that tie; those of a column with the column in front. -/
def candidateTexts : ConversionContext → List String
  | ⟨_, _, _, _, candidates, columns, element, _, _, _⟩ =>
    if 1 < candidates.length then candidates.map ConversionPath.text
    else columnCandidateTexts columns ++
      match element with
      | some e => if e.isAmbiguous then e.candidateTexts else []
      | none => []

def columnCandidateTexts : List (String × ConversionContext) → List String
  | [] => []
  | (name, c) :: rest =>
    (if c.isAmbiguous then c.candidateTexts.map fun text => name ++ ": " ++ text else []) ++
      columnCandidateTexts rest

end

/-- What stands in the way of a conversion that fails without being ambiguous. -/
def obstacles (c : ConversionContext) : List String :=
  (c.missingFromTarget.map fun name =>
    (Cause.columnConversion name "present in the source but missing from the target").message) ++
  (c.missingFromSource.map fun name =>
    (Cause.columnConversion name "required by the target but missing from the source").message) ++
  (c.columns.filterMap fun (name, column) =>
    if column.canConvert then none
    else some (Cause.columnConversion name column.text).message) ++
  match c.element with
  | some element => if element.canConvert then [] else ["element: " ++ element.text]
  | none => []

def details (c : ConversionContext) : String :=
  match c.obstacles with
  | [] => ""
  | parts => ": " ++ "; ".intercalate parts

def check (c : ConversionContext) : Option Cause :=
  if c.canConvert then none
  else if c.isAmbiguous then
    some (.ambiguousConversion c.source.text c.target.text c.candidateTexts)
  else some (.noConversion c.source.text c.target.text c.details)

end ConversionContext

end Relational
