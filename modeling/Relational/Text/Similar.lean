import Relational.Name
import Relational.Text.Lowercase

/-!
# Suggestions for misspelt names

A message about an unknown name suggests the known names that are fewest edits away from it, when two
edits are enough. Names are compared in lower case, and by their last segment when the unknown name has
no dot.
-/

namespace Relational.Text

/-- The next row of the table of edit distances: the entries belong to the beginnings of the second
text, `diagonal` and the list `row` to the row before, `left` to the entry just computed. -/
def distanceRow (c : Char) : (left diagonal : Nat) → (others : List Char) → (row : List Nat) → List Nat
  | left, diagonal, d :: others, above :: row =>
    let entry := if c = d then diagonal else 1 + min (min left above) diagonal
    entry :: distanceRow c entry above others row
  | _, _, _, _ => []

/-- The rows of edit distances, one for each character of the first text, folded to the last one. -/
def distanceRows (others : List Char) : (cs : List Char) → (row : List Nat) → List Nat
  | [], row => row
  | c :: cs, row =>
    match row with
    | [] => []
    | corner :: row =>
      distanceRows others cs ((corner + 1) :: distanceRow c (corner + 1) corner others row)

/-- The least number of insertions, deletions and replacements of characters between two texts. -/
def editDistance (a b : String) : Nat :=
  (distanceRows b.toList a.toList (List.range (b.length + 1))).getLastD 0

/-- The greatest number of edits at which a name is still suggested. -/
def maxSuggestionDistance : Nat := 2

/-- The closest names so far with their common distance; a closer name starts the list again, an
equally close one is added unless it is there already. -/
def keepClosest (distance : String → Nat) (best : Option (Nat × List String)) (name : String) :
    Option (Nat × List String) :=
  match best with
  | none => some (distance name, [name])
  | some (least, names) =>
    if distance name < least then some (distance name, [name])
    else if distance name = least ∧ name ∉ names then some (least, names ++ [name])
    else some (least, names)

/-- The known names fewest edits away from `source`, with that number of edits. -/
def closest (names : List String) (source : String) : Option (Nat × List String) :=
  let lowered := lower source
  let candidate := fun name => if source.contains '.' then name else Name.unqualified name
  names.foldl (keepClosest fun name => editDistance (lower (candidate name)) lowered) none

/-- The suggestion that completes a message about the unknown name `source`. -/
def suggest (names : List String) (source : String) : String :=
  if source.isEmpty then ""
  else match closest names source with
    | none => ""
    | some (distance, found) =>
      if distance ≤ maxSuggestionDistance then
        ", maybe you mean " ++ " or ".intercalate found ++ "?"
      else ""

end Relational.Text
