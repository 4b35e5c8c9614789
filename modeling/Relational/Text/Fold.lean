import Relational.Text.Lowercase

/-!
# Comparison without regard to case

Two characters are the same up to case when the simple case folding of Unicode identifies them. Nearly
always that is equality of their lower case; the table lists the letters whose folding differs from
their lower case, such as the final sigma, the long s and the dotted capital I.
-/

namespace Relational.Text

/-- Letters whose folding is not their lower case, with their folding. -/
def foldExceptions : List (Nat × Nat) :=
  [
    (0xB5, 0x3BC), (0x130, 0x130), (0x17F, 0x73), (0x345, 0x3B9), (0x3C2, 0x3C3),
    (0x3D0, 0x3B2), (0x3D1, 0x3B8), (0x3D5, 0x3C6), (0x3D6, 0x3C0), (0x3F0, 0x3BA),
    (0x3F1, 0x3C1), (0x3F5, 0x3B5), (0x1C80, 0x432), (0x1C81, 0x434), (0x1C82, 0x43E),
    (0x1C83, 0x441), (0x1C84, 0x442), (0x1C85, 0x442), (0x1C86, 0x44A), (0x1C87, 0x463),
    (0x1C88, 0xA64B), (0x1E9B, 0x1E61), (0x1FBE, 0x3B9)
  ]

/-- The representative of the characters equal to `c` up to case. -/
def foldChar (c : Char) : Char :=
  match foldExceptions.lookup c.toNat with
  | some code => Char.ofNat code
  | none => lowerChar c

def fold (text : String) : List Char :=
  text.toList.map foldChar

def equalFold (a b : String) : Bool :=
  fold a == fold b

theorem equalFold_comm (a b : String) : equalFold a b = equalFold b a :=
  BEq.comm

end Relational.Text
