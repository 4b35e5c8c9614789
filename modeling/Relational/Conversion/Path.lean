import Relational.Operator
import Relational.Name

/-!
# Conversion paths

Declared conversions form a graph on the scalar types. A conversion between two scalar types is a path
in this graph from the first to a type that is a subtype of the second. Of two paths the one with fewer
narrowing conversions is better, and with equally many the shorter one.

The search walks the graph depth first and keeps the best paths found so far. Since the number of
narrowing conversions and the length only grow along a path, a partial path that is worse than the best
complete one is given up.
-/

namespace Relational

/-- The declared conversions by the names of their sources, in the order they were declared. -/
abbrev ConversionGraph := List (String × List Conversion)

def ConversionGraph.outgoing (g : ConversionGraph) (source : ScalarType) : List Conversion :=
  (g.lookup source.name).getD []

namespace ConversionGraph

def targetNames (g : ConversionGraph) : List String :=
  (g.flatMap Prod.snd).map (·.target.name)

/-- The names of the types that a path through the given types may still enter. -/
def namesOff (g : ConversionGraph) (onPath : List String) : List String :=
  g.targetNames.filter (!onPath.contains ·)

theorem target_mem_targetNames {g : ConversionGraph} {source : ScalarType} {c : Conversion}
    (hc : c ∈ g.outgoing source) : c.target.name ∈ g.targetNames := by
  unfold outgoing at hc
  cases hl : g.lookup source.name with
  | none => simp [hl] at hc
  | some conversions =>
    rw [hl, Option.getD_some] at hc
    obtain ⟨before, after, rfl, -⟩ := List.lookup_eq_some_iff.mp hl
    refine List.mem_map.mpr ⟨c, List.mem_flatMap.mpr ⟨(source.name, conversions), ?_, hc⟩, rfl⟩
    simp

/-- A path that enters one more type has fewer types left to enter. -/
theorem length_namesOff_cons {g : ConversionGraph} {onPath : List String} {name : String}
    (htarget : name ∈ g.targetNames) (hnew : ¬ onPath.contains name = true) :
    (g.namesOff (name :: onPath)).length < (g.namesOff onPath).length := by
  have hfilter : g.namesOff (name :: onPath) = (g.namesOff onPath).filter (· ≠ name) := by
    simp only [namesOff, List.filter_filter]
    congr 1
    funext other
    simp
  rw [hfilter, List.length_filter_lt_length_iff_exists]
  exact ⟨name, List.mem_filter.mpr ⟨htarget, by simpa using hnew⟩, by simp⟩

end ConversionGraph

abbrev ConversionPath := List Conversion

namespace ConversionPath

/-- Zero less the number of narrowing conversions, so that a higher score is better. -/
def score (path : ConversionPath) : Int :=
  -(path.countP (·.isNarrowing) : Int)

def isNarrowing (path : ConversionPath) : Bool :=
  path.score < 0

def text (path : ConversionPath) : String :=
  match path with
  | [] => "<identity>"
  | first :: _ => " -> ".intercalate (first.source.name :: path.map (·.target.name))

end ConversionPath

/-- The state of a search: the names of the types seen, and the best paths so far, all with the same
score and length. -/
structure PathSearch where
  visited : List String
  candidates : List ConversionPath := []
  bestScore : Int := 0
  bestLength : Nat := 0

namespace PathSearch

def hasBest (s : PathSearch) : Bool :=
  !s.candidates.isEmpty

def visit (s : PathSearch) (name : String) : PathSearch :=
  if s.visited.contains name then s else { s with visited := s.visited ++ [name] }

/-- Whether paths of a score and length are worse than the best path, or no better if they still have
to grow. -/
def givesUp (s : PathSearch) (score : Int) (length : Nat) : Bool :=
  s.hasBest && (score < s.bestScore || (score == s.bestScore && s.bestLength ≤ length))

/-- The search having found a path: a better one takes the place of the others, an equally good one
joins them. -/
def record (s : PathSearch) (path : ConversionPath) (score : Int) : PathSearch :=
  if !s.hasBest || s.bestScore < score || (score == s.bestScore && path.length < s.bestLength) then
    { s with candidates := [path], bestScore := score, bestLength := path.length }
  else if score == s.bestScore && path.length == s.bestLength then
    { s with candidates := s.candidates ++ [path] }
  else s

/-- Walks the graph from a type that `path` leads to. No type on the path is entered again, and a path
ends at the first subtype of the target. -/
def walk (graph : ConversionGraph) (target current : ScalarType) (onPath : List String)
    (path : ConversionPath) (score : Int) (s : PathSearch) : PathSearch :=
  (graph.outgoing current).attach.foldl (fun s ⟨c, _hc⟩ =>
    let next := c.target
    if onPath.contains next.name then s
    else
      let s := s.visit next.name
      let score := if c.isNarrowing then score - 1 else score
      let path := path ++ [c]
      if next.isA target then s.record path score
      else if s.givesUp score path.length then s
      else walk graph target next (next.name :: onPath) path score s) s
termination_by (graph.namesOff onPath).length
decreasing_by
  exact ConversionGraph.length_namesOff_cons (ConversionGraph.target_mem_targetNames _hc) ‹_›

end PathSearch

/-- The best paths from a type to subtypes of another, and the types seen on the way. -/
def searchPaths (graph : ConversionGraph) (source target : ScalarType) : PathSearch :=
  PathSearch.walk graph target source [source.name] [] 0 { visited := [source.name] }

end Relational
