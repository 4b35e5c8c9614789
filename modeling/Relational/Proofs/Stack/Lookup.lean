import Mathlib.Data.List.Basic
import Relational.Stack.Lookup

/-!
# What variables are found

The candidates for a name are the visible symbols and the columns of visible rows with that name up to
case. They are gathered innermost first, each at a place of its own, and nothing else is. So what is found
is told by the list of their places: the only candidate, the only one in the same case, or the innermost in
the same case, and the others are reported.
-/

namespace Relational

open List

/-- The name that stands at a column of a symbol, or that of the symbol itself. -/
def Symbol.nameAt? (symbol : Symbol) : Option Nat → Option String
  | none => if symbol.name = "" then none else some symbol.name
  | some position => symbol.columns.names[position]?

/-- How a symbol or a column of it is reported. -/
def Symbol.nameText (symbol : Symbol) (location : Location) : String :=
  if location.isColumn && symbol.name ≠ "" then symbol.name ++ "." ++ location.name else location.name

/-- The first of two places is further inside, or in the same symbol and the earlier one there: the symbol
itself is before its columns. -/
def Location.Before (l l' : Location) : Prop :=
  l.index < l'.index ∨ l.index = l'.index ∧ l.column.elim 0 (· + 1) < l'.column.elim 0 (· + 1)

/-- A visible symbol, itself or a column of it, with a name up to case stands at a location. -/
def Stack.IsCandidate (s : Stack) (name : String) (place : Location × Symbol) : Prop :=
  s.base + place.1.index < s.depth ∧ s.peek place.1.index = some place.2 ∧
    place.2.nameAt? place.1.column = some place.1.name ∧ Text.equalFold place.1.name name = true

/-- Which of the places of the candidates for a name is selected: the only one, the only one in the same
case, or with the policy that prefers these the first one in the same case. -/
def selected? (policy : CollisionPolicy) (name : String) (places : List (Location × Symbol)) :
    Option (Location × Symbol) :=
  let sameCase := places.filter (·.1.name = name)
  if places.length = 1 then places.head?
  else if sameCase.length = 1 ∨ policy = .preferExact then sameCase.head?
  else none

/-- The candidate for a name at a place. -/
def Candidate.ofPlace (name : String) (place : Location × Symbol) : Candidate :=
  { location := place.1, symbol := place.2, isExact := place.1.name == name
    description := place.2.nameText place.1 }

namespace Stack

theorem mem_symbolCandidates {name : String} {index : Nat} {symbol : Symbol} {c : Candidate} :
    c ∈ symbolCandidates name index symbol ↔ ∃ column found, symbol.nameAt? column = some found ∧
      Text.equalFold found name = true ∧ c = .ofPlace name ({ index, column, name := found }, symbol) := by
  unfold symbolCandidates
  dsimp only
  rw [mem_append, mem_filterMap]
  constructor
  · rintro (hc | ⟨⟨⟨column, type⟩, position⟩, hmem, hc⟩)
    · split at hc
      · rename_i hname
        refine ⟨none, symbol.name, if_neg hname.1, hname.2, ?_⟩
        simpa [Candidate.ofPlace, Symbol.nameText, Location.isColumn] using hc
      · cases hc
    · split at hc
      · rename_i hname
        have hcol := mem_zipIdx_iff_getElem?.mp hmem
        refine ⟨some position, column, by simp [Symbol.nameAt?, Columns.names, hcol], hname, ?_⟩
        rw [← Option.some.inj hc]
        by_cases hnamed : symbol.name = "" <;>
          simp [Candidate.ofPlace, Symbol.nameText, Location.isColumn, hnamed]
      · cases hc
  · rintro ⟨column, found, hfound, hname, rfl⟩
    cases column with
    | none =>
      have hnamed : symbol.name ≠ "" := fun hempty => by simp [Symbol.nameAt?, hempty] at hfound
      obtain rfl : symbol.name = found := by simpa [Symbol.nameAt?, hnamed] using hfound
      exact .inl (by simp [hnamed, hname, Candidate.ofPlace, Symbol.nameText, Location.isColumn])
    | some position =>
      obtain ⟨type, hcol⟩ : ∃ type, symbol.columns[position]? = some (found, type) := by
        simpa [Symbol.nameAt?, Columns.names] using hfound
      refine .inr ⟨((found, type), position), mem_zipIdx_iff_getElem?.mpr hcol, ?_⟩
      by_cases hnamed : symbol.name = "" <;>
        simp [hname, Candidate.ofPlace, Symbol.nameText, Location.isColumn, hnamed]

theorem pairwise_zipIdx {α : Type} (l : List α) : l.zipIdx.Pairwise fun a b => a.2 < b.2 := by
  have hindices : (l.zipIdx.map Prod.snd).Pairwise (· < ·) := by
    rw [zipIdx_map_snd]
    exact pairwise_lt_range'
  exact pairwise_map.mp hindices

theorem pairwise_symbolCandidates (name : String) (idx : Nat) (sym : Symbol) :
    (symbolCandidates name idx sym).Pairwise fun c c' => c.location.Before c'.location := by
  unfold symbolCandidates
  refine pairwise_append.mpr ⟨by split <;> simp, ?_, fun c hc c' hc' => ?_⟩
  · refine (pairwise_zipIdx sym.columns).filterMap _ fun col col' hlt c hc c' hc' => ?_
    obtain ⟨-, ⟨⟩⟩ := Option.ite_none_right_eq_some.mp hc
    obtain ⟨-, ⟨⟩⟩ := Option.ite_none_right_eq_some.mp hc'
    exact .inr ⟨rfl, Nat.succ_lt_succ hlt⟩
  · obtain ⟨col, -, hcol⟩ := mem_filterMap.mp hc'
    obtain ⟨-, ⟨⟩⟩ := Option.ite_none_right_eq_some.mp hcol
    split at hc
    · obtain rfl := mem_singleton.mp hc
      exact .inr ⟨rfl, Nat.succ_pos _⟩
    · cases hc

/-- The candidates are those at the places where there are candidates, innermost first. -/
theorem exists_places (s : Stack) (name : String) :
    ∃ places : List (Location × Symbol), s.candidates name = places.map (Candidate.ofPlace name) ∧
      places.Pairwise (fun place place' => place.1.Before place'.1) ∧
      ∀ place, place ∈ places ↔ s.IsCandidate name place := by
  have hmem : ∀ c, c ∈ s.candidates name ↔
      ∃ place, s.IsCandidate name place ∧ c = Candidate.ofPlace name place := by
    intro c
    rw [candidates, mem_flatMap]
    constructor
    · rintro ⟨⟨symbol, index⟩, hmem, hc⟩
      obtain ⟨column, found, hfound, hname, rfl⟩ := mem_symbolCandidates.mp hc
      have hvis := mem_zipIdx_iff_getElem?.mp hmem
      rw [visible, getElem?_take] at hvis
      split at hvis
      · exact ⟨({ index, column, name := found }, symbol),
          ⟨by dsimp only at *; omega, hvis, hfound, hname⟩, rfl⟩
      · cases hvis
    · rintro ⟨⟨location, symbol⟩, ⟨hbase, hpeek, hfound, hname⟩, rfl⟩
      refine ⟨(symbol, location.index), mem_zipIdx_iff_getElem?.mpr ?_,
        mem_symbolCandidates.mpr ⟨location.column, location.name, hfound, hname, rfl⟩⟩
      rw [visible, getElem?_take, if_pos (by dsimp only at *; omega)]
      exact hpeek
  have hsorted : (s.candidates name).Pairwise fun c c' => c.location.Before c'.location := by
    refine pairwise_flatMap.mpr ⟨fun entry _ => pairwise_symbolCandidates name entry.2 entry.1,
      (pairwise_zipIdx s.visible).imp fun hlt c hc c' hc' => ?_⟩
    obtain ⟨_, _, -, -, rfl⟩ := mem_symbolCandidates.mp hc
    obtain ⟨_, _, -, -, rfl⟩ := mem_symbolCandidates.mp hc'
    exact .inl hlt
  refine ⟨(s.candidates name).map fun c => (c.location, c.symbol), ?_, pairwise_map.mpr hsorted,
    fun place => ?_⟩
  · rw [map_map]
    refine (map_congr_left fun c hc => ?_).trans (map_id _) |>.symm
    obtain ⟨place, -, rfl⟩ := (hmem c).mp hc
    rfl
  · rw [mem_map]
    constructor
    · rintro ⟨c, hc, rfl⟩
      obtain ⟨place, hplace, rfl⟩ := (hmem c).mp hc
      exact hplace
    · exact fun hplace => ⟨.ofPlace name place, (hmem _).mpr ⟨place, hplace, rfl⟩, rfl⟩

theorem choose_map_ofPlace (policy : CollisionPolicy) (name : String) (places : List (Location × Symbol)) :
    choose policy (places.map (Candidate.ofPlace name)) = (selected? policy name places).elim
      (if places.isEmpty then .missing else .ambiguous (places.map fun place => place.2.nameText place.1))
      fun place => .found place.1 place.2
        ((places.filter (·.1 ≠ place.1)).map fun place => place.2.nameText place.1) := by
  have hexcept : ∀ location, descriptionsExcept (places.map (.ofPlace name)) location =
      (places.filter (·.1 ≠ location)).map fun place => place.2.nameText place.1 := fun location => by
    rw [descriptionsExcept, filter_map, map_map]
    rfl
  have hsame : (places.map (Candidate.ofPlace name)).filter (·.isExact) =
      (places.filter (·.1.name = name)).map (Candidate.ofPlace name) := filter_map
  have htexts : (places.map (Candidate.ofPlace name)).map (·.description) =
      places.map fun place => place.2.nameText place.1 := map_map
  rcases places with _ | ⟨first, _ | ⟨second, rest⟩⟩
  · cases policy <;> rfl
  · simp [choose, selected?, Candidate.ofPlace]
  · have hlen : (first :: second :: rest).length ≠ 1 := by simp
    unfold choose selected?
    rw [hsame, htexts]
    generalize (first :: second :: rest).filter (·.1.name = name) = sameCase
    rcases sameCase with _ | ⟨place, _ | ⟨place', more⟩⟩
    · simp
    · exact congrArg _ (hexcept _)
    · cases policy with
      | ambiguous => simp
      | preferExact => exact congrArg _ (hexcept _)

/-- The candidates for a name stand at places that are listed innermost first. The one that is selected
is found there, and the others are reported as shadowed. If none is, the name is missing or ambiguous, and
all of them are reported. -/
theorem resolve_eq_selected (s : Stack) (name : String) :
    ∃ places : List (Location × Symbol),
      places.Pairwise (fun place place' => place.1.Before place'.1) ∧
      (∀ place, place ∈ places ↔ s.IsCandidate name place) ∧
      s.resolve name = (selected? s.policy name places).elim
        (if places.isEmpty then .missing
          else .ambiguous (places.map fun place => place.2.nameText place.1))
        fun place => .found place.1 place.2
          ((places.filter (·.1 ≠ place.1)).map fun place => place.2.nameText place.1) := by
  obtain ⟨places, hcandidates, hsorted, hmem⟩ := s.exists_places name
  refine ⟨places, hsorted, hmem, ?_⟩
  rw [resolve, hcandidates]
  exact choose_map_ofPlace s.policy name places

end Stack

end Relational
