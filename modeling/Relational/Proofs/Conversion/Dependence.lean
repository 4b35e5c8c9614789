import Relational.Proofs.Conversion.Search

/-!
# What the outcome of a search depends on

A search notes the names of the types that it meets. It follows the conversions from some of them, and
then meets the types that all of these conversions lead to; the conversions from a type at which it gives
up a path it does not look at. So a search has the same outcome in every graph with the same conversions
from those noted types all of whose conversions lead to noted types.
-/

namespace Relational

open List

namespace PathSearch

variable {g g' : ConversionGraph} {tgt current : ScalarType} {onPath : List String}
  {path : ConversionPath} {score : Int} {s : PathSearch} {c : Conversion} {edges : List Conversion}

theorem mem_visited_visit {name other : String} :
    other ∈ (s.visit name).visited ↔ other ∈ s.visited ∨ other = name := by
  unfold visit
  split
  · rename_i hmem
    rw [contains_iff_mem] at hmem
    refine ⟨Or.inl, ?_⟩
    rintro (h | rfl)
    · exact h
    · exact hmem
  · simp

theorem visited_record (path : ConversionPath) (score : Int) : (s.record path score).visited = s.visited := by
  unfold record
  split
  · rfl
  split <;> rfl

theorem visited_subset_foldl {f : PathSearch → Conversion → PathSearch}
    (hf : ∀ c ∈ edges, ∀ s : PathSearch, s.visited ⊆ (f s c).visited) (s : PathSearch) :
    s.visited ⊆ (edges.foldl f s).visited := by
  induction edges generalizing s with
  | nil => exact fun _ h => h
  | cons c edges ih =>
    have hrest := ih (fun c hc => hf c (mem_cons_of_mem _ hc)) (f s c)
    exact fun _ h => hrest (hf c mem_cons_self s h)

theorem visited_subset_follow_of (hwalk : ¬ onPath.contains c.target.name → ∀ path score s,
      s.visited ⊆ (walk g tgt c.target (c.target.name :: onPath) path score s).visited) :
    s.visited ⊆ (follow g tgt onPath path score s c).visited := by
  have hvisit : s.visited ⊆ (s.visit c.target.name).visited :=
    fun _ h => mem_visited_visit.mpr (Or.inl h)
  unfold follow
  dsimp only
  split
  · exact fun _ h => h
  split
  · rw [visited_record]
    exact hvisit
  split
  · exact hvisit
  · exact fun _ h => hwalk ‹_› _ _ _ (hvisit h)

theorem visited_subset_walk (g : ConversionGraph) (tgt current : ScalarType)
    (onPath : List String) (path : ConversionPath) (score : Int) (s : PathSearch) :
    s.visited ⊆ (walk g tgt current onPath path score s).visited := by
  induction hn : (g.namesOff onPath).length using Nat.strong_induction_on
    generalizing current onPath path score s with
  | _ n ih =>
  rw [walk_eq]
  refine visited_subset_foldl (fun c hc s => visited_subset_follow_of fun hnew _ _ _ => ?_) s
  have hless : (g.namesOff (c.target.name :: onPath)).length < n :=
    hn ▸ ConversionGraph.length_namesOff_cons (ConversionGraph.target_mem_targetNames hc) hnew
  exact ih _ hless _ _ _ _ _ rfl

theorem visited_subset_follow (s : PathSearch) (c : Conversion) :
    s.visited ⊆ (follow g tgt onPath path score s c).visited :=
  visited_subset_follow_of fun _ _ _ _ => visited_subset_walk _ _ _ _ _ _ _

theorem target_mem_visited_follow (hpath : onPath ⊆ s.visited) :
    c.target.name ∈ (follow g tgt onPath path score s c).visited := by
  have hvisit : c.target.name ∈ (s.visit c.target.name).visited :=
    mem_visited_visit.mpr (Or.inr rfl)
  unfold follow
  dsimp only
  split
  · rename_i hon
    exact hpath (contains_iff_mem.mp hon)
  split
  · rw [visited_record]
    exact hvisit
  split
  · exact hvisit
  · exact visited_subset_walk _ _ _ _ _ _ _ hvisit

theorem target_mem_visited_foldl (hpath : onPath ⊆ s.visited) (hc : c ∈ edges) :
    c.target.name ∈ (edges.foldl (follow g tgt onPath path score) s).visited := by
  induction edges generalizing s with
  | nil => simp at hc
  | cons d edges ih =>
    rw [foldl_cons]
    rcases mem_cons.mp hc with rfl | hc
    · exact visited_subset_foldl (fun d _ s => visited_subset_follow s d) _
        (target_mem_visited_follow hpath)
    · exact ih (fun _ h => visited_subset_follow s d (hpath h)) hc

/-- Two graphs with the same conversions from every type of the given names all of whose conversions
lead to types of these names. -/
def SameWithin (names : List String) (g g' : ConversionGraph) : Prop :=
  ∀ type : ScalarType, type.name ∈ names → (∀ c ∈ g.outgoing type, c.target.name ∈ names) →
    g'.outgoing type = g.outgoing type

theorem SameWithin.mono {names names' : List String} (h : SameWithin names' g g')
    (hsub : names ⊆ names') : SameWithin names g g' := fun type htype hclosed =>
  h type (hsub htype) fun c hc => hsub (hclosed c hc)

theorem foldl_follow_congr
    (hsame : SameWithin (edges.foldl (follow g tgt onPath path score) s).visited g g')
    (hstep : ∀ c ∈ edges, ∀ s : PathSearch, onPath ⊆ s.visited →
      SameWithin (follow g tgt onPath path score s c).visited g g' →
      follow g' tgt onPath path score s c = follow g tgt onPath path score s c)
    (hpath : onPath ⊆ s.visited) : edges.foldl (follow g' tgt onPath path score) s =
      edges.foldl (follow g tgt onPath path score) s := by
  induction edges generalizing s with
  | nil => rfl
  | cons c edges ih =>
    have hlater : (follow g tgt onPath path score s c).visited ⊆ (edges.foldl
        (follow g tgt onPath path score) (follow g tgt onPath path score s c)).visited :=
      visited_subset_foldl (fun d _ s => visited_subset_follow s d) _
    rw [foldl_cons, foldl_cons, hstep c mem_cons_self s hpath (hsame.mono hlater)]
    exact ih hsame (fun c hc => hstep c (mem_cons_of_mem _ hc))
      fun _ h => visited_subset_follow s c (hpath h)

theorem walk_congr (hsame : SameWithin (walk g tgt current onPath path score s).visited g g')
    (hcurrent : current.name ∈ s.visited) (hpath : onPath ⊆ s.visited) :
    walk g' tgt current onPath path score s = walk g tgt current onPath path score s := by
  induction hn : (g.namesOff onPath).length using Nat.strong_induction_on
    generalizing current onPath path score s with
  | _ n ih =>
  have hclosed : ∀ c ∈ g.outgoing current,
      c.target.name ∈ (walk g tgt current onPath path score s).visited := fun c hc => by
    rw [walk_eq]
    exact target_mem_visited_foldl hpath hc
  have hedges : g'.outgoing current = g.outgoing current :=
    hsame current (visited_subset_walk _ _ _ _ _ _ _ hcurrent) hclosed
  rw [walk_eq] at hsame
  rw [walk_eq, walk_eq, hedges]
  refine foldl_follow_congr hsame (fun c hc s hpath hsame => ?_) hpath
  unfold follow at hsame ⊢
  dsimp only at hsame ⊢
  split
  · rfl
  rename_i hnew
  rw [if_neg hnew] at hsame
  split
  · rfl
  rename_i hnot
  rw [if_neg hnot] at hsame
  split
  · rfl
  rename_i hgoes
  rw [if_neg hgoes] at hsame
  have hless : (g.namesOff (c.target.name :: onPath)).length < n :=
    hn ▸ ConversionGraph.length_namesOff_cons (ConversionGraph.target_mem_targetNames hc) hnew
  have hvisit : c.target.name :: onPath ⊆ (s.visit c.target.name).visited := by
    intro name hname
    rcases mem_cons.mp hname with rfl | hname
    · exact mem_visited_visit.mpr (Or.inr rfl)
    · exact mem_visited_visit.mpr (Or.inl (hpath hname))
  exact ih _ hless hsame (hvisit mem_cons_self) hvisit rfl

end PathSearch

variable {g g' : ConversionGraph} {src tgt : ScalarType} (names : List String)

theorem mem_sortedNames {names : List String} {name : String} : name ∈ sortedNames names ↔ name ∈ names := by
  rw [sortedNames, sortNames, mem_mergeSort, mem_eraseDups]

theorem nodup_eraseDups : names.eraseDups.Nodup := by
  induction hlen : names.length using Nat.strongRecOn generalizing names with
  | _ length ih =>
    cases names with
    | nil => simp
    | cons name names =>
      rw [eraseDups_cons, nodup_cons, mem_eraseDups]
      refine ⟨by simp, ih _ ?_ _ rfl⟩
      rw [← hlen, length_cons]
      exact Nat.lt_succ_of_le (length_filter_le _ _)

theorem pairwise_sortedNames : (sortedNames names).Pairwise (· < ·) := by
  have hsorted : (sortedNames names).Pairwise fun a b => decide (a ≤ b) = true :=
    @List.pairwise_mergeSort String (fun a b => decide (a ≤ b))
      (fun a b c hab hbc => by simpa using String.le_trans (of_decide_eq_true hab) (of_decide_eq_true hbc))
      (fun a b => by simpa using String.le_total a b) _
  have hdistinct : (sortedNames names).Nodup :=
    (mergeSort_perm _ _).nodup_iff.mpr (nodup_eraseDups names)
  refine (hsorted.and hdistinct).imp fun {a b} h => ?_
  exact String.not_le.mp fun hle => h.2 (String.le_antisymm (by simpa using h.1) hle)

theorem visited_searchScalar :
    (searchScalar g src tgt).visited = sortedNames (searchPaths g src tgt).visited := by
  unfold searchScalar
  dsimp only
  split <;> rfl

/-- The conversion between two scalar types is the same in two graphs that are the same within the types
that its search met. -/
theorem searchScalar_congr (hsame : PathSearch.SameWithin (searchScalar g src tgt).visited g g') :
    searchScalar g' src tgt = searchScalar g src tgt := by
  have hsame' : PathSearch.SameWithin (searchPaths g src tgt).visited g g' :=
    hsame.mono fun _ h => visited_searchScalar ▸ mem_sortedNames.mpr h
  have hwalk : searchPaths g' src tgt = searchPaths g src tgt :=
    PathSearch.walk_congr hsame' mem_cons_self fun _ h => h
  unfold searchScalar
  rw [hwalk]

end Relational
