import Mathlib.Data.List.Nodup
import Relational.Conversion.Find
import Relational.Proofs.Conversion.Walk

/-!
# The search for conversion paths is exact

The search looks at the paths that enter no type twice and end at the first subtype of the target. It
gives up a path as soon as every path that begins with it loses against one that was found already, so
that in the end it has compared all of them. Since the optimal walks are among these paths, the
candidates of a search are the optimal walks.
-/

namespace Relational

open List

variable {g : ConversionGraph} {src tgt current : ScalarType} {onPath : List String}
  {path best rest : ConversionPath} {paths rests : List ConversionPath}

namespace ConversionGraph

/-- The paths from a type that enter no type of a given name, no type twice, and end at the first
subtype of the target. -/
def simplePaths (g : ConversionGraph) (target current : ScalarType) (onPath : List String) :
    List ConversionPath :=
  (g.outgoing current).attach.flatMap fun ⟨c, _hc⟩ =>
    if onPath.contains c.target.name then []
    else if c.target.isA target then [[c]]
    else (simplePaths g target c.target (c.target.name :: onPath)).map (c :: ·)
termination_by (g.namesOff onPath).length
decreasing_by exact length_namesOff_cons (target_mem_targetNames _hc) ‹_›

/-- The simple paths that begin with a conversion. -/
def simplePathsBy (g : ConversionGraph) (target : ScalarType) (onPath : List String)
    (c : Conversion) : List ConversionPath :=
  if onPath.contains c.target.name then []
  else if c.target.isA target then [[c]]
  else (g.simplePaths target c.target (c.target.name :: onPath)).map (c :: ·)

theorem simplePaths_eq : g.simplePaths tgt current onPath =
    (g.outgoing current).flatMap (g.simplePathsBy tgt onPath) := by
  rw [simplePaths, flatMap_subtype (g := g.simplePathsBy tgt onPath) (fun _ _ => rfl), unattach_attach]

theorem mem_simplePathsBy {c : Conversion} : path ∈ g.simplePathsBy tgt onPath c ↔
    c.target.name ∉ onPath ∧ (c.target.isA tgt ∧ path = [c] ∨ ¬ c.target.isA tgt ∧
      ∃ rest ∈ g.simplePaths tgt c.target (c.target.name :: onPath), path = c :: rest) := by
  unfold simplePathsBy
  by_cases hon : c.target.name ∈ onPath
  · simp [hon]
  · by_cases hisA : c.target.isA tgt
    · simp [hon, hisA]
    · simp [hon, hisA, eq_comm]

theorem ne_nil_of_mem_simplePaths (h : path ∈ g.simplePaths tgt current onPath) : path ≠ [] := by
  rw [simplePaths_eq, mem_flatMap] at h
  obtain ⟨c, -, hpath⟩ := h
  rcases (mem_simplePathsBy.mp hpath).2 with ⟨-, rfl⟩ | ⟨-, rest, -, rfl⟩
  all_goals exact cons_ne_nil _ _

/-- The simple paths are the walks to a subtype of the target that enter only new types, each once, and
no subtype of the target before the end. -/
theorem mem_simplePaths_iff : path ∈ g.simplePaths tgt current onPath ↔
    path ≠ [] ∧ g.Reaches current tgt path ∧ (∀ c ∈ path, c.target.name ∉ onPath) ∧
      (path.map (·.target.name)).Nodup ∧ ∀ c ∈ path.dropLast, ¬ c.target.isA tgt := by
  rw [simplePaths_eq, mem_flatMap]
  simp only [mem_simplePathsBy]
  induction path generalizing current onPath with
  | nil => simp
  | cons c rest ih =>
    constructor
    · rintro ⟨d, hd, hnew, ⟨hisA, heq⟩ | ⟨hnot, rest', hrest', heq⟩⟩
      · obtain ⟨rfl, rfl⟩ := cons.inj heq
        exact ⟨by simp, ⟨c.target, .cons hd (.nil _), hisA⟩, by simpa using hnew, by simp, by simp⟩
      · obtain ⟨rfl, rfl⟩ := cons.inj heq
        rw [simplePaths_eq, mem_flatMap] at hrest'
        simp only [mem_simplePathsBy] at hrest'
        obtain ⟨hne, ⟨last, hwalk, hlast⟩, hoff, hnodup, hearly⟩ := ih.mp hrest'
        refine ⟨by simp, ⟨last, .cons hd hwalk, hlast⟩, ?_, ?_, ?_⟩
        · intro e he
          rcases mem_cons.mp he with rfl | he
          · exact hnew
          · exact fun hmem => hoff e he (mem_cons_of_mem _ hmem)
        · refine nodup_cons.mpr ⟨?_, hnodup⟩
          intro hmem
          obtain ⟨e, he, hname⟩ := mem_map.mp hmem
          exact hoff e he (by simp [hname])
        · intro e he
          rw [dropLast_cons_of_ne_nil hne] at he
          rcases mem_cons.mp he with rfl | he
          · exact hnot
          · exact hearly e he
    · rintro ⟨-, ⟨last, hwalk, hlast⟩, hoff, hnodup, hearly⟩
      obtain _ | ⟨hc, hwalk⟩ := hwalk
      refine ⟨c, hc, hoff c (by simp), ?_⟩
      cases rest with
      | nil =>
        cases hwalk
        exact Or.inl ⟨hlast, rfl⟩
      | cons d rest =>
        refine Or.inr ⟨hearly c (by simp), d :: rest, ?_, rfl⟩
        rw [simplePaths_eq, mem_flatMap]
        simp only [mem_simplePathsBy]
        refine ih.mpr ⟨by simp, ⟨last, hwalk, hlast⟩, ?_, (nodup_cons.mp hnodup).2, ?_⟩
        · intro e he hmem
          rcases mem_cons.mp hmem with hname | hmem
          · exact (nodup_cons.mp hnodup).1 (mem_map.mpr ⟨e, he, hname⟩)
          · exact hoff e (mem_cons_of_mem c he) hmem
        · intro e he
          exact hearly e (by simpa using Or.inr he)

theorem nodup_simplePaths (hg : g.WellFormed) (tgt current : ScalarType)
    (onPath : List String) : (g.simplePaths tgt current onPath).Nodup := by
  induction hn : (g.namesOff onPath).length using Nat.strong_induction_on generalizing current onPath with
  | _ n ih =>
  rw [simplePaths_eq, nodup_flatMap]
  refine ⟨fun c hc => ?_, (hg.nodup_outgoing current).imp fun {c d} hcd path hc hd => hcd ?_⟩
  · unfold simplePathsBy
    split
    · exact nodup_nil
    split
    · exact nodup_singleton _
    · refine (ih _ ?_ _ _ rfl).map (cons_injective)
      exact hn ▸ length_namesOff_cons (target_mem_targetNames hc) ‹_›
  · -- Paths that begin with different conversions differ.
    rcases (mem_simplePathsBy.mp hc).2 with ⟨-, rfl⟩ | ⟨-, _, -, rfl⟩ <;>
      rcases (mem_simplePathsBy.mp hd).2 with ⟨-, h⟩ | ⟨-, _, -, h⟩ <;>
      exact (cons.inj h).1

end ConversionGraph

namespace PathSearch

variable {s t : PathSearch} {score : Int} {c : Conversion}

/-- The score of a path with one more conversion. -/
def scoreWith (score : Int) (c : Conversion) : Int :=
  if c.isNarrowing then score - 1 else score

/-- The step of the search for one conversion from the type that `path` leads to. -/
def follow (g : ConversionGraph) (target : ScalarType) (onPath : List String) (path : ConversionPath)
    (score : Int) (s : PathSearch) (c : Conversion) : PathSearch :=
  let next := c.target
  if onPath.contains next.name then s
  else
    let s := s.visit next.name
    let score := scoreWith score c
    let path := path ++ [c]
    if next.isA target then s.record path score
    else if s.givesUp score path.length then s
    else walk g target next (next.name :: onPath) path score s

theorem walk_eq : walk g tgt current onPath path score s =
    (g.outgoing current).foldl (follow g tgt onPath path score) s := by
  rw [walk, foldl_subtype (g := follow g tgt onPath path score) (fun _ _ _ => rfl), unattach_attach]

/-- Two searches that found the same paths. -/
structure Agrees (s t : PathSearch) : Prop where
  candidates : s.candidates = t.candidates
  bestScore : s.bestScore = t.bestScore
  bestLength : s.bestLength = t.bestLength

theorem Agrees.refl (s : PathSearch) : s.Agrees s :=
  ⟨rfl, rfl, rfl⟩

theorem Agrees.hasBest (h : s.Agrees t) : s.hasBest = t.hasBest := by
  rw [PathSearch.hasBest, PathSearch.hasBest, h.candidates]

theorem Agrees.givesUp (h : s.Agrees t) (score : Int) (length : Nat) :
    s.givesUp score length = t.givesUp score length := by
  rw [PathSearch.givesUp, PathSearch.givesUp, h.hasBest, h.bestScore, h.bestLength]

theorem Agrees.record (h : s.Agrees t) (path : ConversionPath) (score : Int) :
    (s.record path score).Agrees (t.record path score) := by
  unfold PathSearch.record
  rw [h.hasBest, h.bestScore, h.bestLength]
  split
  · exact ⟨rfl, rfl, rfl⟩
  split
  · exact ⟨by rw [h.candidates], rfl, rfl⟩
  · exact h

theorem Agrees.visit (h : s.Agrees t) (name : String) : (s.visit name).Agrees t := by
  unfold PathSearch.visit
  split
  · exact h
  · exact ⟨h.candidates, h.bestScore, h.bestLength⟩

theorem Agrees.foldl {α : Type} {f h : PathSearch → α → PathSearch} {items : List α}
    (hstep : ∀ item ∈ items, ∀ s t : PathSearch, s.Agrees t → (f s item).Agrees (h t item))
    (hst : s.Agrees t) : (items.foldl f s).Agrees (items.foldl h t) := by
  induction items generalizing s t with
  | nil => exact hst
  | cons item items ih =>
    refine ih (fun item hitem => hstep item (mem_cons_of_mem _ hitem)) ?_
    exact hstep item mem_cons_self s t hst

/-- The search having found a path, which has its own score. -/
def found (s : PathSearch) (path : ConversionPath) : PathSearch :=
  s.record path path.score

theorem found_append_of_givesUp (h : s.givesUp path.score path.length) (hrest : rest ≠ []) :
    s.found (path ++ rest) = s := by
  have hlonger : path.length < (path ++ rest).length := by
    simpa using length_pos_of_ne_nil hrest
  have hscore : (path ++ rest).score ≤ path.score := by
    simp only [ConversionPath.score, countP_append]
    omega
  simp only [givesUp, Bool.and_eq_true, Bool.or_eq_true, decide_eq_true_eq, beq_iff_eq] at h
  obtain ⟨hbest, hworse⟩ := h
  rw [found, record, hbest, if_neg, if_neg]
  · simp only [Bool.and_eq_true, beq_iff_eq]
    omega
  · simp only [Bool.not_true, Bool.false_or, Bool.or_eq_true, Bool.and_eq_true, decide_eq_true_eq,
      beq_iff_eq]
    omega

theorem foldl_found_of_givesUp (h : s.givesUp path.score path.length)
    (hrests : ∀ rest ∈ rests, rest ≠ []) : rests.foldl (fun s rest => s.found (path ++ rest)) s = s := by
  induction rests with
  | nil => rfl
  | cons rest rests ih =>
    rw [foldl_cons, found_append_of_givesUp h (hrests rest mem_cons_self)]
    exact ih fun rest hrest => hrests rest (mem_cons_of_mem _ hrest)

theorem score_concat (path : ConversionPath) (c : Conversion) :
    (path ++ [c]).score = scoreWith path.score c := by
  simp only [ConversionPath.score, countP_append, countP_singleton, scoreWith]
  split <;> omega

/-- A search finds what it would find if it looked at all simple paths. -/
theorem walk_agrees (g : ConversionGraph) (tgt current : ScalarType) (onPath : List String)
    (path : ConversionPath) (hst : s.Agrees t) : (walk g tgt current onPath path path.score s).Agrees
      ((g.simplePaths tgt current onPath).foldl (fun t rest => t.found (path ++ rest)) t) := by
  -- The recursion enters one more type, which leaves fewer types to enter.
  induction hn : (g.namesOff onPath).length using Nat.strong_induction_on
    generalizing current onPath path s t with
  | _ n ih =>
  rw [walk_eq, ConversionGraph.simplePaths_eq, foldl_flatMap]
  refine .foldl (fun c hc s t hst => ?_) hst
  unfold follow ConversionGraph.simplePathsBy
  dsimp only
  rw [← score_concat]
  split
  · exact hst
  have hvisit : (s.visit c.target.name).Agrees t := hst.visit _
  split
  · exact hvisit.record _ _
  simp only [foldl_map]
  split
  · rename_i hgives
    rw [hvisit.givesUp] at hgives
    have hrests : ∀ rest ∈ g.simplePaths tgt c.target (c.target.name :: onPath), rest ≠ [] :=
      fun rest hrest => ConversionGraph.ne_nil_of_mem_simplePaths hrest
    have hmissed := foldl_found_of_givesUp hgives hrests
    simp only [append_assoc, singleton_append] at hmissed
    rw [hmissed]
    exact hvisit
  · have hless : (g.namesOff (c.target.name :: onPath)).length < n :=
      hn ▸ ConversionGraph.length_namesOff_cons (ConversionGraph.target_mem_targetNames hc) ‹_›
    have hrest := ih _ hless c.target (c.target.name :: onPath) (path ++ [c]) hvisit rfl
    simpa only [append_assoc, singleton_append] using hrest

/-- A search that holds the best of some paths, in their order. -/
structure BestOf (s : PathSearch) (paths : List ConversionPath) : Prop where
  sublist : s.candidates.Sublist paths
  mem_iff : ∀ path, path ∈ s.candidates ↔ path ∈ paths ∧ ∀ other ∈ paths, path.cost ≤ other.cost
  best : ∀ path ∈ s.candidates, path.score = s.bestScore ∧ path.length = s.bestLength
  ne_nil : paths ≠ [] → s.candidates ≠ []

theorem Agrees.bestOf (h : s.Agrees t) (ht : t.BestOf paths) : s.BestOf paths where
  sublist := h.candidates ▸ ht.sublist
  mem_iff := h.candidates ▸ ht.mem_iff
  best := by
    rw [h.candidates, h.bestScore, h.bestLength]
    exact ht.best
  ne_nil := h.candidates ▸ ht.ne_nil

theorem bestOf_nil (h : s.candidates = []) : s.BestOf [] := by
  refine ⟨by simp [h], by simp [h], by simp [h], by simp⟩

variable (h : s.BestOf paths)

include h

theorem BestOf.replace (hpath : ∀ other ∈ s.candidates, path.cost < other.cost) :
    { s with candidates := [path], bestScore := path.score,
             bestLength := path.length : PathSearch }.BestOf (paths ++ [path]) := by
  have hbeats : ∀ other ∈ paths, path.cost < other.cost := by
    intro other hother
    obtain ⟨best, hbest⟩ := exists_mem_of_ne_nil _ (h.ne_nil (ne_nil_of_mem hother))
    exact (hpath best hbest).trans_le (((h.mem_iff best).mp hbest).2 other hother)
  refine ⟨sublist_append_right _ _, fun p => ?_, by simp, by simp⟩
  simp only [mem_singleton, mem_append]
  constructor
  · rintro rfl
    exact ⟨Or.inr rfl, fun other hother => hother.elim (fun h => (hbeats other h).le) (·.symm ▸ le_rfl)⟩
  · rintro ⟨hp | rfl, hle⟩
    · exact absurd (hle path (Or.inr rfl)) (not_le.mpr (hbeats p hp))
    · rfl

theorem BestOf.join (hbest : best ∈ s.candidates) (hpath : path.cost = best.cost) :
    { s with candidates := s.candidates ++ [path] : PathSearch }.BestOf (paths ++ [path]) := by
  have hleast : ∀ other ∈ paths, path.cost ≤ other.cost := by
    rw [hpath]
    exact ((h.mem_iff best).mp hbest).2
  refine ⟨h.sublist.append_right _, fun p => ?_, fun p hp => ?_, by simp⟩
  · simp only [mem_append, mem_singleton, h.mem_iff]
    constructor
    · rintro (⟨hp, hle⟩ | rfl)
      · refine ⟨Or.inl hp, ?_⟩
        rintro other (hother | rfl)
        · exact hle other hother
        · exact hpath ▸ hle best (h.sublist.subset hbest)
      · refine ⟨Or.inr rfl, ?_⟩
        rintro other (hother | rfl)
        · exact hleast other hother
        · exact le_rfl
    · rintro ⟨hp | rfl, hle⟩
      · exact Or.inl ⟨hp, fun other hother => hle other (Or.inl hother)⟩
      · exact Or.inr rfl
  · rcases mem_append.mp hp with hp | hp
    · exact h.best p hp
    · rw [mem_singleton.mp hp, (ConversionPath.cost_eq_iff.mp hpath).1,
        (ConversionPath.cost_eq_iff.mp hpath).2]
      exact h.best best hbest

theorem BestOf.skip (hbest : best ∈ s.candidates) (hpath : best.cost < path.cost) :
    s.BestOf (paths ++ [path]) := by
  refine ⟨h.sublist.trans (sublist_append_left _ _), fun p => ?_, h.best, fun _ => ?_⟩
  · simp only [mem_append, mem_singleton, h.mem_iff]
    constructor
    · rintro ⟨hp, hle⟩
      refine ⟨Or.inl hp, ?_⟩
      rintro other (hother | rfl)
      · exact hle other hother
      · exact (hle best (h.sublist.subset hbest)).trans hpath.le
    · rintro ⟨hp | rfl, hle⟩
      · exact ⟨hp, fun other hother => hle other (Or.inl hother)⟩
      · exact absurd (hle best (Or.inl (h.sublist.subset hbest))) (not_le.mpr hpath)
  · exact ne_nil_of_mem hbest

theorem BestOf.found (path : ConversionPath) : (s.found path).BestOf (paths ++ [path]) := by
  unfold PathSearch.found PathSearch.record
  cases hcands : s.candidates with
  | nil =>
    have hbest : s.hasBest = false := by simp [hasBest, hcands]
    rw [hbest, if_pos (by simp)]
    exact h.replace (by simp [hcands])
  | cons best others =>
    have hmem : best ∈ s.candidates := by simp [hcands]
    have hbest : s.hasBest = true := by simp [hasBest, hcands]
    rw [hbest, ← (h.best best hmem).1, ← (h.best best hmem).2, ← hcands]
    split
    · rename_i hbetter
      have hlt : path.cost < best.cost := by
        rw [ConversionPath.cost_lt_iff]
        simpa using hbetter
      refine h.replace fun other hother => hlt.trans_le ?_
      exact ((h.mem_iff best).mp hmem).2 other (h.sublist.subset hother)
    split
    · rename_i htie
      have heq : path.cost = best.cost := by
        rw [ConversionPath.cost_eq_iff]
        simpa using htie
      have hjoin := h.join hmem heq
      rwa [← (h.best best hmem).1, ← (h.best best hmem).2] at hjoin
    · rename_i hbetter htie
      refine h.skip hmem (lt_of_le_of_ne (not_lt.mp fun hlt => hbetter ?_) fun heq => htie ?_)
      · rw [ConversionPath.cost_lt_iff] at hlt
        simpa using hlt
      · have heq' := ConversionPath.cost_eq_iff.mp heq.symm
        simpa using heq'

theorem BestOf.foldl_found (more : List ConversionPath) :
    (more.foldl PathSearch.found s).BestOf (paths ++ more) := by
  induction more generalizing s paths with
  | nil => simpa using h
  | cons path more ih => simpa using ih (h.found path)

end PathSearch

/-- A search ends with the best of the simple paths. -/
theorem searchPaths_bestOf (g : ConversionGraph) (src tgt : ScalarType) :
    (searchPaths g src tgt).BestOf (g.simplePaths tgt src [src.name]) := by
  have hstart : PathSearch.BestOf { visited := [src.name] } [] := PathSearch.bestOf_nil rfl
  have hagrees := PathSearch.walk_agrees g tgt src [src.name] []
    (PathSearch.Agrees.refl { visited := [src.name] })
  exact hagrees.bestOf (hstart.foldl_found _)

/-- The candidates of a search are the optimal walks. -/
theorem mem_candidates_searchPaths_iff (hnames : g.NamesTell src tgt) (hsrc : ¬ src.isA tgt) :
    path ∈ (searchPaths g src tgt).candidates ↔ g.IsOptimal src tgt path := by
  have hsimple : ∀ {p}, g.IsOptimal src tgt p → p ∈ g.simplePaths tgt src [src.name] := fun {p} hp =>
    ConversionGraph.mem_simplePaths_iff.mpr ⟨hp.ne_nil hsrc, hp.1, hp.target_name_notMem hnames,
      hp.nodup_names hnames, hp.not_isA_of_mem_dropLast⟩
  rw [(searchPaths_bestOf g src tgt).mem_iff]
  constructor
  · rintro ⟨hpath, hle⟩
    have hreaches := (ConversionGraph.mem_simplePaths_iff.mp hpath).2.1
    refine ConversionGraph.isOptimal_iff.mpr ⟨hreaches, fun other hother => ?_⟩
    obtain ⟨best, hbest, hbestle⟩ := ConversionGraph.exists_isOptimal_le hother
    exact (hle best (hsimple hbest)).trans hbestle
  · intro hpath
    refine ⟨hsimple hpath, fun other hother => ?_⟩
    exact (ConversionGraph.isOptimal_iff.mp hpath).2 other
      (ConversionGraph.mem_simplePaths_iff.mp hother).2.1

theorem nodup_candidates_searchPaths (hg : g.WellFormed) (src tgt : ScalarType) :
    (searchPaths g src tgt).candidates.Nodup :=
  (searchPaths_bestOf g src tgt).sublist.nodup (g.nodup_simplePaths hg tgt src _)

section Members

variable {α : Type} {items : List α} {P : α → Prop}

theorem exists_eq_singleton_iff (hnodup : items.Nodup) (hmem : ∀ x, x ∈ items ↔ P x) :
    (∃ x, items = [x]) ↔ ∃! x, P x := by
  simp only [← hmem]
  match items, hnodup with
  | [], _ => simp
  | [x], _ => simp
  | x :: y :: _, hnodup =>
    refine ⟨by simp, ?_⟩
    rintro ⟨z, -, hz⟩
    have hxy : x = y := (hz x (by simp)).trans (hz y (by simp)).symm
    exact absurd hnodup (by simp [hxy])

theorem two_le_length_iff (hnodup : items.Nodup) (hmem : ∀ x, x ∈ items ↔ P x) :
    2 ≤ items.length ↔ ∃ x y, x ≠ y ∧ P x ∧ P y := by
  simp only [← hmem]
  match items, hnodup with
  | [], _ => simp
  | [x], _ =>
    refine ⟨by simp, ?_⟩
    rintro ⟨y, z, hne, hy, hz⟩
    exact absurd ((mem_singleton.mp hy).trans (mem_singleton.mp hz).symm) hne
  | x :: y :: _, hnodup =>
    refine ⟨fun _ => ⟨x, y, ?_, by simp, by simp⟩, by simp⟩
    rintro rfl
    simp at hnodup

end Members

theorem candidates_searchScalar :
    (searchScalar g src tgt).candidates = (searchPaths g src tgt).candidates := by
  unfold searchScalar
  dsimp only
  split <;> rfl

theorem canConvert_searchScalar_iff : (searchScalar g src tgt).canConvert ↔
    (searchScalar g src tgt).candidates = [(searchScalar g src tgt).path] := by
  unfold searchScalar
  dsimp only
  split
  · rename_i path hone
    simp [hone]
  · rename_i hnone
    simpa using hnone []

theorem path_searchScalar_of_singleton (h : (searchScalar g src tgt).candidates = [path]) :
    (searchScalar g src tgt).path = path := by
  rw [candidates_searchScalar] at h
  simp [searchScalar, h]

theorem findConversion_scalar (widen : Bool) (hnil : (Ty.scalar src).isNil = false)
    (hsrc : ¬ src.isA tgt) : findConversion g widen (.scalar src) (.scalar tgt) none =
      (searchScalar g src tgt, none) := by
  have hisA : (Ty.scalar src).isA (.scalar tgt) = false := by simpa [Ty.isA] using hsrc
  rw [findConversion, hnil, hisA]
  rfl

/-- The search for a conversion between two scalar types finds each optimal walk once and nothing else,
in graphs where names tell the subtypes of the target. So a conversion is possible if there is one
optimal walk, which is then its path; without a candidate there is no walk at all, and several
candidates are several optimal walks. -/
theorem searchScalar_candidates_optimal (hg : g.WellFormed) (hnames : g.NamesTell source target)
    (hsource : ¬ source.isA target) :
    let context := searchScalar g source target
    ((Ty.scalar source).isNil = false → ∀ widen,
      findConversion g widen (.scalar source) (.scalar target) none = (context, none)) ∧
    context.candidates.Nodup ∧
    (∀ path, path ∈ context.candidates ↔ g.IsOptimal source target path) ∧
    (context.canConvert ↔ ∃! path, g.IsOptimal source target path) ∧
    (context.canConvert → g.IsOptimal source target context.path ∧
      (∃ c ∈ context.path.head?, c.source.name = source.name) ∧
      (context.path.IsChain fun c d => c.target.name = d.source.name) ∧
      ∃ c ∈ context.path.getLast?, c.target.isA target) ∧
    (context.candidates = [] ↔ ∀ path, ¬ g.Reaches source target path) ∧
    (2 ≤ context.candidates.length ↔
      ∃ p q, p ≠ q ∧ g.IsOptimal source target p ∧ g.IsOptimal source target q) := by
  intro context
  have hnodup : context.candidates.Nodup :=
    candidates_searchScalar ▸ nodup_candidates_searchPaths hg source target
  have hmem : ∀ path, path ∈ context.candidates ↔ g.IsOptimal source target path := fun path =>
    candidates_searchScalar ▸ mem_candidates_searchPaths_iff hnames hsource
  have hcan : context.canConvert ↔ context.candidates = [context.path] :=
    canConvert_searchScalar_iff
  refine ⟨fun hnil widen => findConversion_scalar widen hnil hsource, hnodup, hmem, ?_, ?_, ?_,
    two_le_length_iff hnodup hmem⟩
  · rw [← exists_eq_singleton_iff hnodup hmem, hcan]
    refine ⟨fun h => ⟨_, h⟩, ?_⟩
    rintro ⟨path, hpath⟩
    exact (path_searchScalar_of_singleton hpath) ▸ hpath
  · intro h
    have hopt : g.IsOptimal source target context.path :=
      (hmem _).mp (by rw [hcan.mp h]; exact List.mem_singleton_self _)
    exact ⟨hopt, hopt.chained hg hsource⟩
  · rw [List.eq_nil_iff_forall_not_mem]
    refine ⟨fun h path hpath => ?_, fun h path hpath => h path ((hmem path).mp hpath).1⟩
    obtain ⟨best, hbest, -⟩ := ConversionGraph.exists_isOptimal_le hpath
    exact h best ((hmem best).mpr hbest)

namespace ConversionGraph

/-- The graph with the given conversions, which tell their source, their target, and whether they are
narrowing. -/
def ofEdges (edges : List (ScalarType × List (ScalarType × Bool))) : ConversionGraph :=
  edges.map fun (source, targets) =>
    (source.name, targets.map fun (target, isNarrowing) => { source, target, isNarrowing })

/-- A graph with a conversion of a type to itself, a cycle, and a narrowing conversion to the type 12
that competes with a longer way to its subtype 14. -/
def detour : ConversionGraph :=
  let int : ScalarType := { serial := 10, name := "Int" }
  let long : ScalarType := { serial := 11, name := "Long" }
  let real : ScalarType := { serial := 12, name := "Real" }
  let money : ScalarType := { serial := 14, name := "Money", parents := [real] }
  ofEdges [(int, [(int, false), (real, true), (long, false)]), (long, [(int, false), (money, false)])]

/-- A graph that comes back to the name `A` with another type, which is a subtype of the type `T`. -/
def homonym : ConversionGraph :=
  let s : ScalarType := { serial := 10, name := "S" }
  let a : ScalarType := { serial := 11, name := "A" }
  let b : ScalarType := { serial := 12, name := "B" }
  let t : ScalarType := { serial := 13, name := "T" }
  let a' : ScalarType := { serial := 14, name := "A", parents := [t] }
  ofEdges [(s, [(a, false)]), (a, [(b, false)]), (b, [(a', false)])]

end ConversionGraph

theorem searchScalar_candidates_optimal_detour :
    let int : ScalarType := { serial := 10, name := "Int" }
    let real : ScalarType := { serial := 12, name := "Real" }
    ConversionGraph.detour.WellFormed ∧ ConversionGraph.detour.NamesTell int real ∧
      ¬ int.isA real ∧ (searchScalar .detour int real).path.text = "Int -> Long -> Money" ∧
      ∃! path, ConversionGraph.detour.IsOptimal int real path := by
  intro int real
  have hg : ConversionGraph.detour.WellFormed := by
    refine ⟨by decide +kernel, fun entry hentry => ?_⟩
    have hnodup : ∀ entry ∈ ConversionGraph.detour,
        (entry.2.map (·.target.name)).Nodup := by decide +kernel
    exact (hnodup entry hentry).of_map
  have hnames : ConversionGraph.detour.NamesTell int real := by
    unfold ConversionGraph.NamesTell
    decide +kernel
  have hsource : ¬ int.isA real := by decide +kernel
  refine ⟨hg, hnames, hsource, by decide +kernel, ?_⟩
  exact (searchScalar_candidates_optimal hg hnames hsource).2.2.2.1.mp (by decide +kernel)

/-- Where a name stands for two types, one of them a subtype of the target, the search may find no
candidate although there is an optimal walk; and the nil type converts to any type without a walk. -/
theorem searchScalar_misses_homonym :
    (let s : ScalarType := { serial := 10, name := "S" }
     let t : ScalarType := { serial := 13, name := "T" }
     ConversionGraph.homonym.WellFormed ∧ ¬ s.isA t ∧
      (∃ path, ConversionGraph.homonym.IsOptimal s t path) ∧
      (findConversion .homonym false (.scalar s) (.scalar t) none).1.candidates = []) ∧
    (let t : ScalarType := { serial := 13, name := "T" }
     ¬ ScalarType.nil.isA t ∧ (∀ path, ¬ ConversionGraph.Reaches [] .nil t path) ∧
      (findConversion [] false (.scalar .nil) (.scalar t) none).1.canConvert) := by
  constructor
  · intro s t
    have hg : ConversionGraph.homonym.WellFormed := by
      refine ⟨by decide +kernel, fun entry hentry => ?_⟩
      have hnodup : ∀ entry ∈ ConversionGraph.homonym,
          (entry.2.map (·.target.name)).Nodup := by decide +kernel
      exact (hnodup entry hentry).of_map
    have hwalk : ∃ path last, ConversionGraph.homonym.IsWalk s path last ∧ last.isA t := by
      refine ⟨_, _, .cons List.mem_cons_self (.cons List.mem_cons_self (.cons List.mem_cons_self
        (.nil _))), ?_⟩
      decide +kernel
    obtain ⟨path, hpath⟩ := hwalk
    obtain ⟨best, hbest, -⟩ := ConversionGraph.exists_isOptimal_le hpath
    exact ⟨hg, by decide +kernel, ⟨best, hbest⟩, List.isEmpty_iff.mp (by decide +kernel)⟩
  · intro t
    refine ⟨by decide +kernel, ?_, by decide +kernel⟩
    rintro path ⟨last, hwalk, hlast⟩
    cases hwalk with
    | nil => exact absurd hlast (by decide +kernel)
    | cons hc _ => exact absurd hc (by simp [ConversionGraph.outgoing])

end Relational
