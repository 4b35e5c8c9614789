import Mathlib.Data.List.Chain
import Mathlib.Data.Prod.Lex
import Mathlib.Order.WellFounded
import Relational.Conversion.Path

/-!
# Walks in the graph of conversions

A walk follows declared conversions from type to type. It may come back to a type, and it may pass a type
that is already good enough. Walks are compared by their numbers of narrowing conversions and, if these
are equal, by their lengths; since both are natural numbers, some walk is best wherever there is one.

Conversions are kept by the names of their sources. Where names also tell the subtypes of the target, a
best walk enters no name twice: cutting out what lies between two visits of a name leaves a shorter walk
with no more narrowing conversions. For the same reason it stops at the first subtype of its target.
-/

namespace Relational

open List

variable {p q : ConversionPath}

namespace ConversionPath

/-- The number of narrowing conversions. -/
def narrowings (path : ConversionPath) : ℕ :=
  path.countP (·.isNarrowing)

/-- The number of narrowing conversions and the length, compared in this order. -/
def cost (path : ConversionPath) : ℕ ×ₗ ℕ :=
  toLex (path.narrowings, path.length)

/-- Whether a path has fewer narrowing conversions than another, or as many and is shorter. -/
def IsBetter (p q : ConversionPath) : Prop :=
  p.narrowings < q.narrowings ∨ p.narrowings = q.narrowings ∧ p.length < q.length

theorem isBetter_iff : p.IsBetter q ↔ p.cost < q.cost := by
  simp only [IsBetter, cost, Prod.Lex.toLex_lt_toLex]

theorem cost_lt_of_sublist (h : p.Sublist q) (hlt : p.length < q.length) : p.cost < q.cost := by
  rw [cost, cost, Prod.Lex.toLex_lt_toLex]
  rcases Nat.lt_or_eq_of_le (h.countP_le (p := (·.isNarrowing))) with hn | hn
  · exact Or.inl hn
  · exact Or.inr ⟨hn, hlt⟩

theorem cost_lt_iff : p.cost < q.cost ↔ q.score < p.score ∨ p.score = q.score ∧ p.length < q.length := by
  rw [cost, cost, Prod.Lex.toLex_lt_toLex, score, score, narrowings, narrowings]
  omega

theorem cost_eq_iff : p.cost = q.cost ↔ p.score = q.score ∧ p.length = q.length := by
  rw [cost, cost, toLex_inj, Prod.mk.injEq, score, score, narrowings, narrowings]
  omega

end ConversionPath

namespace ConversionGraph

variable {g : ConversionGraph} {src tgt last middle : ScalarType} {path part : ConversionPath}
  {c : Conversion}

/-- Conversions that lead from a type to a type, each from where the one before it leads to. -/
inductive IsWalk (g : ConversionGraph) : ScalarType → ConversionPath → ScalarType → Prop
  | nil (source : ScalarType) : IsWalk g source [] source
  | cons {source c path last} (hc : c ∈ g.outgoing source) (h : IsWalk g c.target path last) :
      IsWalk g source (c :: path) last

/-- A walk from a type to a subtype of another. -/
def Reaches (g : ConversionGraph) (source target : ScalarType) (path : ConversionPath) : Prop :=
  ∃ last, g.IsWalk source path last ∧ last.isA target

/-- A walk to a subtype of the target than which no other one is better. -/
def IsOptimal (g : ConversionGraph) (source target : ScalarType) (path : ConversionPath) : Prop :=
  g.Reaches source target path ∧ ∀ other, g.Reaches source target other → ¬ other.IsBetter path

/-- The types that a search from `source` may meet. -/
def typesInPlay (g : ConversionGraph) (source : ScalarType) : List ScalarType :=
  source :: (g.flatMap Prod.snd).map (·.target)

/-- Of the types that a search from `source` may meet, those with one name are both subtypes of the
target or both not. -/
def NamesTell (g : ConversionGraph) (source target : ScalarType) : Prop :=
  ∀ s ∈ g.typesInPlay source, ∀ t ∈ g.typesInPlay source, s.name = t.name →
    s.isA target = t.isA target

/-- Conversions are kept under the names of their sources, each once. -/
structure WellFormed (g : ConversionGraph) : Prop where
  source_name : ∀ entry ∈ g, ∀ c ∈ entry.2, c.source.name = entry.1
  nodup : ∀ entry ∈ g, entry.2.Nodup

theorem outgoing_eq_nil_or_mem (g : ConversionGraph) (src : ScalarType) :
    g.outgoing src = [] ∨ (src.name, g.outgoing src) ∈ g := by
  unfold outgoing
  cases hl : g.lookup src.name with
  | none => exact Or.inl rfl
  | some convs =>
    obtain ⟨before, after, rfl, -⟩ := lookup_eq_some_iff.mp hl
    exact Or.inr (by simp)

theorem mem_of_mem_outgoing (h : c ∈ g.outgoing src) : (src.name, g.outgoing src) ∈ g := by
  rcases g.outgoing_eq_nil_or_mem src with hnil | hmem
  · simp [hnil] at h
  · exact hmem

theorem WellFormed.source_name_of_mem_outgoing (hg : g.WellFormed) (h : c ∈ g.outgoing src) :
    c.source.name = src.name :=
  hg.source_name _ (mem_of_mem_outgoing h) c h

theorem WellFormed.nodup_outgoing (hg : g.WellFormed) (src : ScalarType) : (g.outgoing src).Nodup := by
  rcases g.outgoing_eq_nil_or_mem src with hnil | hmem
  · exact hnil ▸ nodup_nil
  · exact hg.nodup _ hmem

namespace IsWalk

theorem append (hp : g.IsWalk src p middle) (hq : g.IsWalk middle q last) : g.IsWalk src (p ++ q) last := by
  induction hp with
  | nil => exact hq
  | cons hc _ ih => exact .cons hc (ih hq)

theorem split (h : g.IsWalk src (p ++ c :: q) last) :
    g.IsWalk src (p ++ [c]) c.target ∧ g.IsWalk c.target q last := by
  induction p generalizing src with
  | nil =>
    obtain _ | ⟨hc, h⟩ := h
    exact ⟨.cons hc (.nil _), h⟩
  | cons d p ih =>
    obtain _ | ⟨hd, h⟩ := h
    obtain ⟨hp, hq⟩ := ih h
    exact ⟨.cons hd hp, hq⟩

theorem target_mem_typesInPlay (h : g.IsWalk src path last) (hc : c ∈ path) (start : ScalarType) :
    c.target ∈ g.typesInPlay start := by
  induction h with
  | nil => simp at hc
  | cons hd _ ih =>
    rcases mem_cons.mp hc with rfl | hc
    · refine mem_cons_of_mem _ (mem_map_of_mem ?_)
      exact mem_flatMap.mpr ⟨_, mem_of_mem_outgoing hd, hd⟩
    · exact ih hc

theorem target_of_mem_getLast? (h : g.IsWalk src path last) (hc : c ∈ path.getLast?) : c.target = last := by
  induction h with
  | nil => simp at hc
  | @cons _ d p _ _ hwalk ih =>
    cases p with
    | nil =>
      cases hwalk
      obtain rfl : d = c := by simpa using hc
      rfl
    | cons e p => exact ih (by simpa using hc)

/-- In a well-formed graph each conversion of a walk starts from the type that the one before it leads
to, and the first one from the source. -/
theorem isChain (hg : g.WellFormed) (h : g.IsWalk src path last) :
    (path.head?.all fun c => c.source.name = src.name) ∧
      path.IsChain fun c d => c.target.name = d.source.name := by
  induction h with
  | nil => simp
  | @cons _ c p _ hc _ ih =>
    refine ⟨by simpa using hg.source_name_of_mem_outgoing hc, ?_⟩
    cases p with
    | nil => simp
    | cons d p =>
      have hd : d.source.name = c.target.name := by simpa using ih.1
      exact isChain_cons_cons.mpr ⟨hd.symm, ih.2⟩

end IsWalk

/-- What can be reached from a type depends on its name and on whether it is itself a subtype of the
target. -/
theorem Reaches.congr {s t : ScalarType} (hname : s.name = t.name)
    (hisA : s.isA tgt = t.isA tgt) (h : g.Reaches s tgt path) : g.Reaches t tgt path := by
  obtain ⟨last, hwalk, hlast⟩ := h
  cases hwalk with
  | nil => exact ⟨t, .nil t, hisA ▸ hlast⟩
  | cons hc hwalk =>
    refine ⟨last, .cons ?_ hwalk, hlast⟩
    rwa [outgoing, ← hname]

theorem IsWalk.reaches_append (hp : g.IsWalk src p middle) (hq : g.Reaches middle tgt q) :
    g.Reaches src tgt (p ++ q) := by
  obtain ⟨last, hwalk, hlast⟩ := hq
  exact ⟨last, hp.append hwalk, hlast⟩

theorem isOptimal_iff : g.IsOptimal src tgt path ↔
    g.Reaches src tgt path ∧ ∀ other, g.Reaches src tgt other → path.cost ≤ other.cost := by
  simp only [IsOptimal, ConversionPath.isBetter_iff, not_lt]

/-- Costs are well founded, so that some walk is best. -/
theorem exists_isOptimal_le (h : g.Reaches src tgt path) :
    ∃ best, g.IsOptimal src tgt best ∧ best.cost ≤ path.cost := by
  let walks : Set ConversionPath := {p | g.Reaches src tgt p}
  have hwf : WellFounded fun p q : ConversionPath => p.cost < q.cost :=
    InvImage.wf ConversionPath.cost wellFounded_lt
  obtain ⟨best, hbest, hmin⟩ := hwf.has_min walks ⟨path, h⟩
  have hle : ∀ other, g.Reaches src tgt other → best.cost ≤ other.cost :=
    fun other hother => not_lt.mp (hmin other hother)
  exact ⟨best, isOptimal_iff.mpr ⟨hbest, hle⟩, hle path h⟩

namespace IsOptimal

variable (h : g.IsOptimal src tgt path)

include h

theorem not_reaches_of_sublist (hsub : part.Sublist path) (hlt : part.length < path.length) :
    ¬ g.Reaches src tgt part := fun hpart =>
  h.2 part hpart (ConversionPath.isBetter_iff.mpr (ConversionPath.cost_lt_of_sublist hsub hlt))

theorem ne_nil (hsrc : ¬ src.isA tgt) : path ≠ [] := by
  rintro rfl
  obtain ⟨last, hwalk, hlast⟩ := h.1
  cases hwalk
  exact hsrc hlast

/-- The conversions of an optimal walk lead from the source, one after the other, to a subtype of the
target. -/
theorem chained (hg : g.WellFormed) (hsrc : ¬ src.isA tgt) :
    (∃ c ∈ path.head?, c.source.name = src.name) ∧
      (path.IsChain fun c d => c.target.name = d.source.name) ∧
      ∃ c ∈ path.getLast?, c.target.isA tgt := by
  obtain ⟨last, hwalk, hlast⟩ := h.1
  obtain ⟨hfirst, hchain⟩ := hwalk.isChain hg
  have hne : path ≠ [] := h.ne_nil hsrc
  refine ⟨⟨path.head hne, head_mem_head? hne, ?_⟩, hchain, path.getLast hne, getLast_mem_getLast? hne, ?_⟩
  · simpa [head?_eq_some_head hne] using hfirst
  · rw [hwalk.target_of_mem_getLast? (getLast_mem_getLast? hne)]
    exact hlast

theorem target_name_notMem (hnames : g.NamesTell src tgt) : ∀ c ∈ path, c.target.name ∉ [src.name] := by
  intro c hc hname
  rw [mem_singleton] at hname
  obtain ⟨last, hwalk, hlast⟩ := h.1
  obtain ⟨before, after, rfl⟩ := append_of_mem hc
  have hisA : c.target.isA tgt = src.isA tgt :=
    hnames _ (hwalk.target_mem_typesInPlay hc src) _ mem_cons_self hname
  have hrest : g.Reaches c.target tgt after := ⟨last, hwalk.split.2, hlast⟩
  refine h.not_reaches_of_sublist ?_ ?_ (hrest.congr hname hisA)
  · exact (sublist_cons_self c after).trans (sublist_append_right before _)
  · simp only [length_append, length_cons]
    omega

theorem nodup_names (hnames : g.NamesTell src tgt) : (path.map (·.target.name)).Nodup := by
  obtain ⟨last, hwalk, hlast⟩ := h.1
  rw [List.Nodup, pairwise_map, pairwise_iff_forall_sublist]
  intro c d hcd hname
  obtain ⟨front, rest, rfl, hc, hd⟩ := cons_sublist_iff.mp hcd
  obtain ⟨before, middle, rfl⟩ := append_of_mem hc
  obtain ⟨between, after, rfl⟩ := append_of_mem (singleton_sublist.mp hd)
  have hisA : d.target.isA tgt = c.target.isA tgt :=
    hnames _ (hwalk.target_mem_typesInPlay (by simp) src) _
      (hwalk.target_mem_typesInPlay (by simp) src) hname.symm
  -- What lies between the two visits is cut out.
  have hfirst : g.IsWalk src (before ++ [c]) c.target := by
    have hwalk' : g.IsWalk src (before ++ c :: (middle ++ between ++ d :: after)) last := by
      simpa using hwalk
    exact hwalk'.split.1
  have hlater : g.Reaches d.target tgt after := by
    have hwalk' : g.IsWalk src ((before ++ c :: middle ++ between) ++ d :: after) last := by
      simpa using hwalk
    exact ⟨last, hwalk'.split.2, hlast⟩
  refine h.not_reaches_of_sublist ?_ ?_ (hfirst.reaches_append (hlater.congr hname.symm hisA))
  · refine .append ?_ ?_
    · exact (List.Sublist.refl before).append (singleton_sublist.mpr (by simp))
    · exact (sublist_cons_self d after).trans (sublist_append_right between _)
  · simp only [length_append, length_cons, length_nil]
    omega

theorem not_isA_of_mem_dropLast : ∀ c ∈ path.dropLast, ¬ c.target.isA tgt := by
  intro c hc hisA
  obtain ⟨last, hwalk, -⟩ := h.1
  obtain ⟨before, after, hsplit⟩ := append_of_mem hc
  have hne : path ≠ [] := by
    rintro rfl
    simp at hc
  have hpath : path = before ++ c :: (after ++ [path.getLast hne]) := by
    simpa [hsplit] using (dropLast_concat_getLast hne).symm
  have hstop : g.Reaches src tgt (before ++ [c]) := by
    rw [hpath] at hwalk
    exact ⟨c.target, hwalk.split.1, hisA⟩
  refine h.not_reaches_of_sublist ?_ ?_ hstop
  · rw [hpath]
    exact (List.Sublist.refl before).append (singleton_sublist.mpr (by simp))
  · rw [hpath]
    simp

end IsOptimal

end ConversionGraph

end Relational
