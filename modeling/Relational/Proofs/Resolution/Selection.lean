import Relational.Proofs.Resolution.Matching
import Relational.Proofs.Resolution.Quiet

/-!
# The overloads that fit a call best

An overload fits a call if it takes as many arguments and each argument fits its parameter, as it is or by
a conversion. Among the overloads that fit, those that narrow least and then convert in the fewest steps
are best. One pass over the overloads finds all of them, in the order in which they are declared, whatever
fits in between. So the order decides neither what is best nor whether a call is ambiguous.
-/

namespace Relational

open List

/-- A call for which an overload is looked for, and the conversions of arguments that there are. -/
structure OverloadQuery where
  graph : ConversionGraph
  call : Call
  isExact : Bool

/-- An argument and the parameter that it is passed for. -/
abbrev Place := Argument × Parameter

/-- Whether an argument needs no conversion: it has the type of the parameter, or that of no value. -/
def Place.isTaken (place : Place) : Bool :=
  place.1.type.any fun type => type.isNil || type.isA place.2.type

namespace OverloadQuery

variable (q : OverloadQuery)

/-- The conversion of an argument, found without a memory. -/
def conversion? (place : Place) : Option ConversionContext :=
  place.1.type.map fun type => (findConversion q.graph false type place.2.type none).1

/-- Whether an argument fits, by a conversion only if it need not be exact and is not passed by reference. -/
def fits (place : Place) : Bool :=
  place.isTaken || !q.isExact && place.1.modifier ≠ .var && place.2.modifier ≠ .var &&
    (q.conversion? place).any (·.canConvert)

/-- The score and the length of the conversion of an argument, if it has to be converted. -/
def cost (place : Place) : Int × Nat :=
  if place.isTaken then (0, 0)
  else (q.conversion? place).elim (0, 0) fun context => (context.score, context.length)

/-- Whether an overload takes as many arguments as the call has, and each of them fits. -/
def accepts (op : Operator) : Bool :=
  takesArity op q.call.length && (q.call.zip op.signature).all q.fits

/-- The sum of the scores of conversions; negative if one of them is narrowing. -/
def score (op : Operator) : Int :=
  ((q.call.zip op.signature).map q.cost).foldr (fun cost total => cost.1 + total) 0

/-- The total length of conversions. -/
def length (op : Operator) : Nat :=
  ((q.call.zip op.signature).map q.cost).foldr (fun cost total => cost.2 + total) 0

/-- Whether the call narrows less with one overload than with another, or as much in fewer steps. -/
def prefers (op other : Operator) : Bool :=
  q.score other < q.score op || q.score op = q.score other && q.length op < q.length other

/-- The overloads that fit and that no other one that fits is better than. -/
def best (operators : List Operator) : List Operator :=
  operators.filter fun op => q.accepts op &&
    operators.all fun other => !(q.accepts other && q.prefers other op)

variable {q} {op other third : Operator} {operators operators' : List Operator}

theorem mem_best : op ∈ q.best operators ↔ op ∈ operators ∧ q.accepts op ∧
    ∀ other ∈ operators, q.accepts other → q.prefers other op = false := by
  simp [best, ← Bool.not_eq_true, imp_iff_not_or]

theorem best_perm (h : operators'.Perm operators) : (q.best operators').Perm (q.best operators) := by
  simp only [best, h.all_eq]
  exact h.filter _

theorem best_filter (operators : List Operator) :
    q.best (operators.filter (takesArity · q.call.length)) = q.best operators := by
  have harity : ∀ op, q.accepts op → takesArity op q.call.length :=
    fun op h => (Bool.and_eq_true_iff.mp h).1
  simp only [best, filter_filter, all_filter]
  refine filter_congr fun op _ => ?_
  cases hop : q.accepts op with
  | false => rfl
  | true =>
    rw [harity op hop, Bool.and_true, Bool.true_and, Bool.true_and]
    refine congrArg (all operators) (funext fun other => ?_)
    cases hother : q.accepts other with
    | false => simp
    | true => simp [harity other hother]

/-! ### One overload more -/

theorem prefers_iff : q.prefers op other ↔ q.score other < q.score op ∨
    q.score op = q.score other ∧ q.length op < q.length other := by
  simp [prefers]

theorem prefers_of_prefers (h : q.prefers op other) (h' : q.prefers third other = false) :
    q.prefers op third ∧ q.prefers third op = false := by
  rw [← Bool.not_eq_true] at h' ⊢
  rw [prefers_iff] at h h' ⊢
  rw [prefers_iff]
  omega

theorem not_prefers_trans (h : q.prefers op other = false) (h' : q.prefers other third = false) :
    q.prefers op third = false := by
  rw [← Bool.not_eq_true] at h h' ⊢
  rw [prefers_iff] at h h' ⊢
  omega

variable {seen : List Operator}

/-- With one more overload, those are best that it is not better than, and itself if none is better. -/
theorem best_concat (seen : List Operator) (op : Operator) : q.best (seen ++ [op]) =
      (q.best seen).filter (fun other => !(q.accepts op && q.prefers op other)) ++
        bif q.accepts op && seen.all (fun other => !(q.accepts other && q.prefers other op))
          then [op] else [] := by
  have hself : q.prefers op op = false := by simp [prefers]
  simp only [best, filter_append, filter_filter, filter_singleton, all_append,
    all_cons, all_nil, Bool.and_true, hself, Bool.and_false, Bool.not_false]
  congr 1
  ac_rfl

theorem best_concat_of_prefers (hop : q.accepts op) (hbest : other ∈ q.best seen)
    (hprefers : q.prefers op other) : q.best (seen ++ [op]) = [op] := by
  obtain ⟨-, -, hunbeaten⟩ := mem_best.mp hbest
  have hbeaten : ∀ third ∈ seen, q.accepts third → q.prefers op third ∧ q.prefers third op = false :=
    fun third hthird hfits => prefers_of_prefers hprefers (hunbeaten third hthird hfits)
  have hnone : (q.best seen).filter (fun third => !(q.accepts op && q.prefers op third)) = [] := by
    refine filter_eq_nil_iff.mpr fun third hthird => ?_
    obtain ⟨hseen, hfits, -⟩ := mem_best.mp hthird
    simp [hop, hbeaten third hseen hfits]
  have hall : seen.all (fun third => !(q.accepts third && q.prefers third op)) = true := by
    refine all_eq_true.mpr fun third hthird => ?_
    cases hfits : q.accepts third with
    | false => rfl
    | true => simp [hbeaten third hthird hfits]
  rw [best_concat, hnone, hop, hall]
  rfl

theorem best_concat_of_not_prefers (hop : q.accepts op) (hbest : other ∈ q.best seen)
    (hprefers : q.prefers op other = false) :
    q.best (seen ++ [op]) = q.best seen ++ bif q.prefers other op then [] else [op] := by
  obtain ⟨hseen, hfits, hunbeaten⟩ := mem_best.mp hbest
  have hkept : (q.best seen).filter (fun third => !(q.accepts op && q.prefers op third)) =
      q.best seen := by
    refine filter_eq_self.mpr fun third hthird => ?_
    have hnot := (mem_best.mp hthird).2.2 other hseen hfits
    simp [not_prefers_trans hprefers hnot]
  have hall : seen.all (fun third => !(q.accepts third && q.prefers third op)) = !q.prefers other op := by
    cases hworse : q.prefers other op with
    | true => exact all_eq_false.mpr ⟨other, hseen, by simp [hfits, hworse]⟩
    | false =>
      refine all_eq_true.mpr fun third hthird => ?_
      cases hthird' : q.accepts third with
      | false => rfl
      | true => simp [not_prefers_trans (hunbeaten third hthird hthird') hworse]
  rw [best_concat, hkept, hop, hall]
  cases q.prefers other op <;> rfl

end OverloadQuery

/-! ### Matches -/

variable {q : OverloadQuery}

/-- Matches of arguments that tell whether they fit, and what their conversions cost. -/
structure FitsAt (q : OverloadQuery) (places : List Place) (fits : List ArgumentMatch) : Prop where
  accepts : places.all q.fits = (fits.all ArgumentMatch.fits && (!q.isExact || fits.all (·.isExact)))
  costs : fits.all ArgumentMatch.fits → places.map q.cost = fits.map fun fit => (fit.score, fit.length)

theorem FitsAt.cons {place : Place} {places : List Place} {fit : ArgumentMatch}
    {fits : List ArgumentMatch} (hfirst : FitsAt q [place] [fit]) (h : FitsAt q places fits) :
    FitsAt q (place :: places) (fit :: fits) where
  accepts := by
    have hfirst := hfirst.accepts
    simp only [all_cons, all_nil, Bool.and_true] at hfirst ⊢
    rw [hfirst, h.accepts]
    cases q.isExact <;> cases fit.fits <;> cases fit.isExact <;> simp
  costs hall := by
    obtain ⟨hfit, hfits⟩ := Bool.and_eq_true_iff.mp hall
    have hfirst := hfirst.costs (by simpa using hfit)
    exact congrArg₂ (· ++ ·) hfirst (h.costs hfits)

theorem matchArgument_fitsAt {arg : Argument} (hval : arg.type.isSome) (parameter : Parameter) :
    ∃ fit, matchArgument q.graph arg parameter none = (some fit, none) ∧
      FitsAt q [(arg, parameter)] [fit] := by
  obtain ⟨type, htype⟩ := Option.isSome_iff_exists.mp hval
  by_cases htakes : type.isNil || type.isA parameter.type
  · have htaken : Place.isTaken (arg, parameter) = true := by simp [Place.isTaken, htype, htakes]
    refine ⟨{ isExact := true }, by simp only [matchArgument, htype, if_pos htakes]; rfl, ?_, ?_⟩
    · simp [OverloadQuery.fits, htaken, ArgumentMatch.fits]
    · simp [OverloadQuery.cost, htaken, ArgumentMatch.score, ArgumentMatch.length]
  have htaken : Place.isTaken (arg, parameter) = false := by
    simpa [Place.isTaken, htype] using htakes
  by_cases hvar : arg.modifier = .var || parameter.modifier = .var
  · refine ⟨{}, by simp only [matchArgument, htype, if_neg htakes, if_pos hvar]; rfl, ?_,
      by simp [ArgumentMatch.fits]⟩
    have hvar' : arg.modifier = .var ∨ parameter.modifier = .var := by simpa using hvar
    rcases hvar' with hmodifier | hmodifier
    all_goals simp [OverloadQuery.fits, htaken, hmodifier, ArgumentMatch.fits]
  have hforgets := forgets_findConversion q.graph false type parameter.type
  refine ⟨{ conversion := some (findConversion q.graph false type parameter.type none).1 }, ?_, ?_, ?_⟩
  · simp only [matchArgument, htype, if_neg htakes, if_neg hvar]
    exact Prod.ext rfl hforgets
  · have hvar' : arg.modifier ≠ .var ∧ parameter.modifier ≠ .var := by simpa using hvar
    simp [OverloadQuery.fits, OverloadQuery.conversion?, htaken, htype, hvar', ArgumentMatch.fits,
      Bool.and_comm]
  · simp +contextual [OverloadQuery.cost, OverloadQuery.conversion?, htaken, htype, ArgumentMatch.score,
      ArgumentMatch.length, ArgumentMatch.fits]

theorem matchArguments_fitsAt {call : Call} (hvals : ∀ arg ∈ call, arg.type.isSome)
    (signature : Signature) : ∃ fits, matchArguments q.graph call signature none = (some fits, none) ∧
      FitsAt q (call.zip signature) fits := by
  induction call generalizing signature with
  | nil => exact ⟨[], rfl, by simp, by simp⟩
  | cons arg call ih =>
    cases signature with
    | nil => exact ⟨[], rfl, by simp, by simp⟩
    | cons param signature =>
      obtain ⟨hval, hvals⟩ := forall_mem_cons.mp hvals
      obtain ⟨fit, hfit, hfirst⟩ := matchArgument_fitsAt (q := q) hval param
      obtain ⟨fits, hfits, hrest⟩ := ih hvals signature
      refine ⟨fit :: fits, ?_, hfirst.cons hrest⟩
      simp only [matchArguments, bind, StateT.bind, hfit, hfits]
      rfl

/-- A match whose score and length are those of the overload. -/
def OverloadMatch.IsPriced (q : OverloadQuery) (m : OverloadMatch) : Prop :=
  m.score = q.score m.operator ∧ m.length = q.length m.operator

theorem matchOverload_reflects (hvals : ∀ arg ∈ q.call, arg.type.isSome) {op : Operator}
    (harity : takesArity op q.call.length) :
    ∃ m, matchOverload q.graph q.call op none = (some m, none) ∧ m.operator = op ∧
      q.accepts op = (m.canConvert && (!q.isExact || m.isExact)) ∧ (m.canConvert → m.IsPriced q) := by
  obtain ⟨fits, hfits, h⟩ := matchArguments_fitsAt (q := q) hvals op.signature
  refine ⟨{ operator := op, arguments := fits }, ?_, rfl, ?_, fun hconvert => ⟨?_, ?_⟩⟩
  · simp only [matchOverload, bind, StateT.bind, hfits]
    rfl
  · rw [OverloadQuery.accepts, harity, Bool.true_and]
    exact h.accepts
  · rw [OverloadQuery.score, h.costs hconvert, foldr_map]
    rfl
  · rw [OverloadQuery.length, h.costs hconvert, foldr_map]
    rfl

theorem OverloadMatch.IsPriced.isBetter_eq {m m' : OverloadMatch} (h : m.IsPriced q)
    (h' : m'.IsPriced q) : m.isBetter m' = q.prefers m.operator m'.operator := by
  rw [Bool.eq_iff_iff, OverloadQuery.prefers_iff, isBetter, h.1, h.2, h'.1, h'.2]
  split <;> simp <;> omega

theorem OverloadMatch.ties_eq (m m' : OverloadMatch) : m.ties m' = !(m.isBetter m' || m'.isBetter m) := by
  rw [Bool.eq_iff_iff]
  simp only [ties, isBetter, Bool.and_eq_true, Bool.not_eq_true', Bool.or_eq_false_iff]
  split <;> split <;> simp <;> omega

/-! ### The choice -/

namespace OverloadChoice

variable {choice : OverloadChoice} {seen rest : List Operator} {m : OverloadMatch}

/-- The overload that is chosen, followed by those that tie with it. -/
def winners (choice : OverloadChoice) : List Operator :=
  (choice.best.toList ++ choice.ties).map (·.operator)

/-- A choice of the best ones among the overloads that were looked at. -/
structure Picks (q : OverloadQuery) (choice : OverloadChoice) (seen : List Operator) : Prop where
  winners : choice.winners = q.best seen
  priced : ∀ m ∈ choice.best, m.IsPriced q
  nothing : choice.best = none → choice.ties = [] ∧ ∀ op ∈ seen, q.accepts op = false

theorem Picks.add (h : choice.Picks q seen)
    (haccepts : q.accepts m.operator = (m.canConvert && (!q.isExact || m.isExact)))
    (hpriced : m.canConvert → m.IsPriced q) : (choice.add q.isExact m).Picks q (seen ++ [m.operator]) := by
  have hfails : (!m.canConvert || (q.isExact && !m.isExact)) = !q.accepts m.operator := by
    rw [haccepts, Bool.not_and, Bool.not_or, Bool.not_not]
  unfold OverloadChoice.add
  rw [hfails]
  cases hop : q.accepts m.operator with
  | false =>
    refine ⟨?_, h.priced, fun hnone => ⟨(h.nothing hnone).1, fun op hmem => ?_⟩⟩
    · rw [OverloadQuery.best_concat, hop, ← h.winners]
      simp [OverloadChoice.winners]
    · rcases mem_append.mp hmem with hmem | hmem
      · exact (h.nothing hnone).2 op hmem
      · rwa [mem_singleton.mp hmem]
  | true =>
    have hpriced := hpriced (Bool.and_eq_true_iff.mp (haccepts.symm.trans hop)).1
    cases hbest : choice.best with
    | none =>
      obtain ⟨-, hnever⟩ := h.nothing hbest
      refine ⟨?_, by simpa using hpriced, by simp⟩
      have hall : seen.all (fun other => !(q.accepts other && q.prefers other m.operator)) = true :=
        all_eq_true.mpr fun other hother => by simp [hnever other hother]
      have hempty : q.best seen = [] :=
        filter_eq_nil_iff.mpr fun other hother => by simp [hnever other hother]
      rw [OverloadQuery.best_concat, hempty, hop, hall]
      rfl
    | some best =>
      have hpriced' := h.priced best hbest
      have hmem : best.operator ∈ q.best seen := by
        rw [← h.winners, OverloadChoice.winners, hbest]
        exact mem_cons_self
      dsimp only
      rw [OverloadMatch.ties_eq, hpriced.isBetter_eq hpriced', hpriced'.isBetter_eq hpriced]
      cases hprefers : q.prefers m.operator best.operator with
      | true =>
        refine ⟨?_, by simpa using hpriced, by simp⟩
        rw [OverloadQuery.best_concat_of_prefers hop hmem hprefers]
        rfl
      | false =>
        have hwinners := OverloadQuery.best_concat_of_not_prefers hop hmem hprefers
        rw [← h.winners] at hwinners
        cases hties : q.prefers best.operator m.operator
        all_goals
          refine ⟨?_, by simpa using hpriced', by simp⟩
          simpa [hties, OverloadChoice.winners, hbest] using hwinners.symm

theorem foldlM_next_picks (hvals : ∀ arg ∈ q.call, arg.type.isSome)
    (harity : ∀ op ∈ rest, takesArity op q.call.length) (h : choice.Picks q seen) :
    ∃ last, (rest.foldlM (next q.graph q.call q.isExact) (some choice) none).1 = some last ∧
      last.Picks q (seen ++ rest) := by
  induction rest generalizing choice seen with
  | nil => exact ⟨choice, rfl, by rwa [append_nil]⟩
  | cons op rest ih =>
    obtain ⟨hop, hrest⟩ := forall_mem_cons.mp harity
    obtain ⟨m, hm, rfl, haccepts, hpriced⟩ := matchOverload_reflects hvals hop
    obtain ⟨last, hlast, hpicks⟩ := ih hrest (h.add haccepts hpriced)
    refine ⟨last, ?_, by rwa [append_assoc, singleton_append] at hpicks⟩
    rw [← hlast, foldlM_cons]
    simp only [next, bind, StateT.bind, hm]
    rfl

theorem Picks.best_eq_none_iff (h : choice.Picks q seen) :
    choice.best = none ↔ ∀ op ∈ seen, q.accepts op = false := by
  refine ⟨fun hnone => (h.nothing hnone).2, fun hnever => Option.eq_none_iff_forall_not_mem.mpr ?_⟩
  intro m hm
  have hmem : m.operator ∈ q.best seen := by
    rw [← h.winners, OverloadChoice.winners, Option.mem_def.mp hm]
    exact mem_cons_self
  obtain ⟨hop, haccepts, -⟩ := OverloadQuery.mem_best.mp hmem
  exact Bool.noConfusion (haccepts.symm.trans (hnever _ hop))

theorem Picks.best_and_ties (h : choice.Picks q seen) :
    choice.best.map (·.operator) = choice.winners.head? ∧
      (choice.ties = [] ↔ choice.winners.length ≤ 1) := by
  cases hbest : choice.best with
  | none => simp [OverloadChoice.winners, hbest, (h.nothing hbest).1]
  | some best => simp [OverloadChoice.winners, hbest]

end OverloadChoice

/-- A memory of conversions, if there is one, holds outcomes of searches between types that their names tell
apart, those of the call and of the overloads among them. -/
def OverloadQuery.Recalls (q : OverloadQuery) (operators : List Operator) (cache : Option ConversionCache) :
    Prop :=
  ∀ memory ∈ cache, ∃ types, Identified types ∧ memory.Coherent types q.graph ∧
    q.call.scalars ⊆ types ∧ ∀ op ∈ operators, op.scalars ⊆ types

theorem chooseOverload_picks (hvals : ∀ arg ∈ q.call, arg.type.isSome)
    {operators : List Operator} {cache : Option ConversionCache} (hcache : q.Recalls operators cache) :
    ∃ choice, (chooseOverload q.graph q.call q.isExact operators cache).1 = some choice ∧
      choice.Picks q operators := by
  have hforget : (chooseOverload q.graph q.call q.isExact operators cache).1 =
      (chooseOverload q.graph q.call q.isExact operators none).1 := by
    cases cache with
    | none => rfl
    | some memory =>
      obtain ⟨types, hid, hcoh, hcall, hops⟩ := hcache memory rfl
      obtain ⟨names, answer, hdepends, -⟩ :=
        chooseOverload_dependsOn (g := q.graph) hid q.isExact hcall hops
      obtain ⟨cache', -, heq⟩ := hdepends.answers.remembering memory hcoh
      rw [heq, hdepends.answers.without]
  rw [hforget, chooseOverload_eq]
  have hstart : OverloadChoice.Picks q {} [] := ⟨rfl, by simp, by simp⟩
  have harity : ∀ op ∈ operators.filter (takesArity · q.call.length), takesArity op q.call.length :=
    fun op hop => (mem_filter.mp hop).2
  obtain ⟨choice, hchoice, hpicks⟩ := OverloadChoice.foldlM_next_picks hvals harity hstart
  refine ⟨choice, hchoice, hpicks.winners.trans (OverloadQuery.best_filter operators), hpicks.priced,
    fun hnone => ⟨(hpicks.nothing hnone).1, fun op hop => ?_⟩⟩
  cases htakes : takesArity op q.call.length with
  | true => exact (hpicks.nothing hnone).2 op (mem_filter.mpr ⟨hop, htakes⟩)
  | false => rw [OverloadQuery.accepts, htakes, Bool.false_and]

/-- A call has no match if and only if no overload fits. Otherwise the overload that is chosen and those
that tie with it are the ones that fit best. What is best, whether the call is ambiguous, and which overload
is chosen if it is not, do not depend on the order of the overloads. -/
theorem chooseOverload_optimal (q : OverloadQuery) (operators : List Operator)
    (cache : Option ConversionCache) (hvalues : ∀ argument ∈ q.call, argument.type.isSome)
    (hcache : q.Recalls operators cache) :
    ∃ choice, (chooseOverload q.graph q.call q.isExact operators cache).1 = some choice ∧
      (choice.best = none ↔ ∀ op ∈ operators, q.accepts op = false) ∧
      choice.winners = q.best operators ∧
      ∀ operators' cache', operators'.Perm operators → q.Recalls operators' cache' →
        ∃ choice', (chooseOverload q.graph q.call q.isExact operators' cache').1 = some choice' ∧
          choice'.winners.Perm choice.winners ∧ (choice'.ties = [] ↔ choice.ties = []) ∧
          (choice.ties = [] →
            choice'.best.map (·.operator) = choice.best.map (·.operator)) := by
  obtain ⟨choice, hchoice, hpicks⟩ := chooseOverload_picks hvalues hcache
  refine ⟨choice, hchoice, hpicks.best_eq_none_iff, hpicks.winners, ?_⟩
  intro operators' cache' hperm hcache'
  obtain ⟨choice', hchoice', hpicks'⟩ := chooseOverload_picks hvalues hcache'
  have hwinners : choice'.winners.Perm choice.winners := by
    rw [hpicks.winners, hpicks'.winners]
    exact OverloadQuery.best_perm hperm
  obtain ⟨hhead, hties⟩ := hpicks.best_and_ties
  obtain ⟨hhead', hties'⟩ := hpicks'.best_and_ties
  refine ⟨choice', hchoice', hwinners, by rw [hties, hties', hwinners.length_eq], fun hone => ?_⟩
  rw [hties] at hone
  -- a list with one winner at most has no other order
  have hsame : choice'.winners = choice.winners := by
    cases hlist : choice.winners with
    | nil => rwa [hlist, List.perm_nil] at hwinners
    | cons op rest =>
      rw [hlist, List.length_cons] at hone
      obtain rfl : rest = [] := List.eq_nil_of_length_eq_zero (by omega)
      rwa [hlist, List.perm_singleton] at hwinners
  rw [hhead, hhead', hsame]

/-- Two of three overloads convert one argument each, in either order. -/
theorem chooseOverload_optimal_ambiguous :
    let int : ScalarType := { serial := 10, name := "Int" }
    let real : ScalarType := { serial := 11, name := "Real" }
    let q : OverloadQuery := {
      graph := ConversionGraph.ofEdges [(int, [(real, false)])]
      call := Call.ofSignature (.ofTypes [.scalar int, .scalar int])
      isExact := false }
    let overload (serial : Nat) (types : List ScalarType) : Operator :=
      { serial, name := "Add", signature := .ofTypes (types.map .scalar), returnType := none }
    let operators := [overload 1 [real, real], overload 2 [int, real], overload 3 [real, int]]
    let memory : ConversionCache := { capacity := 4 }
    q.Recalls operators (some memory) ∧
      ∃ choice, (chooseOverload q.graph q.call false operators (some memory)).1 = some choice ∧
        choice.winners.map (·.serial) = [2, 3] ∧
        ∃ choice', (chooseOverload q.graph q.call false operators.reverse (some memory)).1 = some choice' ∧
          choice'.winners.Perm choice.winners := by
  intro int real q overload operators memory
  have hrecalls : ∀ operators', operators'.Perm operators → q.Recalls operators' (some memory) := by
    rintro operators' hperm _ ⟨⟩
    refine ⟨[int, real], by simp [Identified, int, real], ConversionCache.coherent_empty _ _ _, ?_, ?_⟩
    · simp [Call.scalars, q, Call.ofSignature, Signature.ofTypes, Ty.scalars]
    · intro op hop
      rw [hperm.mem_iff] at hop
      revert hop op
      simp [operators, overload, Operator.scalars, Signature.ofTypes, Ty.scalars]
  have hself := hrecalls operators (.refl _)
  have hvalues : ∀ argument ∈ q.call, argument.type.isSome := by
    simp [q, Call.ofSignature, Signature.ofTypes]
  obtain ⟨choice, hchoice, -, hwinners, hpermuted⟩ :=
    chooseOverload_optimal q operators (some memory) hvalues hself
  have hreverse := operators.reverse_perm
  obtain ⟨choice', hchoice', hperm, -⟩ := hpermuted _ _ hreverse (hrecalls _ hreverse)
  refine ⟨hself, choice, hchoice, ?_, choice', hchoice', hperm⟩
  rw [hwinners]
  decide +kernel

end Relational
