import Relational.Proofs.Resolution.Transparency

/-!
# Memories over an unchanging catalog

As long as operators and conversions stay as they are, it makes no difference what was looked up before.
Calls that pass values are remembered by the names of the types of their arguments. Where names tell types
apart, a remembered match is the one that its call would have, so that calls and conversions have the same
outcome in all workspaces with the same operators and conversions, whatever these remember.
-/

namespace Relational

variable {α : Type} {options : ResolutionOptions} {types : List ScalarType} {best : OverloadMatch}
  {overloads : Overloads} {call : Call}

/-! ### Plain calls -/

/-- A call that passes values. -/
def Call.IsPlain (call : Call) : Prop :=
  ∀ argument ∈ call, argument = { type := argument.type }

theorem Call.IsPlain.eq_of_key_eq (hid : Identified types) {call' : Call} (hplain : call.IsPlain)
    (hplain' : call'.IsPlain) (hscalar : call.isScalar) (hscalar' : call'.isScalar)
    (hcall : call.scalars ⊆ types) (hcall' : call'.scalars ⊆ types) {name name' : String}
    {path path' : ResolutionPath} {isExact isExact' : Bool}
    (h : call.key name path isExact = call'.key name' path' isExact') : call = call' := by
  rw [← List.forall₂_eq_eq_eq]
  refine forall₂_of_key_eq hscalar hscalar' hcall hcall' h
    fun arg harg arg' harg' type hmem type' hmem' htype htype' htext => ?_
  rw [hplain arg harg, hplain' arg' harg'] at htext ⊢
  obtain rfl := hid type hmem type' hmem' (Or.inl (by simpa [text] using htext))
  rw [htype, htype']

/-! ### Memories -/

namespace OperatorCache

variable {c : Catalog} {cache : OperatorCache}

/-- A memory with a complete index of matches that plain calls have in a catalog. -/
structure Recalls (options : ResolutionOptions) (types : List ScalarType) (c : Catalog)
    (cache : OperatorCache) : Prop where
  indexed : cache.Indexed tags
  entries : ∀ entry ∈ cache.entries, ∃ call overloads choice, Call.IsPlain call ∧
    call.Chooses options types c entry.1 overloads choice ∧ choice.best = some entry.2.found ∧
    choice.ties = []

variable (h : cache.Recalls options types c)

include h

theorem Recalls.get? (key : CallKey) : Recalls options types c (cache.get? key).2 :=
  ⟨h.indexed.get? key, fun entry hentry =>
    h.entries entry ((Recent.mem_entries_get? h.indexed key).mp hentry)⟩

theorem Recalls.remember (hplain : call.IsPlain) {key : CallKey} {choice : OverloadChoice}
    (hchooses : call.Chooses options types c key overloads choice) (hbest : choice.best = some best)
    (hties : choice.ties = []) (name : String) (visited : List String) :
    Recalls options types c (cache.remember key name best visited) := by
  refine ⟨h.indexed.put _ _, fun entry hentry => ?_⟩
  rcases Recent.mem_entries_put hentry with rfl | ⟨hold, -⟩
  · exact ⟨call, overloads, choice, hplain, hchooses, hbest, hties⟩
  · exact h.entries entry hold

theorem Recalls.choice_of_find? (hid : Identified types) (hplain : call.IsPlain) (hscalar : call.isScalar)
    (hcall : call.scalars ⊆ types) {name : String} {path : ResolutionPath} {isExact : Bool}
    {m : RememberedMatch} (hfind : cache.find? (call.key name path isExact) = some m)
    (hdecl : c.declaredOverloads options path name = .one overloads) :
    ∃ choice, (chooseOverload c.conversions call isExact overloads.operators none).1 = some choice ∧
      choice.best = some m.found ∧ choice.ties = [] := by
  obtain ⟨call', overloads', choice, hplain', hchooses, hbest, hties⟩ :=
    h.entries _ (Recent.mem_entries_of_find? hfind)
  obtain rfl : call' = call := hplain'.eq_of_key_eq hid hplain hchooses.isScalar hscalar
    hchooses.scalars hcall hchooses.key_eq
  obtain rfl : overloads' = overloads := Found.one.inj (hchooses.declared.symm.trans hdecl)
  exact ⟨choice, hchooses.choice_eq, hbest, hties⟩

end OperatorCache

/-- A workspace with the operators and conversions of another one that remembers what is found there. -/
structure Workspace.Recalls (options : ResolutionOptions) (types : List ScalarType)
    (w base : Workspace) : Prop where
  view : w.operatorView = base.operatorView
  conversions : w.catalog.conversions = base.catalog.conversions
  contexts : ∀ cache ∈ w.conversionCache, cache.Coherent types base.catalog.conversions
  matched : ∀ cache ∈ w.operatorCache, cache.Recalls options types base.catalog

namespace Workspace

variable {base w : Workspace}

theorem Recalls.answer (h : w.Recalls options types base)
    {act : StateM (Option ConversionCache) α} {answer : α}
    (hact : Answers types base.catalog.conversions act answer) : (act w.conversionCache).1 = answer ∧
      ({ w with conversionCache := (act w.conversionCache).2 } : Workspace).Recalls options types
        base := by
  cases hcache : w.conversionCache with
  | none =>
    rw [hact.without]
    exact ⟨rfl, { h with contexts := by rintro _ ⟨⟩ }⟩
  | some cache =>
    obtain ⟨cache', hcoh, heq⟩ := hact.remembering cache (h.contexts cache hcache)
    rw [heq]
    refine ⟨rfl, { h with contexts := ?_ }⟩
    rintro _ ⟨⟩
    exact hcoh

theorem Recalls.findConversion (h : w.Recalls options types base) (hid : Identified types)
    (widen : Bool) {src tgt : Ty} (hsrc : src.scalars ⊆ types) (htgt : tgt.scalars ⊆ types) :
    (w.findConversion widen src tgt).1 =
        (Relational.findConversion base.catalog.conversions widen src tgt none).1 ∧
      (w.findConversion widen src tgt).2.Recalls options types base := by
  obtain ⟨ctx, hctx⟩ :=
    findConversion_answers (g := base.catalog.conversions) hid widen src tgt hsrc htgt
  have hanswer := h.answer hctx
  rw [hctx.without]
  rw [Workspace.findConversion, h.conversions]
  exact hanswer

end Workspace

/-- Memories of plain calls. Where names tell types apart, a plain call is told by its key. -/
def Memories.plain (hid : Identified types) (base : Workspace) : Memories options types base where
  Held w := w.Recalls options types base
  Admits := Call.IsPlain
  view hw := hw.view
  conversions hw := hw.conversions
  answer hw hact := hw.answer hact
  remember hw hplain hchooses hbest hties visited := by
    refine { hw with matched := fun cache hcache => ?_ }
    obtain ⟨before, hbefore, rfl⟩ := Option.map_eq_some_iff.mp hcache
    exact (hw.matched before hbefore).remember hplain hchooses hbest hties _ _
  remembered hw hcache key := by
    refine { hw with matched := ?_ }
    rintro _ ⟨⟩
    exact (hw.matched _ hcache).get? key
  current hw hcache hplain hscalar hcall hfind hdecl :=
    (hw.matched _ hcache).choice_of_find? hid hplain hscalar hcall hfind hdecl

end Relational
