import Relational.Proofs.Resolution.Matching

/-!
# Remembered calls

A call over scalar arguments that an operator of the catalog answered is remembered by its name, the
texts of its arguments, its path and whether it has to be exact, but not by the operator that its name
designated. Each remembered match is nevertheless the one that the call has in the current catalog: a
change that leaves it remembered announced no operator with the last segment of its name, so that the
name designates the same overloads, and no type that a conversion of its arguments saw, so that each
overload fits as before.
-/

namespace Relational

/-! ### The overloads of a name in the catalog -/

namespace Catalog

/-- The overloads that a name designates, with the default namespace in front or as it is. -/
def declaredOverloads (c : Catalog) (options : ResolutionOptions) (path : ResolutionPath)
    (name : String) : Found Overloads :=
  if options.space ≠ "" ∧ ¬ Name.startsWith name (options.space ++ ".") then
    match c.resolveOperatorName (Name.qualified options.space name) path with
    | .nothing => c.resolveOperatorName name path
    | found => found
  else c.resolveOperatorName name path

variable {c c' : Catalog} {opts : ResolutionOptions} {path : ResolutionPath} {name : String}
  {types : List ScalarType} {overloads : Overloads}

theorem exists_declaredOverloads_eq (c : Catalog) (opts : ResolutionOptions)
    (path : ResolutionPath) (name : String) : ∃ ref, Name.unqualified ref = Name.unqualified name ∧
      c.declaredOverloads opts path name = c.resolveOperatorName ref path := by
  rw [declaredOverloads]
  split
  · split
    · exact ⟨name, rfl, rfl⟩
    · exact ⟨_, Name.unqualified_qualified _ _, rfl⟩
  · exact ⟨name, rfl, rfl⟩

theorem declaredOverloads_congr (h : ∀ ref, Name.unqualified ref = Name.unqualified name →
      c'.resolveOperatorName ref path = c.resolveOperatorName ref path) :
    c'.declaredOverloads opts path name = c.declaredOverloads opts path name := by
  rw [declaredOverloads, declaredOverloads, h name rfl, h _ (Name.unqualified_qualified _ _)]

theorem OperatorsAmong.unqualified_declared (hc : c.OperatorsAmong types)
    (h : c.declaredOverloads opts path name = .one overloads) :
    Name.unqualified overloads.name = Name.unqualified name := by
  obtain ⟨ref, href, heq⟩ := c.exists_declaredOverloads_eq opts path name
  rw [← href]
  exact hc.unqualified_eq (heq.symm.trans h)

theorem scalars_of_declaredOverloads (hc : overloadScalars c.operators ⊆ types)
    (h : c.declaredOverloads opts path name = .one overloads) :
    ∀ op ∈ overloads.operators, op.scalars ⊆ types := by
  obtain ⟨ref, -, heq⟩ := c.exists_declaredOverloads_eq opts path name
  exact scalars_of_resolveOperatorName hc (heq.symm.trans h)

end Catalog

/-- The sources of overloads where a name leads to those of the catalog. -/
def Found.sources (name : String) : Found Overloads → Except Abort (List OverloadSource)
  | .nothing => .ok []
  | .one overloads => .ok [{ overloads, isCataloged := true }]
  | .ambiguous names => .error (.ofCause (.ambiguousIdentifier name names))

theorem findDeclaredOverloads_apply (opts : ResolutionOptions) (path : ResolutionPath)
    (name : String) (w : Workspace) : findDeclaredOverloads opts path name w =
      ((w.catalog.declaredOverloads opts path name).sources name, w) := by
  have hplain : ∀ found : Found Overloads, (Resolving.unambiguous name found >>= fun found =>
      pure ((found.map fun overloads => [({ overloads, isCataloged := true } : OverloadSource)]).getD
        [])) w = (found.sources name, w) := by
    intro found
    cases found <;> rfl
  by_cases hspace : opts.space ≠ "" ∧ ¬ Name.startsWith name (opts.space ++ ".")
  · simp only [findDeclaredOverloads, Catalog.declaredOverloads, if_pos hspace]
    change (Resolving.unambiguous name
      (w.catalog.resolveOperatorName (Name.qualified opts.space name) path) >>= _) w = _
    cases w.catalog.resolveOperatorName (Name.qualified opts.space name) path with
    | nothing => exact hplain _
    | one overloads => rfl
    | ambiguous names => rfl
  · simp only [findDeclaredOverloads, Catalog.declaredOverloads, if_neg hspace]
    exact hplain _

/-! ### Matches that are current -/

section Chooses

variable {opts : ResolutionOptions} {types : List ScalarType} {c : Catalog} {call : Call}
  {key : CallKey} {overloads : Overloads} {choice : OverloadChoice}

/-- A call over scalar arguments with a key for which there is a choice among the overloads of its
name. -/
structure Call.Chooses (options : ResolutionOptions) (types : List ScalarType) (c : Catalog)
    (call : Call) (key : CallKey) (overloads : Overloads) (choice : OverloadChoice) : Prop where
  isScalar : call.isScalar
  scalars : call.scalars ⊆ types
  key_eq : call.key key.name key.path key.isExact = key
  declared : c.declaredOverloads options key.path key.name = .one overloads
  choice_eq : (chooseOverload c.conversions call key.isExact overloads.operators none).1 = some choice

/-- The choice for a call stays if a change announces no operator with the last segment of its name and
no type that the conversions of its arguments saw. -/
theorem Call.Chooses.change (h : call.Chooses opts types c key overloads choice)
    (hid : Identified types) (hc : c.OperatorsAmong types) {α : Type} {change : Change α}
    (hconvs : change.IsAnnounced types c) (hops : change.AnnouncesOperators types c)
    (hnames : ∀ event ∈ change.events, ∀ name ∈ event.operatorName?,
      Name.unqualified name ≠ Name.unqualified key.name)
    (htypes : ∀ event ∈ change.events, ∀ name ∈ event.typeName?, name ∉ choice.visited) :
    call.Chooses opts types change.catalog key overloads choice where
  isScalar := h.isScalar
  scalars := h.scalars
  key_eq := h.key_eq
  declared := by
    rw [← h.declared]
    refine Catalog.declaredOverloads_congr fun ref href => ?_
    exact hops.resolves ref (href ▸ hnames) key.path
  choice_eq := by
    obtain ⟨names, answer, hdepends, hvisited⟩ := chooseOverload_dependsOn (g := c.conversions) hid
      key.isExact h.scalars (Catalog.scalars_of_declaredOverloads hc.scalars h.declared)
    have hanswer : answer = some choice := by
      rw [← h.choice_eq, hdepends.answers.without]
    have hsame := (hconvs.sameWithin _ htypes).mono (hvisited choice hanswer)
    exact (congrArg Prod.fst (hdepends _ hsame).without).trans hanswer

theorem Call.Chooses.choice_of_key_eq (h : call.Chooses opts types c key overloads choice)
    (hid : Identified types) (hplain : PlainlyNamed types) {call' : Call} (hscalar : call'.isScalar)
    (hcall : call'.scalars ⊆ types) (hkey : call'.key key.name key.path key.isExact = key) :
    (chooseOverload c.conversions call' key.isExact overloads.operators none).1 = some choice := by
  have hrequired : call'.required = call.required :=
    required_eq_of_key_eq hscalar h.isScalar hcall h.scalars (hkey.trans h.key_eq.symm) hid hplain
  rw [← chooseOverload_required, hrequired, chooseOverload_required]
  exact h.choice_eq

/-- A remembered match that a call with the key has in the catalog, with the last segment of its name and
the types that its conversions saw among what outdates it. -/
def RememberedMatch.IsCurrent (options : ResolutionOptions) (types : List ScalarType) (c : Catalog)
    (key : CallKey) (m : RememberedMatch) : Prop :=
  ∃ call overloads choice, Call.Chooses options types c call key overloads choice ∧
    choice.best = some m.found ∧ choice.ties = [] ∧
    Name.unqualified key.name ∈ m.names ∧ choice.visited ⊆ m.types

end Chooses

/-! ### The memory of calls -/

theorem CatalogEvent.type_mem_callTags {event : CatalogEvent} {name : String}
    (h : name ∈ event.typeName?) : .type name ∈ event.callTags := by
  cases event <;> simp_all [typeName?, callTags]

theorem CatalogEvent.operators_mem_callTags {event : CatalogEvent} {name : String}
    (h : name ∈ event.operatorName?) : .operators (Name.unqualified name) ∈ event.callTags := by
  cases event <;> simp_all [operatorName?, callTags]

namespace OperatorCache

variable {opts : ResolutionOptions} {types : List ScalarType} {c : Catalog} {cache : OperatorCache}

/-- A memory with a complete index of matches that are current in a catalog. -/
structure Coherent (options : ResolutionOptions) (types : List ScalarType) (c : Catalog)
    (cache : OperatorCache) : Prop where
  indexed : cache.Indexed tags
  entries : ∀ entry ∈ cache.entries, entry.2.IsCurrent options types c entry.1

theorem coherent_empty (opts : ResolutionOptions) (types : List ScalarType) (c : Catalog)
    (capacity : Nat) : Coherent opts types c { capacity } :=
  ⟨Recent.indexed_empty tags capacity, by simp⟩

variable (h : cache.Coherent opts types c)

include h

theorem Coherent.get? (key : CallKey) : Coherent opts types c (cache.get? key).2 :=
  ⟨h.indexed.get? key, fun entry hentry =>
    h.entries entry ((Recent.mem_entries_get? h.indexed key).mp hentry)⟩

theorem Coherent.remember (hc : c.OperatorsAmong types) {call : Call} {key : CallKey}
    {overloads : Overloads} {choice : OverloadChoice}
    (hchooses : call.Chooses opts types c key overloads choice) {best : OverloadMatch}
    (hbest : choice.best = some best) (hties : choice.ties = []) (visited : List String) :
    Coherent opts types c (cache.remember key overloads.name best (choice.visited ++ visited)) := by
  refine ⟨h.indexed.put _ _, fun entry hentry => ?_⟩
  rcases Recent.mem_entries_put hentry with rfl | ⟨hold, -⟩
  · refine ⟨call, overloads, choice, hchooses, hbest, hties, ?_, ?_⟩
    · simp [hc.unqualified_declared hchooses.declared]
    · exact fun name hname => List.mem_append_right _ (List.mem_append_left _ hname)
  · exact h.entries entry hold

/-- Announced changes of the catalog leave a memory coherent. -/
theorem Coherent.foldl_notify (hid : Identified types) (hc : c.OperatorsAmong types) {α : Type}
    {change : Change α} (hconvs : change.IsAnnounced types c) (hops : change.AnnouncesOperators types c) :
    Coherent opts types change.catalog (change.events.foldl notify cache) := by
  rw [foldl_notify_eq]
  obtain ⟨hindexed, hentries⟩ :=
    h.indexed.foldl_invalidate (change.events.flatMap CatalogEvent.callTags)
  refine ⟨hindexed, fun entry hentry => ?_⟩
  obtain ⟨hold, htags⟩ := hentries entry hentry
  obtain ⟨call, overloads, choice, hchooses, hbest, hties, hname, hvisited⟩ := h.entries entry hold
  have hevent : ∀ event ∈ change.events, ∀ tag ∈ event.callTags, tag ∉ tags entry.1 entry.2 :=
    fun event hevent tag htag => htags tag (List.mem_flatMap.mpr ⟨event, hevent, htag⟩)
  refine ⟨call, overloads, choice, ?_, hbest, hties, hname, hvisited⟩
  refine hchooses.change hid hc hconvs hops (fun event hmem name hchanged hsame => ?_)
    fun event hmem name hchanged hseen => ?_
  · refine hevent event hmem _ (CatalogEvent.operators_mem_callTags hchanged) ?_
    simpa [tags, hsame] using hname
  · refine hevent event hmem _ (CatalogEvent.type_mem_callTags hchanged) ?_
    simpa [tags] using hvisited hseen

end OperatorCache

/-! ### Workspaces with memories -/

namespace Workspace

variable {w : Workspace} {opts : ResolutionOptions} {types : List ScalarType}

/-- A workspace with a well-kept catalog and coherent memories of its conversions and calls. -/
structure RemembersCalls (options : ResolutionOptions) (types : List ScalarType)
    (w : Workspace) : Prop extends Remembers types w where
  operators : w.catalog.OperatorsAmong types
  calls : ∃ cache : OperatorCache, w.operatorCache = some cache ∧
    cache.Coherent options types w.catalog

theorem RemembersCalls.apply (h : w.RemembersCalls opts types) (hid : Identified types) {α : Type}
    {change : Change α} (hconvs : change.IsAnnounced types w.catalog)
    (hops : change.AnnouncesOperators types w.catalog) : (w.apply change).RemembersCalls opts types := by
  obtain ⟨cache, hcache, hcoh⟩ := h.calls
  refine { h.toRemembers.apply hconvs with operators := ?_, calls := ?_ }
  all_goals rw [apply_eq]
  · exact hops.among
  · rw [hcache]
    exact ⟨_, rfl, hcoh.foldl_notify hid h.operators hconvs hops⟩

end Workspace

end Relational
