import Relational.Proofs.Catalog.Conversions

/-!
# The memory of conversions is transparent

Remembering the outcomes of searches changes no answer. Each remembered outcome is what a search in the
current graph would find: a change that leaves it remembered was not announced for any type that its
search met, and so leaves the search as it is. Since the index of the memory is complete, an outcome that
an announcement concerns is always forgotten, however the memory was used before.
-/

namespace Relational

variable {src tgt : ScalarType}

namespace ConversionCache

variable {types : List ScalarType} {g g' : ConversionGraph} {cache : ConversionCache}

/-- A memory with a complete index that holds outcomes of searches in a graph between given types. -/
structure Coherent (types : List ScalarType) (g : ConversionGraph) (cache : ConversionCache) :
    Prop where
  indexed : cache.Indexed tags
  entries : ∀ entry ∈ cache.entries, ∃ source ∈ types, ∃ target ∈ types,
    entry = ((source.name, target.name), searchScalar g source target)

theorem coherent_empty (types : List ScalarType) (g : ConversionGraph) (capacity : Nat) :
    Coherent types g { capacity } :=
  ⟨Recent.indexed_empty tags capacity, by simp⟩

namespace Coherent

variable (h : cache.Coherent types g)

include h

theorem get? (key : String × String) : Coherent types g (cache.get? key).2 :=
  ⟨h.indexed.get? key, fun entry hentry =>
    h.entries entry ((Recent.mem_entries_get? h.indexed key).mp hentry)⟩

theorem put (hsrc : src ∈ types) (htgt : tgt ∈ types) :
    Coherent types g (cache.put tags (src.name, tgt.name) (searchScalar g src tgt)) := by
  refine ⟨h.indexed.put _ _, fun entry hentry => ?_⟩
  rcases Recent.mem_entries_put hentry with rfl | ⟨hold, -⟩
  · exact ⟨src, hsrc, tgt, htgt, rfl⟩
  · exact h.entries entry hold

theorem eq_of_find? (hid : Identified types) (hsrc : src ∈ types) (htgt : tgt ∈ types)
    {ctx : ConversionContext} (hfind : cache.find? (src.name, tgt.name) = some ctx) :
    ctx = searchScalar g src tgt := by
  obtain ⟨src', hsrc', tgt', htgt', heq⟩ :=
    h.entries _ (Recent.mem_entries_of_find? hfind)
  obtain ⟨hkey, rfl⟩ := Prod.mk.inj heq
  obtain ⟨hs, ht⟩ := Prod.mk.inj hkey
  rw [hid src hsrc src' hsrc' (Or.inl hs), hid tgt htgt tgt' htgt' (Or.inl ht)]

end Coherent

/-- A change of the graph that is announced leaves a memory coherent. -/
theorem Coherent.foldl_notify (h : cache.Coherent types g) {events : List CatalogEvent}
    (hsame : ∀ names, (∀ event ∈ events, ∀ name ∈ event.typeName?, name ∉ names) →
      PathSearch.SameWithin names g g') : Coherent types g' (events.foldl notify cache) := by
  rw [foldl_notify_eq]
  obtain ⟨hindexed, hentries⟩ := h.indexed.foldl_invalidate (events.flatMap (·.typeName?.toList))
  refine ⟨hindexed, fun entry hentry => ?_⟩
  obtain ⟨hold, hnames⟩ := hentries entry hentry
  obtain ⟨src, hsrc, tgt, htgt, rfl⟩ := h.entries entry hold
  refine ⟨src, hsrc, tgt, htgt, ?_⟩
  rw [searchScalar_congr (hsame _ fun event hevent name hname hmem => ?_)]
  exact hnames name (List.mem_flatMap.mpr ⟨event, hevent, Option.mem_toList.mpr hname⟩)
    (List.mem_append_left _ hmem)

end ConversionCache

section Answers

variable {α β : Type} {types : List ScalarType} {g : ConversionGraph} {answer' : β}

/-- An action that gives an answer without a memory, and the same answer with a coherent one, which it
keeps coherent. -/
structure Answers (types : List ScalarType) (g : ConversionGraph)
    (action : StateM (Option ConversionCache) α) (answer : α) : Prop where
  without : action none = (answer, none)
  remembering : ∀ cache : ConversionCache, cache.Coherent types g →
    ∃ cache' : ConversionCache, cache'.Coherent types g ∧ action (some cache) = (answer, some cache')

namespace Answers

theorem pure (answer : α) : Answers types g (Pure.pure answer) answer :=
  ⟨rfl, fun cache hcache => ⟨cache, hcache, rfl⟩⟩

theorem bind {act : StateM (Option ConversionCache) α} {answer : α}
    {next : α → StateM (Option ConversionCache) β} (h : Answers types g act answer)
    (hnext : Answers types g (next answer) answer') : Answers types g (act >>= next) answer' where
  without := by
    rw [← hnext.without]
    exact congrArg (fun out => next out.1 out.2) h.without
  remembering cache hcache := by
    obtain ⟨cache', hcache', heq⟩ := h.remembering cache hcache
    obtain ⟨cache'', hcache'', heq'⟩ := hnext.remembering cache' hcache'
    refine ⟨cache'', hcache'', ?_⟩
    rw [← heq']
    exact congrArg (fun out => next out.1 out.2) heq

end Answers

theorem findScalar_answers (hid : Identified types) (hsrc : src ∈ types) (htgt : tgt ∈ types) :
    Answers types g (findScalar g src tgt) (searchScalar g src tgt) where
  without := rfl
  remembering cache hcache := by
    have hget := hcache.get? (src.name, tgt.name)
    unfold findScalar
    dsimp only
    split
    · rename_i ctx cache' heq
      have hfind : cache.find? (src.name, tgt.name) = some ctx := by
        rw [← Recent.fst_get?, heq]
      rw [hcache.eq_of_find? hid hsrc htgt hfind]
      rw [heq] at hget
      exact ⟨cache', hget, rfl⟩
    · rename_i cache' heq
      rw [heq] at hget
      split
      · exact ⟨_, hget.put hsrc htgt, rfl⟩
      · exact ⟨cache', hget, rfl⟩

variable {names names' : List String}

/-- An action that gives an answer, with a coherent memory and without, in every graph with the same
conversions within types of the given names. -/
def DependsOn (types : List ScalarType) (g : ConversionGraph) (names : List String)
    (action : ConversionGraph → StateM (Option ConversionCache) α) (answer : α) : Prop :=
  ∀ g', PathSearch.SameWithin names g g' → Answers types g' (action g') answer

namespace DependsOn

variable {act : ConversionGraph → StateM (Option ConversionCache) α} {answer : α}

theorem pure (answer : α) : DependsOn types g names (fun _ => Pure.pure answer) answer :=
  fun _ _ => .pure answer

variable (h : DependsOn types g names act answer)

include h

theorem mono (hsub : names ⊆ names') : DependsOn types g names' act answer :=
  fun g' hsame => h g' (hsame.mono hsub)

theorem bind {next : ConversionGraph → α → StateM (Option ConversionCache) β}
    (hnext : DependsOn types g names' (next · answer) answer') :
    DependsOn types g (names ++ names') (fun g => act g >>= next g) answer' := fun g' hsame =>
  (h g' (hsame.mono (List.subset_append_left _ _))).bind
    (hnext g' (hsame.mono (List.subset_append_right _ _)))

theorem map (f : α → β) : DependsOn types g names (fun g => do return f (← act g)) (f answer) :=
  fun g' hsame => (h g' hsame).bind (.pure _)

theorem answers : Answers types g (act g) answer :=
  h g fun _ _ _ => rfl

end DependsOn

/-- The scalar types that the conversions of columns saw. -/
def visitedColumns (outcomes : List (String × ConversionContext)) : List String :=
  outcomes.flatMap (·.2.visited)

theorem findScalar_dependsOn (hid : Identified types) (hsrc : src ∈ types) (htgt : tgt ∈ types) :
    DependsOn types g (searchScalar g src tgt).visited (findScalar · src tgt) (searchScalar g src tgt) := by
  intro g' hsame
  rw [← searchScalar_congr hsame]
  exact findScalar_answers hid hsrc htgt

mutual

theorem findConversion_dependsOn (hid : Identified types) (widen : Bool) (src tgt : Ty)
    (hsrc : src.scalars ⊆ types) (htgt : tgt.scalars ⊆ types) :
    ∃ ctx : ConversionContext, DependsOn types g ctx.visited (findConversion · widen src tgt) ctx := by
  by_cases hexact : src.isNil || src.isA tgt
  · have hbody := fun g => (findConversion.eq_def g widen src tgt).trans (if_pos hexact)
    rw [funext hbody]
    exact ⟨_, .pure _⟩
  have hbody := fun g => (findConversion.eq_def g widen src tgt).trans (if_neg hexact)
  rw [funext hbody]
  cases src with
  | scalar s =>
    cases tgt with
    | scalar t =>
      exact ⟨_, findScalar_dependsOn hid (hsrc (by simp [Ty.scalars])) (htgt (by simp [Ty.scalars]))⟩
    | _ => exact ⟨_, .pure _⟩
  | rows form cols =>
    cases tgt with
    | rows form' cols' =>
      obtain ⟨outs, h⟩ := findColumns_dependsOn hid widen cols cols' hsrc htgt
      have hvisited : visitedColumns outs ⊆ sortedNames (visitedColumns outs) :=
        fun _ hname => mem_sortedNames.mpr hname
      cases form <;> cases form' <;> first
        | exact ⟨_, .pure _⟩
        | exact ⟨_, (h.map _).mono hvisited⟩
    | _ => cases form <;> exact ⟨_, .pure _⟩
  | anyRows form =>
    cases tgt with
    | rows form' cols' => cases form <;> cases form' <;> exact ⟨_, .pure _⟩
    | _ => cases form <;> exact ⟨_, .pure _⟩
  | list element =>
    cases tgt with
    | list element' =>
      obtain ⟨ctx, h⟩ := findConversion_dependsOn hid widen element element' hsrc htgt
      exact ⟨wrapElement (.list element) (.list element') ctx, h.map _⟩
    | _ => exact ⟨_, .pure _⟩
  | anyList => exact ⟨_, .pure _⟩
  | any => exact ⟨_, .pure _⟩

theorem findColumns_dependsOn (hid : Identified types) (widen : Bool)
    (cols cols' : Columns) (hcols : columnScalars cols ⊆ types)
    (hcols' : columnScalars cols' ⊆ types) : ∃ outs, DependsOn types g (visitedColumns outs)
      (findColumns · widen cols cols') outs := by
  match cols with
  | [] =>
    have hbody : (findColumns · widen [] cols') = fun _ => pure [] :=
      funext fun _ => by rw [findColumns]
    exact ⟨_, .pure _⟩
  | (name, type) :: rest =>
    obtain ⟨htype, hrest⟩ := List.append_subset.mp hcols
    obtain ⟨outs, h⟩ := findColumns_dependsOn hid widen rest cols' hrest hcols'
    have hbody := fun g => findColumns.eq_2 g widen cols' name type rest
    rw [funext hbody]
    cases hcol : cols'.type? name with
    | none => exact ⟨outs, h⟩
    | some type' =>
      have hscalars : type'.scalars ⊆ types :=
        fun _ hmem => hcols' (mem_columnScalars.mpr ⟨_, mem_of_lookup hcol, hmem⟩)
      obtain ⟨ctx, hctx⟩ := findConversion_dependsOn hid widen type type' htype hscalars
      exact ⟨(name, ctx) :: outs, hctx.bind (h.map _)⟩

end

theorem findConversion_answers (hid : Identified types) (widen : Bool) (src tgt : Ty)
    (hsrc : src.scalars ⊆ types) (htgt : tgt.scalars ⊆ types) :
    ∃ ctx, Answers types g (findConversion g widen src tgt) ctx := by
  obtain ⟨ctx, h⟩ := findConversion_dependsOn hid widen src tgt hsrc htgt
  exact ⟨ctx, h.answers⟩

end Answers

/-- A change of the scalar types or conversions of the catalog, or a question for a conversion. -/
inductive ConversionStep where
  | addConversion (conversion : Conversion)
  | removeConversion (source target : ScalarType)
  | addScalarType (type : ScalarType)
  | dropScalarType (name : String)
  | find (widen : Bool) (source target : Ty)

/-- The scalar types that a step brings in. -/
def ConversionStep.scalars : ConversionStep → List ScalarType
  | addConversion conversion => [conversion.target]
  | removeConversion _ _ => []
  | addScalarType type => [type]
  | dropScalarType _ => []
  | find _ source target => source.scalars ++ target.scalars

namespace Workspace

variable {w : Workspace} {types : List ScalarType}

/-- The workspace after a step. -/
def perform (w : Workspace) : ConversionStep → Workspace
  | .addConversion conversion => w.apply (w.catalog.addConversion conversion)
  | .removeConversion source target => w.apply (w.catalog.removeConversion source target)
  | .addScalarType type => w.apply (w.catalog.addScalarType type)
  | .dropScalarType name => w.apply (w.catalog.dropScalarType name)
  | .find widen source target => (w.findConversion widen source target).2

/-- A workspace with a well-kept catalog and a coherent memory of its conversions. -/
structure Remembers (types : List ScalarType) (w : Workspace) : Prop where
  wellKept : w.catalog.WellKept
  scalarTypes : w.catalog.scalarTypes ⊆ types
  cache : ∃ cache : ConversionCache, w.conversionCache = some cache ∧
    cache.Coherent types w.catalog.conversions

namespace Remembers

variable (h : w.Remembers types)

include h

theorem apply {α : Type} {change : Change α} (hchange : change.IsAnnounced types w.catalog) :
    (w.apply change).Remembers types := by
  obtain ⟨cache, hcache, hcoh⟩ := h.cache
  rw [apply_eq, hcache]
  exact ⟨hchange.wellKept, hchange.scalarTypes, _, rfl, hcoh.foldl_notify hchange.sameWithin⟩

theorem find (hid : Identified types) (widen : Bool) {src tgt : Ty}
    (hsrc : src.scalars ⊆ types) (htgt : tgt.scalars ⊆ types) :
    (w.findConversion widen src tgt).1 = (w.withoutCaches.findConversion widen src tgt).1 ∧
      (w.findConversion widen src tgt).2.Remembers types := by
  obtain ⟨cache, hcache, hcoh⟩ := h.cache
  obtain ⟨ctx, hanswers⟩ :=
    findConversion_answers (g := w.catalog.conversions) hid widen src tgt hsrc htgt
  obtain ⟨cache', hcoh', heq⟩ := hanswers.remembering cache hcoh
  unfold findConversion withoutCaches
  rw [hcache, heq, hanswers.without]
  exact ⟨rfl, h.wellKept, h.scalarTypes, cache', rfl, hcoh'⟩

/-- Each step keeps the memory coherent. -/
theorem perform (hid : Identified types) {step : ConversionStep} (hstep : step.scalars ⊆ types) :
    (w.perform step).Remembers types := by
  cases step with
  | addConversion conv =>
    have htgt : conv.target ∈ types := hstep (by simp [ConversionStep.scalars])
    exact h.apply (Catalog.isAnnounced_addConversion h.wellKept h.scalarTypes htgt)
  | removeConversion src tgt =>
    exact h.apply (Catalog.isAnnounced_removeConversion h.wellKept h.scalarTypes src tgt)
  | addScalarType type =>
    have htype : type ∈ types := hstep (by simp [ConversionStep.scalars])
    exact h.apply (Catalog.isAnnounced_addScalarType h.wellKept h.scalarTypes htype)
  | dropScalarType name =>
    exact h.apply (Catalog.isAnnounced_dropScalarType h.wellKept hid h.scalarTypes name)
  | find widen src tgt =>
    obtain ⟨hsrc, htgt⟩ := List.append_subset.mp hstep
    exact (h.find hid widen hsrc htgt).2

theorem foldl_perform (hid : Identified types) {steps : List ConversionStep}
    (hsteps : ∀ step ∈ steps, step.scalars ⊆ types) : (steps.foldl Workspace.perform w).Remembers types := by
  induction steps generalizing w with
  | nil => exact h
  | cons step steps ih =>
    exact ih (h.perform hid (hsteps step List.mem_cons_self))
      fun step hstep => hsteps step (List.mem_cons_of_mem _ hstep)

end Remembers

/-- A memory of any capacity that starts empty changes no answer: after any changes of the catalog and
any questions, a question has the answer that it has in the current catalog without a memory. -/
theorem findConversion_eq_withoutCaches (w : Workspace) (capacity : Nat)
    (hcatalog : w.catalog.WellKept) (hcache : w.conversionCache = some { capacity })
    (steps : List ConversionStep) (widen : Bool) (source target : Ty)
    (hid : Identified (w.catalog.scalarTypes ++ steps.flatMap ConversionStep.scalars ++
      source.scalars ++ target.scalars)) :
    let w' := steps.foldl perform w
    (w'.findConversion widen source target).1 =
      (w'.withoutCaches.findConversion widen source target).1 := by
  intro w'
  let types := w.catalog.scalarTypes ++ steps.flatMap ConversionStep.scalars ++
    source.scalars ++ target.scalars
  have hsource : source.scalars ⊆ types := fun type htype => by simp [types, htype]
  have htarget : target.scalars ⊆ types := fun type htype => by simp [types, htype]
  have hsteps : ∀ step ∈ steps, step.scalars ⊆ types := by
    intro step hstep type htype
    have hmem : type ∈ steps.flatMap ConversionStep.scalars :=
      List.mem_flatMap.mpr ⟨step, hstep, htype⟩
    exact List.mem_append_left _ (List.mem_append_left _ (List.mem_append_right _ hmem))
  have hstart : w.Remembers types :=
    ⟨hcatalog, by simp [types], _, hcache, ConversionCache.coherent_empty _ _ _⟩
  have hend : w'.Remembers types := hstart.foldl_perform hid hsteps
  exact (hend.find hid widen hsource htarget).1

/-- A memory for one outcome that first remembers that there is no conversion. -/
theorem findConversion_eq_withoutCaches_chain :
    let a : ScalarType := { serial := 10, name := "A" }
    let b : ScalarType := { serial := 11, name := "B" }
    let c : ScalarType := { serial := 12, name := "C" }
    let w : Workspace := { conversionCache := some { capacity := 1 } }
    let steps := [.addScalarType a, .addConversion { source := a, target := b },
      .find false (.scalar a) (.scalar c), .addConversion { source := b, target := c }]
    let w' := steps.foldl perform w
    w.catalog.WellKept ∧ Identified (w.catalog.scalarTypes ++
      steps.flatMap ConversionStep.scalars ++ Ty.scalars (.scalar a) ++ Ty.scalars (.scalar c)) ∧
    (w'.findConversion false (.scalar a) (.scalar c)).1.path.text = "A -> B -> C" ∧
    (w'.findConversion false (.scalar a) (.scalar c)).1 =
      (w'.withoutCaches.findConversion false (.scalar a) (.scalar c)).1 := by
  intro a b c w steps w'
  have hcatalog : w.catalog.WellKept := ⟨by simp [w], by simp [w], by simp [w]⟩
  have hid : Identified (w.catalog.scalarTypes ++
      steps.flatMap ConversionStep.scalars ++ Ty.scalars (.scalar a) ++ Ty.scalars (.scalar c)) := by
    have htypes : w.catalog.scalarTypes ++ steps.flatMap ConversionStep.scalars ++
        Ty.scalars (.scalar a) ++ Ty.scalars (.scalar c) = [a, b, a, c, c, a, c] := by
      simp [steps, w, Catalog.scalarTypes, ConversionStep.scalars, Ty.scalars]
    rw [htypes]
    simp [Identified, a, b, c]
  have heq := findConversion_eq_withoutCaches w 1 hcatalog rfl steps false (.scalar a) (.scalar c) hid
  refine ⟨hcatalog, hid, ?_, heq⟩
  rw [heq]
  decide +kernel

end Workspace

end Relational
