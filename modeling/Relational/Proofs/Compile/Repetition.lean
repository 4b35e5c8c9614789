import Relational.Proofs.Compile.Company

/-!
# Finding out again what table variables read

What a stale table variable reads is found out by compiling its definition, which may ask for further stale
table variables. What came of that while some things were known comes of it again while other things are,
so long as nothing is known differently: where the first compilation had to find something out, the second
may know it, and the other way round. The only thing in the way is a table variable that is being compiled
again, but nothing is known of those.

So a compilation that knows less than another one comes to the same plans and the same failures.
-/

namespace Relational

open Compiling Vocabulary List

/-! ### The outcome of a definition -/

/-- What a definition reads, by the outcome of compiling it and the messages until then. -/
def readingOf (definition : Expr) (messages : Messages) (hasSession : Bool) :
    Except Abort Plan → Except Abort (List String)
  | .ok p => messages.failure?.elim (.ok (referencedNames p)) fun failure => .error (.raised failure)
  | .error abort => definition.position?.elim (.error .absent) fun position =>
    if hasSession then
      (messages ++ .ofRecord (abort.toFailure position) position).failure?.elim (.error .absent)
        fun failure => .error (.raised failure)
    else .error .absent

/-- The workspace with what a table variable reads, if that could be found out. -/
def Workspace.noteReading (w : Workspace) (name : String) : Except Abort (List String) → Workspace
  | .ok references => w.noteReferences name references
  | .error _ => w

variable {refs : List String} {key : String}

section Outcomes

variable {c : Compiler} {e : Environment} {tv : TableVar} {b b₁ : Builder} {res : Except Abort Plan}

theorem exists_plan_of_readingOf {defn : Expr} {msgs : Messages} {hasSession : Bool}
    (h : readingOf defn msgs hasSession res = .ok refs) : ∃ p, res = .ok p ∧
      ∀ hasSession, readingOf defn msgs hasSession (.ok p) = .ok refs := by
  cases res with
  | ok p => exact ⟨p, rfl, fun _ => h⟩
  | error abort =>
    rw [readingOf] at h
    cases hpos : defn.position? with
    | none =>
      rw [hpos] at h
      cases h
    | some pos =>
      simp only [hpos, Option.elim_some] at h
      split at h
      · cases hfail : (msgs ++ .ofRecord (abort.toFailure pos) pos).failure? with
        | none | some =>
          rw [hfail] at h
          cases h
      · cases h

theorem inferReferences_apply (he : e.Sound) (hdef : tv.definition ≠ .missing)
    (hfree : "table " ++ tv.name ∉ b.recompiling)
    (h : compileExpr e tv.definition (b.anew c ("table " ++ tv.name) []) = (res, b₁))
    {read : Except Abort (List String)}
    (hread : readingOf tv.definition b₁.messages b₁.workspace.session.isSome res = read) :
    inferReferences c e tv b =
      (read.map fun _ => (), { b with workspace := b₁.workspace.noteReading tv.name read }) := by
  subst hread
  cases res with
  | ok p =>
    have halone : compileAlone e tv.definition (b.anew c ("table " ++ tv.name) []) =
        (.ok (some p), b₁) := by
      rw [compileAlone, h]
    rw [inferReferences_of_ok he hdef hfree halone, noteRead_apply, readingOf]
    cases b₁.messages.failure? <;> rfl
  | error abort =>
    cases hpos : tv.definition.position? with
    | none =>
      have halone : compileAlone e tv.definition (b.anew c ("table " ++ tv.name) []) =
          (.error .absent, b₁) := by
        rw [compileAlone, h, hpos]
      rw [inferReferences_of_error he hdef hfree halone, readingOf, hpos]
      rfl
    | some pos =>
      have halone : compileAlone e tv.definition (b.anew c ("table " ++ tv.name) []) =
          (if b₁.workspace.session.isSome then .ok none else .error .absent, { b₁ with
            messages := b₁.messages ++ .ofRecord (abort.toFailure pos) pos }) := by
        rw [compileAlone, h, hpos]
        exact record_bind_apply pos _ none b₁
      rw [readingOf, hpos, Option.elim_some]
      split at halone
      · rename_i hsess
        rw [inferReferences_of_ok he hdef hfree halone, noteRead_apply, if_pos hsess]
        cases (b₁.messages ++ .ofRecord (abort.toFailure pos) pos).failure? <;> rfl
      · rename_i hsess
        rw [inferReferences_of_error he hdef hfree halone, if_neg hsess]
        rfl

end Outcomes

namespace Ground

variable (G : Ground)

/-! ### What is found out again -/

/-- The keys of the derived table variables. -/
def keys : List String :=
  (Builder.derivedNames { workspace := G.base }).map ("table " ++ ·)

/-- A depth of nesting at which no table variable is refused but those being compiled again. -/
def IsDeep (depth : Nat) (busy : List String) : Prop :=
  (G.keys.filter (· ∉ busy)).length < depth

/-- Nothing is known of the table variables whose definitions are being compiled again. -/
def Spares (known : Readings) (busy : List String) : Prop :=
  ∀ tv references, G.HasStale tv → tv.definition ≠ .missing →
    known.of tv.name = some references → "table " ++ tv.name ∉ busy

/-- What a table variable reads is found out from wherever it is not known, if nothing is known differently
there: nothing else is found out on the way. -/
def FindsOut (tv : TableVar) (known : Readings) : Prop :=
  ∀ depth (b : Builder), G.Holds b.workspace → G.IsDeep depth b.recompiling →
    G.Spares known b.recompiling → (G.known b.workspace).Compatible known →
    (G.known b.workspace).of tv.name = none →
      ∃ w, (G.environment depth).infer tv b = (.ok (), { b with workspace := w }) ∧
        G.Holds w ∧ G.known b.workspace ≤ G.known w ∧
        (G.known w).Among (G.known b.workspace) known

/-- Whatever is known is found out again from wherever it is not known. -/
def Repeats (known : Readings) : Prop :=
  ∀ tv references, G.HasStale tv → known.of tv.name = some references →
    G.FindsOut tv known

/-- What is asked of a compilation at a depth of nesting, of what it knows and of the objects that it is
compiling again. -/
structure Admits (depth : Nat) (known : Readings) (busy : List String) : Prop where
  deep : G.IsDeep depth busy
  spares : G.Spares known busy
  repeats : G.Repeats known

/-- A compilation that goes over what another one comes to, from what is known at the start to what is
known in the end. It may itself know something else at the start. -/
def replay (depth depth' : Nat) (start finish : Readings) : Company where
  Admits := G.Admits depth
  Beside _ known' _ busy' := (start.Compatible finish ∧ start ≤ known' ∧ known'.Among start finish) ∧
    G.Spares finish busy' ∧ G.IsDeep depth' busy'
  Within known := known ≤ finish ∧ G.Repeats finish
  isExact := False
  within_of_le hle hwithin := ⟨Readings.trans hle hwithin.1, hwithin.2⟩
  agrees hbeside hwithin hknown hknown' :=
    (hbeside.1.1.of_among hbeside.1.2.2 _ _ _ hknown' (hwithin.1 _ _ hknown)).symm

/-- A compilation that knows no more than another one, and that is compiling the same objects again. -/
def lockstep (depth depth' : Nat) : Company where
  Admits := G.Admits depth
  Beside known known' busy busy' := known' ≤ known ∧ busy' = busy ∧ G.IsDeep depth' busy
  Within _ := True
  isExact := True
  within_of_le _ _ := trivial
  agrees hbeside _ hknown hknown' := Option.some.inj (hknown.symm.trans (hbeside.1 _ _ hknown'))

variable {G} {w : Workspace}

section Keys

variable {tv : TableVar} {depth : Nat} {busy : List String} {known known' : Readings}

theorem mem_keys (h : G.HasStale tv) : "table " ++ tv.name ∈ G.keys := by
  obtain ⟨-, hderived, -⟩ := eq_of_staleTableVar? h.stale
  refine mem_map.mpr ⟨tv.name, mem_eraseDups.mpr (mem_map.mpr ⟨tv, ?_, rfl⟩), rfl⟩
  refine mem_filter.mpr ⟨mem_append_left _ ?_, hderived⟩
  exact mem_filterMap.mpr ⟨_, mem_of_lookup h.stands, rfl⟩

theorem IsDeep.exists_eq_add_one (h : G.IsDeep depth busy) : ∃ inner, depth = inner + 1 :=
  Nat.exists_eq_add_one.mpr (Nat.zero_lt_of_lt h)

theorem IsDeep.inner (h : G.IsDeep (depth + 1) busy) (htv : G.HasStale tv)
    (hfree : "table " ++ tv.name ∉ busy) : G.IsDeep depth (("table " ++ tv.name) :: busy) := by
  have hfewer := length_filter_cons_lt (mem_keys htv) hfree
  rw [IsDeep] at h ⊢
  omega

theorem Spares.mono (h : G.Spares known' busy) (hle : known ≤ known') : G.Spares known busy :=
  fun tv refs htv hdef hknown =>
    h tv refs htv hdef (hle _ _ hknown)

theorem Spares.cons (h : G.Spares known busy) (hunknown : known.of tv.name = none) :
    G.Spares known (("table " ++ tv.name) :: busy) := by
  intro other refs hother hdef hknown hmem
  rcases mem_cons.mp hmem with heq | hmem
  · have hname : other.name = tv.name := by simpa using heq
    exact absurd (hunknown.symm.trans (hname ▸ hknown)) (by simp)
  · exact h other refs hother hdef hknown hmem

theorem Spares.of_cons (h : G.Spares known (key :: busy)) : G.Spares known busy :=
  fun other refs hother hdef hknown hmem =>
    h other refs hother hdef hknown (mem_cons_of_mem _ hmem)

theorem Spares.of_eq_none (h : G.Spares known (("table " ++ tv.name) :: busy))
    (htv : G.HasStale tv) (hdef : tv.definition ≠ .missing) : known.of tv.name = none :=
  Option.eq_none_iff_forall_ne_some.mpr fun refs hknown =>
    h tv refs htv hdef hknown (mem_cons_self ..)

theorem HasStale.eq_of_name {tv' : TableVar} (h : G.HasStale tv)
    (h' : G.HasStale tv') (hname : tv'.name = tv.name) : tv' = tv := by
  have hsame := h'.stands
  rw [hname, h.stands] at hsame
  exact (CatalogObject.tableVar.inj (Option.some.inj hsame)).symm

theorem Spares.note (h : G.Spares known busy) (htv : G.HasStale tv)
    (hfree : tv.definition ≠ .missing → "table " ++ tv.name ∉ busy) (refs : List String) :
    G.Spares (known.note tv.name refs) busy := by
  intro other read hother hdef hknown
  by_cases hname : other.name = tv.name
  · obtain rfl := HasStale.eq_of_name htv hother hname
    exact hfree hdef
  · rw [Readings.note_of_ne refs hname] at hknown
    exact h other read hother hdef hknown

end Keys

section Requests

variable {tv : TableVar} {depth : Nat} {b : Builder} {known : Readings}

theorem exists_known_of_noteReferences (htv : G.HasStale tv) (h : G.Holds (w.noteReferences tv.name refs)) :
    ∃ read, (G.known (w.noteReferences tv.name refs)).of tv.name = some read := by
  cases hknown : (G.known (w.noteReferences tv.name refs)).of tv.name with
  | some read => exact ⟨read, rfl⟩
  | none =>
    -- a table variable of which nothing is known would still be stale
    obtain ⟨-, -, hstale⟩ := eq_of_staleTableVar? htv.stale
    have hobj := h.catalog.objects tv.name
    rw [htv.stands, Option.map_some, CatalogObject.settle_of_unknown htv.stale hknown] at hobj
    have hnoted : (w.noteReferences tv.name refs).catalog.object? tv.name = _ :=
      w.catalog.object?_updateTableVar tv.name tv.name _
    rw [hobj, if_pos rfl] at hnoted
    obtain ⟨obj, -, hobj⟩ := Option.map_eq_some_iff.mp hnoted.symm
    cases obj with
    | scalarType type => cases hobj
    | tableVar other =>
      obtain rfl : other.setReferences refs = tv := CatalogObject.tableVar.inj hobj
      cases hstale

theorem exists_noteReferences_of_infer (h : ((G.environment depth).infer tv b).1 = .ok ()) :
    ∃ (w : Workspace) (refs : List String),
      ((G.environment depth).infer tv b).2.workspace = w.noteReferences tv.name refs := by
  cases depth with
  | zero => cases h
  | succ depth =>
    change (inferReferences G.compiler (G.environment depth) tv b).1 = _ at h
    change ∃ (w : Workspace) (refs : List String),
      (inferReferences G.compiler (G.environment depth) tv b).2.workspace = _
    by_cases hdef : tv.definition = .missing
    · rw [inferReferences_of_missing hdef]
      exact ⟨b.workspace, [], rfl⟩
    by_cases hbusy : "table " ++ tv.name ∈ b.recompiling
    · rw [inferReferences_refused hdef hbusy] at h
      cases h
    rcases hrun : compileExpr (G.environment depth) tv.definition
      (b.anew G.compiler ("table " ++ tv.name) []) with ⟨res, b₁⟩
    rw [inferReferences_apply (Compiler.sound_environment _ _) hdef hbusy hrun rfl] at h ⊢
    cases hread : readingOf tv.definition b₁.messages b₁.workspace.session.isSome res with
    | error abort =>
      rw [hread] at h
      cases h
    | ok refs => exact ⟨b₁.workspace, refs, rfl⟩

theorem exists_known_of_ask (htv : G.HasStale tv) (h : (G.ask (G.environment depth) tv b).1 = .ok ())
    (hholds : G.Holds (G.ask (G.environment depth) tv b).2.workspace) :
    ∃ refs, (G.known (G.ask (G.environment depth) tv b).2.workspace).of tv.name =
      some refs := by
  rw [ask] at h hholds ⊢
  split at h
  · rename_i hknown
    rw [if_pos hknown]
    exact Option.isSome_iff_exists.mp hknown
  · rename_i hknown
    rw [if_neg hknown] at hholds ⊢
    obtain ⟨w, refs, hws⟩ := exists_noteReferences_of_infer h
    rw [hws] at hholds ⊢
    exact exists_known_of_noteReferences htv hholds

theorem Repeats.ask (h : G.Repeats known) (htv : G.HasStale tv)
    (hknown : known.of tv.name = some refs) (hb : G.Holds b.workspace)
    (hdeep : G.IsDeep depth b.recompiling) (hspares : G.Spares known b.recompiling)
    (hcompatible : (G.known b.workspace).Compatible known) :
    ∃ w, G.ask (G.environment depth) tv b = (.ok (), { b with workspace := w }) ∧
      G.Holds w ∧ G.known b.workspace ≤ G.known w ∧ (G.known w).Among (G.known b.workspace) known := by
  rw [Ground.ask]
  split
  · exact ⟨b.workspace, rfl, hb, Readings.refl _, fun _ _ => .inl⟩
  · rename_i hunknown
    exact h tv refs htv hknown depth b hb hdeep hspares hcompatible (by simpa using hunknown)

variable (G) in
/-- At a depth of nesting, what a stale table variable reads can be asked for. -/
def Settling (depth : Nat) : Prop :=
  ∀ tv, G.HasStale tv → ∀ b : Builder, G.Holds b.workspace →
    G.Admits depth (G.known b.workspace) b.recompiling → ∃ result w,
      G.ask (G.environment depth) tv b = (result, { b with workspace := w }) ∧ G.Holds w ∧
        G.known b.workspace ≤ G.known w ∧ G.Admits depth (G.known w) b.recompiling

variable (G) in
theorem serves_environment (depth : Nat) : G.Serves (G.environment depth) :=
  ⟨G.compiler.options_environment depth, fun _ htv _ => exists_known_of_ask htv⟩

theorem accompanies_replay (hdepth : G.Settling depth) (depth' : Nat) (start finish : Readings) :
    G.Accompanies (G.replay depth depth' start finish) (G.environment depth) (G.environment depth') where
  left := G.serves_environment depth
  right := G.serves_environment depth'
  together tv htv b hb := by
    have hsettled : (G.ask (G.environment depth) tv b).1 = .ok () → _ :=
      exists_known_of_ask htv
    obtain ⟨res, w₁, hask, hw₁, hle, hadmits⟩ := hdepth tv htv b hb.holds hb.admits
    rw [hask] at hsettled ⊢
    refine ⟨⟨hw₁, hb.scope, hb.symbols, hadmits⟩, rfl, hle, fun _ _ => trivial,
      fun hwithin hexact w busy' hw hbeside => ?_⟩
    obtain ⟨⟨hcompatible, hstart, hamong⟩, hspares, hdeep⟩ := hbeside
    obtain ⟨val, rfl⟩ : ∃ val, res = .ok val := hexact.resolve_left id
    obtain ⟨refs, hknown⟩ := hsettled rfl hw₁
    obtain ⟨w', hask', hw', hle', hamong'⟩ := hwithin.2.ask (b := b.on w busy') htv
      (hwithin.1 _ _ hknown) hw hdeep hspares (hcompatible.of_among hamong)
    refine ⟨w', hask', hw', ⟨hcompatible, Readings.trans hstart hle', fun name read hread => ?_⟩,
      hspares, hdeep⟩
    rcases hamong' name read hread with hread | hread
    · exact hamong name read hread
    · exact .inr hread

end Requests

/-! ### Finding out one more -/

section Noting

variable {tv : TableVar} {depth : Nat} {b b₁ : Builder} {known : Readings} (htv : G.HasStale tv)

theorem stands_anew {C : Company} (hb : G.Holds b.workspace)
    (h : C.Admits (G.known b.workspace) (key :: b.recompiling)) : G.Stands C (b.anew G.compiler key []) :=
  ⟨hb, rfl, expresses_nil, h⟩

include htv

theorem Repeats.note (h : G.Repeats known)
    (hunknown : known.of tv.name = none) (hagain : G.FindsOut tv (known.note tv.name refs)) :
    G.Repeats (known.note tv.name refs) := by
  intro other read hother hknown depth b hb hdeep hspares hcompatible hnone
  have hle := Readings.le_note refs hunknown
  by_cases hname : other.name = tv.name
  · obtain rfl := HasStale.eq_of_name htv hother hname
    exact hagain depth b hb hdeep hspares hcompatible hnone
  · rw [Readings.note_of_ne refs hname] at hknown
    obtain ⟨w, hrun, hw, hgrows, hamong⟩ := h other read hother hknown depth b hb hdeep
      (hspares.mono hle) (hcompatible.mono_right hle) hnone
    exact ⟨w, hrun, hw, hgrows, fun name read hread =>
      (hamong name read hread).imp_right (hle name read)⟩

theorem exists_noteReferences {start : Readings} (hw : G.Holds w)
    (hunknown : (G.known w).of tv.name = none) (hstart : start ≤ G.known w)
    (hamong : (G.known w).Among start known) : G.Holds (w.noteReferences tv.name refs) ∧
      start ≤ G.known (w.noteReferences tv.name refs) ∧
      (G.known (w.noteReferences tv.name refs)).Among start (known.note tv.name refs) := by
  obtain ⟨hholds, hknown⟩ := hw.noteReferences htv refs
  rw [hknown]
  refine ⟨hholds, Readings.trans hstart (Readings.le_note refs hunknown), fun name read hread => ?_⟩
  by_cases hname : name = tv.name
  · subst hname
    rw [Readings.note_self] at hread
    exact .inr (by rw [Readings.note_self, hread])
  · rw [Readings.note_of_ne refs hname] at hread ⊢
    exact hamong name read hread

theorem findsOut_of_missing (hdef : tv.definition = .missing) :
    G.FindsOut tv (known.note tv.name []) := by
  intro depth b hb hdeep _ _ hunknown
  obtain ⟨inner, rfl⟩ := hdeep.exists_eq_add_one
  exact ⟨_, inferReferences_of_missing hdef,
    exists_noteReferences htv hb hunknown (Readings.refl _) fun _ _ => .inl⟩

theorem findsOut_again {inner : Nat} (hinner : G.Settling inner) (hdef : tv.definition ≠ .missing)
    (hb : G.Holds b.workspace)
    (hadmits : G.Admits inner (G.known b.workspace) (("table " ++ tv.name) :: b.recompiling)) {p : Plan}
    (hrun : compileExpr (G.environment inner) tv.definition
      (b.anew G.compiler ("table " ++ tv.name) []) = (.ok p, b₁))
    (hread : ∀ hasSession, readingOf tv.definition b₁.messages hasSession (.ok p) = .ok refs) :
    G.FindsOut tv ((G.known b₁.workspace).note tv.name refs) := by
  intro depth b' hb' hdeep hspares hcompatible hunknown
  have hfree : "table " ++ tv.name ∉ b'.recompiling :=
    hspares tv refs htv hdef (Readings.note_self _ _ _)
  obtain ⟨inner', rfl⟩ := hdeep.exists_eq_add_one
  have htogether := (Together.isStepwise (accompanies_replay hinner inner' (G.known b'.workspace)
    (G.known b₁.workspace))).compileExpr tv.definition _ (stands_anew hb hadmits)
  rw [hrun] at htogether
  obtain ⟨hstands, hbusy, -, -, hfollows⟩ := htogether
  obtain ⟨-, hspares₁, hrepeats⟩ : G.Admits inner (G.known b₁.workspace) b₁.recompiling :=
    hstands.admits
  rw [show b₁.recompiling = ("table " ++ tv.name) :: b.recompiling from hbusy] at hspares₁
  have hnew := hspares₁.of_eq_none htv hdef
  have hle := Readings.le_note refs hnew
  obtain ⟨w', hrun', hw', ⟨-, hstart, hamong⟩, -⟩ := hfollows ⟨Readings.refl _, hrepeats⟩
    (.inr ⟨p, rfl⟩) b'.workspace (("table " ++ tv.name) :: b'.recompiling) hb'
    ⟨⟨hcompatible.mono_right hle, Readings.refl _, fun _ _ => .inl⟩,
      (hspares.mono hle).cons hnew, hdeep.inner htv hfree⟩
  have hunknown' : (G.known w').of tv.name = none := by
    refine Option.eq_none_iff_forall_ne_some.mpr fun read hread => ?_
    rcases hamong tv.name read hread with hread | hread
    · simp [hunknown] at hread
    · simp [hnew] at hread
  refine ⟨w'.noteReferences tv.name refs, ?_, exists_noteReferences htv hw' hunknown' hstart hamong⟩
  exact inferReferences_apply (Compiler.sound_environment _ _) hdef hfree hrun' (hread _)

end Noting

theorem settling (depth : Nat) : G.Settling depth := by
  induction depth with
  | zero =>
    intro tv htv b hb hadmits
    exact absurd hadmits.deep (Nat.not_lt_zero _)
  | succ inner ih =>
    intro tv htv b hb hadmits
    obtain ⟨hdeep, hspares, hrepeats⟩ := hadmits
    have hask : G.ask (G.environment (inner + 1)) tv b =
        if ((G.known b.workspace).of tv.name).isSome then (.ok (), b)
        else inferReferences G.compiler (G.environment inner) tv b := rfl
    rw [hask]
    split
    · exact ⟨.ok (), b.workspace, rfl, hb, Readings.refl _, hdeep, hspares, hrepeats⟩
    rename_i hknown
    have hunknown : (G.known b.workspace).of tv.name = none := by simpa using hknown
    by_cases hdef : tv.definition = .missing
    · obtain ⟨hholds, hnoted⟩ := hb.noteReferences htv []
      refine ⟨.ok (), _, inferReferences_of_missing hdef, hholds, ?_⟩
      rw [hnoted]
      refine ⟨Readings.le_note [] hunknown, hdeep, hspares.note htv (absurd hdef) [], ?_⟩
      exact hrepeats.note htv hunknown (findsOut_of_missing htv hdef)
    by_cases hbusy : "table " ++ tv.name ∈ b.recompiling
    · exact ⟨_, b.workspace, inferReferences_refused hdef hbusy, hb, Readings.refl _, hdeep,
        hspares, hrepeats⟩
    have hadmits' : G.Admits inner (G.known b.workspace) (("table " ++ tv.name) :: b.recompiling) :=
      ⟨hdeep.inner htv hbusy, hspares.cons hunknown, hrepeats⟩
    rcases hrun : compileExpr (G.environment inner) tv.definition
      (b.anew G.compiler ("table " ++ tv.name) []) with ⟨res, b₁⟩
    have htogether := (Together.isStepwise (accompanies_replay ih inner .nothing .nothing)).compileExpr
      tv.definition _ (stands_anew hb hadmits')
    rw [hrun] at htogether
    obtain ⟨⟨hholds₁, -, -, hadmits₁⟩, hbusy₁, hle, -, -⟩ := htogether
    obtain ⟨-, hspares₁, hrepeats₁⟩ : G.Admits inner (G.known b₁.workspace) b₁.recompiling := hadmits₁
    rw [show b₁.recompiling = ("table " ++ tv.name) :: b.recompiling from hbusy₁] at hspares₁
    rw [inferReferences_apply (Compiler.sound_environment _ _) hdef hbusy hrun rfl]
    cases hread : readingOf tv.definition b₁.messages b₁.workspace.session.isSome res with
    | error abort => exact ⟨_, b₁.workspace, rfl, hholds₁, hle, hdeep, hspares₁.of_cons, hrepeats₁⟩
    | ok refs =>
      obtain ⟨p, rfl, hsame⟩ := exists_plan_of_readingOf hread
      have hnew := hspares₁.of_eq_none htv hdef
      obtain ⟨hholds, hnoted⟩ := hholds₁.noteReferences htv refs
      refine ⟨.ok (), _, rfl, hholds, ?_⟩
      change _ ≤ G.known (b₁.workspace.noteReferences tv.name refs) ∧
        G.Admits _ (G.known (b₁.workspace.noteReferences tv.name refs)) _
      rw [hnoted]
      exact ⟨Readings.trans hle (Readings.le_note refs hnew), hdeep,
        hspares₁.of_cons.note htv (fun _ => hbusy) refs,
        hrepeats₁.note htv hnew (findsOut_again htv ih hdef hb hadmits' hrun hsame)⟩

/-! ### Knowing less -/

section Lockstep

variable {tv : TableVar} {inner inner' : Nat} {b : Builder}

section

variable (hinner : G.Accompanies (G.lockstep inner inner') (G.environment inner) (G.environment inner'))
  (htv : G.HasStale tv) (hb : G.Holds b.workspace)
  (hadmits : G.Admits (inner + 1) (G.known b.workspace) b.recompiling)
  (hdeep' : G.IsDeep (inner' + 1) b.recompiling) (hw : G.Holds w) (hle : G.known w ≤ G.known b.workspace)

include hinner htv hb hadmits hdeep' hw hle

theorem infer_lockstep (hunknown : (G.known b.workspace).of tv.name = none) :
    ∃ w', inferReferences G.compiler (G.environment inner') tv (b.on w b.recompiling) =
        ((inferReferences G.compiler (G.environment inner) tv b).1,
          (inferReferences G.compiler (G.environment inner) tv b).2.on w' b.recompiling) ∧
      G.Holds w' ∧ G.known w' ≤
        G.known (inferReferences G.compiler (G.environment inner) tv b).2.workspace := by
  obtain ⟨hdeep, hspares, hrepeats⟩ := hadmits
  have hnote : ∀ {w w₁ : Workspace} (refs : List String), G.Holds w → G.Holds w₁ →
      G.known w ≤ G.known w₁ → G.Holds (w.noteReferences tv.name refs) ∧
        G.known (w.noteReferences tv.name refs) ≤ G.known (w₁.noteReferences tv.name refs) := by
    intro w w₁ refs hw hw₁ hle
    obtain ⟨hholds, hknown⟩ := hw.noteReferences htv refs
    rw [hknown, (hw₁.noteReferences htv refs).2]
    exact ⟨hholds, Readings.note_le_note hle tv.name refs⟩
  by_cases hdef : tv.definition = .missing
  · rw [inferReferences_of_missing hdef, inferReferences_of_missing hdef]
    exact ⟨w.noteReferences tv.name [], rfl, hnote [] hw hb hle⟩
  by_cases hbusy : "table " ++ tv.name ∈ b.recompiling
  · rw [inferReferences_refused hdef hbusy,
      inferReferences_refused (b := b.on w b.recompiling) hdef hbusy]
    exact ⟨w, rfl, hw, hle⟩
  have hstands := stands_anew (C := G.lockstep inner inner') hb
    (⟨hdeep.inner htv hbusy, hspares.cons hunknown, hrepeats⟩ : G.Admits _ _ _)
  have htogether := (Together.isStepwise hinner).compileExpr tv.definition _ hstands
  rcases hrun : compileExpr (G.environment inner) tv.definition
    (b.anew G.compiler ("table " ++ tv.name) []) with ⟨res, b₁⟩
  rw [hrun] at htogether
  obtain ⟨⟨hholds₁, -, -, -⟩, -, -, -, hfollows⟩ := htogether
  obtain ⟨w₁, hrun₁, hw₁, hle₁, -⟩ := hfollows trivial (.inl trivial) w
    (("table " ++ tv.name) :: b.recompiling) hw ⟨hle, rfl, hdeep'.inner htv hbusy⟩
  have hsess : w₁.session.isSome = b₁.workspace.session.isSome := by
    rw [hw₁.session, show b₁.workspace.session = _ from hholds₁.session]
  rw [inferReferences_apply (Compiler.sound_environment _ _) hdef hbusy hrun rfl,
    inferReferences_apply (b := b.on w b.recompiling) (Compiler.sound_environment _ _) hdef hbusy hrun₁
      (congrArg (readingOf tv.definition b₁.messages · res) hsess)]
  cases readingOf tv.definition b₁.messages b₁.workspace.session.isSome res with
  | error abort => exact ⟨w₁, rfl, hw₁, hle₁⟩
  | ok refs => exact ⟨w₁.noteReferences tv.name refs, rfl, hnote refs hw₁ hholds₁ hle₁⟩

theorem ask_lockstep : ∃ w', G.ask (G.environment (inner' + 1)) tv (b.on w b.recompiling) =
        ((G.ask (G.environment (inner + 1)) tv b).1,
          (G.ask (G.environment (inner + 1)) tv b).2.on w' b.recompiling) ∧ G.Holds w' ∧
      G.known w' ≤ G.known (G.ask (G.environment (inner + 1)) tv b).2.workspace := by
  cases hknown : (G.known b.workspace).of tv.name with
  | some refs =>
    -- the first knows it, and what the second does not know it finds out
    have hself : G.ask (G.environment (inner + 1)) tv b = (.ok (), b) :=
      if_pos (by rw [hknown]; rfl)
    have hcompatible : (G.known w).Compatible (G.known b.workspace) :=
      fun name read read' hread hread' => Option.some.inj ((hle name read hread).symm.trans hread')
    obtain ⟨w', hask, hw', -, hamong⟩ := hadmits.repeats.ask (b := b.on w b.recompiling) htv hknown hw
      hdeep' hadmits.spares hcompatible
    rw [hself]
    exact ⟨w', hask, hw', fun name read hread => (hamong name read hread).elim (hle name read) id⟩
  | none =>
    have hunknown : (G.known w).of tv.name = none :=
      Option.eq_none_iff_forall_ne_some.mpr fun refs hread => by simp [hle _ _ hread] at hknown
    have hself : G.ask (G.environment (inner + 1)) tv b =
        inferReferences G.compiler (G.environment inner) tv b :=
      if_neg (by rw [hknown]; simp)
    have hother : G.ask (G.environment (inner' + 1)) tv (b.on w b.recompiling) =
        inferReferences G.compiler (G.environment inner') tv (b.on w b.recompiling) :=
      if_neg (by rw [show (b.on w b.recompiling).workspace = w from rfl, hunknown]; simp)
    rw [hself, hother]
    exact infer_lockstep hinner htv hb hadmits hdeep' hw hle hknown

end

theorem accompanies_lockstep (depth depth' : Nat) : G.Accompanies (G.lockstep depth depth')
    (G.environment depth) (G.environment depth') := by
  refine ⟨G.serves_environment depth, G.serves_environment depth', ?_⟩
  induction depth generalizing depth' with
  | zero => exact fun tv htv b hb => absurd hb.admits.deep (Nat.not_lt_zero _)
  | succ inner ih =>
    intro tv htv b hb
    obtain ⟨res, w₁, hask, hw₁, hle, hadmits⟩ := settling (inner + 1) tv htv b hb.holds hb.admits
    have hfollows : ∀ inner', G.IsDeep (inner' + 1) b.recompiling → ∀ w, G.Holds w →
        G.known w ≤ G.known b.workspace → _ := fun inner' hdeep' w =>
      ask_lockstep ⟨G.serves_environment inner, G.serves_environment inner', ih inner'⟩ htv hb.holds
        hb.admits hdeep'
    rw [hask] at hfollows ⊢
    refine ⟨⟨hw₁, hb.scope, hb.symbols, hadmits⟩, rfl, hle, fun _ _ => trivial,
      fun _ _ w busy' hw hbeside => ?_⟩
    obtain ⟨hless, rfl, hdeep'⟩ := hbeside
    obtain ⟨inner', rfl⟩ := hdeep'.exists_eq_add_one
    obtain ⟨w', hask', hw', hless'⟩ := hfollows inner' hdeep' w hw hless
    exact ⟨w', hask', hw', hless', rfl, hdeep'⟩

end Lockstep

end Ground

end Relational
