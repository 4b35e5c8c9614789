import Mathlib.Data.List.Nodup
import Relational.Workspace

/-!
# The index of a bounded memory is complete

A memory finds the entries with a tag through its index. So it forgets all entries that a change
outdates only if the index leads to every entry with the tag, whatever was stored, replaced, forgotten
for lack of room or removed before. The index may lead to more: a key whose entry was replaced stays
under the tags of the value before.
-/

namespace Relational

open List

namespace KeyIndex

variable {τ κ : Type} [BEq τ] {idx : KeyIndex τ κ} {tag tag' : τ} {key key' : κ}

theorem keys_cons (keys : List κ) (idx : KeyIndex τ κ) (tag tag' : τ) :
    KeyIndex.keys ((tag, keys) :: idx) tag' = if tag' == tag then keys else idx.keys tag' := by
  unfold KeyIndex.keys
  rw [lookup_cons]
  cases tag' == tag <;> rfl

variable [LawfulBEq τ]

theorem mem_keys_erase : key ∈ (idx.erase tag).keys tag' ↔ tag' ≠ tag ∧ key ∈ idx.keys tag' := by
  induction idx with
  | nil => simp [erase, keys]
  | cons entry idx ih =>
    obtain ⟨head, keys⟩ := entry
    rw [erase] at ih
    rw [erase, filter_cons, keys_cons]
    by_cases hhead : head = tag
    · subst hhead
      have hskip : (!head == head) = false := by simp
      rw [hskip, if_neg Bool.false_ne_true, ih]
      by_cases htag : tag' = head
      · simp [htag]
      · simp [htag]
    · by_cases htag : tag' = head
      · subst htag
        simp [hhead, keys_cons]
      · simp [hhead, keys_cons, ih, htag]

variable [BEq κ] [LawfulBEq κ] (tags : List τ)

theorem mem_keys_add : key' ∈ (idx.add key tag).keys tag' ↔
    key' ∈ idx.keys tag' ∨ key' = key ∧ tag' = tag := by
  unfold add
  split
  · rename_i hmem
    rw [contains_iff_mem] at hmem
    refine ⟨Or.inl, ?_⟩
    rintro (h | ⟨rfl, rfl⟩)
    · exact h
    · exact hmem
  · rw [keys_cons]
    by_cases htag : tag' = tag
    · subst htag
      simp [or_comm]
    · simp [htag, mem_keys_erase]

theorem mem_keys_remove : key' ∈ (idx.remove key tag).keys tag' ↔
    key' ∈ idx.keys tag' ∧ ¬ (key' = key ∧ tag' = tag) := by
  have hrest : ∀ k, k ∈ (idx.keys tag).filter (!· == key) ↔ k ∈ idx.keys tag ∧ k ≠ key := by
    simp
  unfold remove
  split
  · rename_i hnone
    rw [hnone] at hrest
    rw [mem_keys_erase]
    by_cases htag : tag' = tag
    · subst htag
      have hall := hrest key'
      simpa using hall
    · simp [htag]
  · rw [keys_cons]
    by_cases htag : tag' = tag
    · subst htag
      simp
    · simp [htag, mem_keys_erase]

theorem mem_keys_foldl_add : key' ∈ (tags.foldl (add key) idx).keys tag' ↔
    key' ∈ idx.keys tag' ∨ key' = key ∧ tag' ∈ tags := by
  induction tags generalizing idx with
  | nil => simp
  | cons tag tags ih =>
    rw [foldl_cons, ih, mem_keys_add, mem_cons]
    tauto

theorem mem_keys_foldl_remove : key' ∈ (tags.foldl (remove key) idx).keys tag' ↔
    key' ∈ idx.keys tag' ∧ ¬ (key' = key ∧ tag' ∈ tags) := by
  induction tags generalizing idx with
  | nil => simp
  | cons tag tags ih =>
    rw [foldl_cons, ih, mem_keys_remove, mem_cons]
    tauto

end KeyIndex

namespace Recent

variable {τ κ α : Type} {m : Recent τ κ α} {tags : κ → α → List τ} {key : κ} {val : α}
  {entry : κ × α} {tag : τ}

theorem fst_get? [BEq κ] (m : Recent τ κ α) (key : κ) : (m.get? key).1 = m.find? key := by
  rw [get?]
  split <;> rename_i hfind <;> exact hfind.symm

section Entries

variable [BEq κ] [LawfulBEq κ]

theorem mem_entries_of_find? (h : m.find? key = some val) : (key, val) ∈ m.entries := by
  obtain ⟨before, after, heq, -⟩ := lookup_eq_some_iff.mp h
  rw [heq]
  simp

/-- The entries with a key in front. -/
def inFront (m : Recent τ κ α) (key : κ) (value : α) : List (κ × α) :=
  (key, value) :: m.entries.filter (!·.1 == key)

theorem mem_inFront : entry ∈ m.inFront key val ↔ entry = (key, val) ∨ entry ∈ m.entries ∧ entry.1 ≠ key := by
  simp [inFront]

end Entries

variable [BEq τ]

/-- The keys are different, and the index leads from every tag of an entry to the entry. -/
structure Indexed (tags : κ → α → List τ) (m : Recent τ κ α) : Prop where
  nodup : (m.entries.map Prod.fst).Nodup
  complete : ∀ entry ∈ m.entries, ∀ tag ∈ tags entry.1 entry.2, entry.1 ∈ m.index.keys tag

theorem indexed_empty (tags : κ → α → List τ) (capacity : Nat) : Indexed tags ({ capacity } : Recent τ κ α) :=
  ⟨nodup_nil, by simp⟩

theorem Indexed.nodup_filter (h : m.Indexed tags) (p : κ × α → Bool) :
    ((m.entries.filter p).map Prod.fst).Nodup :=
  h.nodup.sublist (filter_sublist.map _)

variable [BEq κ] [LawfulBEq κ]

theorem Indexed.nodup_inFront (h : m.Indexed tags) (key : κ) (val : α) :
    ((m.inFront key val).map Prod.fst).Nodup := by
  refine nodup_cons.mpr ⟨?_, h.nodup_filter _⟩
  simp

theorem mem_entries_get? (h : m.Indexed tags) (key : κ) :
    entry ∈ (m.get? key).2.entries ↔ entry ∈ m.entries := by
  unfold get?
  split
  · rename_i val hfind
    have hmem := mem_entries_of_find? hfind
    change entry ∈ m.inFront key val ↔ _
    rw [mem_inFront]
    refine ⟨?_, fun hentry => ?_⟩
    · rintro (rfl | ⟨hentry, -⟩)
      · exact hmem
      · exact hentry
    · by_cases hkey : entry.1 = key
      · exact Or.inl (inj_on_of_nodup_map h.nodup hentry hmem hkey)
      · exact Or.inr ⟨hentry, hkey⟩
  · rfl

theorem Indexed.get? (h : m.Indexed tags) (key : κ) : (m.get? key).2.Indexed tags where
  nodup := by
    unfold Recent.get?
    split
    · exact h.nodup_inFront _ _
    · exact h.nodup
  complete entry hentry tag htag := by
    have hcomplete := h.complete entry ((mem_entries_get? h key).mp hentry) tag htag
    unfold Recent.get?
    split <;> exact hcomplete

theorem mem_entries_put (h : entry ∈ (m.put tags key val).entries) :
    entry = (key, val) ∨ entry ∈ m.entries ∧ entry.1 ≠ key :=
  mem_inFront.mp (mem_of_mem_take h)

theorem mem_entries_remove : entry ∈ (m.remove tags key).entries ↔ entry ∈ m.entries ∧ entry.1 ≠ key := by
  unfold remove
  split
  · simp
  · rename_i hnone
    refine ⟨fun hentry => ⟨hentry, ?_⟩, And.left⟩
    have hne := lookup_eq_none_iff.mp hnone entry hentry
    rintro rfl
    simp at hne

theorem mem_entries_foldl_remove (keys : List κ) :
    entry ∈ (keys.foldl (remove tags) m).entries ↔ entry ∈ m.entries ∧ entry.1 ∉ keys := by
  induction keys generalizing m with
  | nil => simp
  | cons key keys ih =>
    rw [foldl_cons, ih, mem_entries_remove, mem_cons, not_or, and_assoc]

theorem Indexed.mem_entries_invalidate (h : m.Indexed tags)
    (hentry : entry ∈ (m.invalidate tags tag).entries) : entry ∈ m.entries ∧ tag ∉ tags entry.1 entry.2 := by
  obtain ⟨hold, hkey⟩ := (mem_entries_foldl_remove _).mp hentry
  exact ⟨hold, fun htag => hkey (h.complete entry hold tag htag)⟩

theorem mem_entries_of_foldl_invalidate {outdated : List τ}
    (h : entry ∈ (outdated.foldl (invalidate tags) m).entries) : entry ∈ m.entries := by
  induction outdated generalizing m with
  | nil => exact h
  | cons tag outdated ih =>
    have hleft : entry ∈ (m.invalidate tags tag).entries := ih h
    exact ((mem_entries_foldl_remove _).mp hleft).1

variable [LawfulBEq τ]

theorem mem_keys_unindex {idx : KeyIndex τ κ} (forgotten : List (κ × α)) :
    key ∈ (unindex tags idx forgotten).keys tag ↔
      key ∈ idx.keys tag ∧ ∀ entry ∈ forgotten, ¬ (key = entry.1 ∧ tag ∈ tags entry.1 entry.2) := by
  unfold unindex
  induction forgotten generalizing idx with
  | nil => simp
  | cons entry forgotten ih =>
    rw [foldl_cons, ih, KeyIndex.mem_keys_foldl_remove, forall_mem_cons, and_assoc]

variable (h : m.Indexed tags)

include h

theorem Indexed.put (key : κ) (val : α) : (m.put tags key val).Indexed tags where
  nodup := (h.nodup_inFront key val).sublist ((take_sublist _ _).map _)
  complete entry hentry tag htag := by
    refine (KeyIndex.mem_keys_foldl_add _).mpr ?_
    rcases mem_entries_put hentry with rfl | ⟨hold, hkey⟩
    · exact Or.inr ⟨rfl, htag⟩
    · refine Or.inl ((mem_keys_unindex _).mpr ⟨h.complete entry hold tag htag, ?_⟩)
      -- The keys are different, so that no entry is forgotten under a key that is kept.
      rintro other hother ⟨hsame, -⟩
      have hdisjoint := disjoint_take_drop (h.nodup_inFront key val) (Nat.le_refl m.capacity)
      rw [← map_take, ← map_drop] at hdisjoint
      exact hdisjoint (mem_map_of_mem hentry) (hsame ▸ mem_map_of_mem hother)

theorem Indexed.remove (key : κ) : (m.remove tags key).Indexed tags where
  nodup := by
    unfold Recent.remove
    split
    · exact h.nodup_filter _
    · exact h.nodup
  complete entry hentry tag htag := by
    obtain ⟨hold, hkey⟩ := mem_entries_remove.mp hentry
    have hcomplete := h.complete entry hold tag htag
    unfold Recent.remove
    split
    · refine (mem_keys_unindex _).mpr ⟨hcomplete, ?_⟩
      simp [hkey]
    · exact hcomplete

theorem Indexed.foldl_remove (keys : List κ) : (keys.foldl (Recent.remove tags) m).Indexed tags := by
  induction keys generalizing m with
  | nil => exact h
  | cons key keys ih => exact ih (h.remove key)

theorem Indexed.invalidate (tag : τ) : (m.invalidate tags tag).Indexed tags where
  nodup := (h.foldl_remove _).nodup
  complete entry hentry other hother := by
    refine KeyIndex.mem_keys_erase.mpr ⟨?_, (h.foldl_remove _).complete entry hentry other hother⟩
    rintro rfl
    exact (h.mem_entries_invalidate hentry).2 hother

/-- After some tags were invalidated, the index is complete and no entry with one of them is left. -/
theorem Indexed.foldl_invalidate (outdated : List τ) :
    (outdated.foldl (Recent.invalidate tags) m).Indexed tags ∧
      ∀ entry ∈ (outdated.foldl (Recent.invalidate tags) m).entries, entry ∈ m.entries ∧
        ∀ tag ∈ outdated, tag ∉ tags entry.1 entry.2 := by
  induction outdated generalizing m with
  | nil => exact ⟨h, by simp⟩
  | cons tag outdated ih =>
    obtain ⟨hindexed, hentries⟩ := ih (h.invalidate tag)
    refine ⟨hindexed, fun entry hentry => ?_⟩
    obtain ⟨hleft, hothers⟩ := hentries entry hentry
    obtain ⟨hold, htag⟩ := h.mem_entries_invalidate hleft
    exact ⟨hold, forall_mem_cons.mpr ⟨htag, hothers⟩⟩

end Recent

/-! ### Announcements -/

/-- The name of the scalar type that an event concerns. -/
def CatalogEvent.typeName? : CatalogEvent → Option String
  | typeChanged type => some type.name
  | conversionChanged conversion => some conversion.source.name
  | operatorChanged _ => none

/-- What an event outdates. -/
def CatalogEvent.callTags : CatalogEvent → List CallTag
  | typeChanged type => [.type type.name]
  | conversionChanged conversion => [.type conversion.source.name]
  | operatorChanged name => [.operators name, .operators (Name.unqualified name)]

theorem ConversionCache.foldl_notify_eq (cache : ConversionCache) (events : List CatalogEvent) :
    events.foldl notify cache =
      (events.flatMap (·.typeName?.toList)).foldl (Recent.invalidate tags) cache := by
  rw [foldl_flatMap]
  exact congrArg (fun f => events.foldl f cache) (funext₂ fun _ event => by cases event <;> rfl)

theorem OperatorCache.foldl_notify_eq (cache : OperatorCache) (events : List CatalogEvent) :
    events.foldl notify cache =
      (events.flatMap CatalogEvent.callTags).foldl (Recent.invalidate tags) cache := by
  rw [foldl_flatMap]
  exact congrArg (fun f => events.foldl f cache) (funext₂ fun _ event => by cases event <;> rfl)

theorem Workspace.apply_eq {α : Type} (w : Workspace) (change : Change α) : w.apply change = { w with
      catalog := change.catalog
      conversionCache := w.conversionCache.map (change.events.foldl ConversionCache.notify)
      operatorCache := w.operatorCache.map (change.events.foldl OperatorCache.notify) } := by
  have hnotify : ∀ (events : List CatalogEvent) (w : Workspace), events.foldl notify w = { w with
        conversionCache := w.conversionCache.map (events.foldl .notify)
        operatorCache := w.operatorCache.map (events.foldl .notify) } := by
    intro events
    induction events with
    | nil => simp
    | cons event events ih =>
      intro w
      rw [foldl_cons, ih]
      simp only [notify, Option.map_map]
      rfl
  exact hnotify _ _

end Relational
