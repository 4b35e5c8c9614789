import Mathlib.Data.List.Nodup
import Relational.Catalog.Basic

/-!
# Entries by name

Objects, columns, operators and declarations are kept in lists of entries, each under a name. What is looked
up is the first entry under a name; where no name occurs twice, the order of the entries does not matter.
-/

namespace Relational

open List

variable {α β κ : Type} [BEq κ] [LawfulBEq κ] {entries entries' : List (κ × α)} {key : κ} {val : α}

theorem mem_of_lookup (h : entries.lookup key = some val) : (key, val) ∈ entries := by
  obtain ⟨before, after, rfl, -⟩ := lookup_eq_some_iff.mp h
  simp

theorem lookup_eq_some_iff_mem (hnodup : (entries.map Prod.fst).Nodup) :
    entries.lookup key = some val ↔ (key, val) ∈ entries := by
  refine ⟨mem_of_lookup, fun hmem => ?_⟩
  cases hlookup : entries.lookup key with
  | none => simpa using lookup_eq_none_iff.mp hlookup _ hmem
  | some other =>
    obtain ⟨-, rfl⟩ := Prod.mk.inj (inj_on_of_nodup_map hnodup hmem (mem_of_lookup hlookup) rfl)
    rfl

theorem lookup_perm (hperm : entries'.Perm entries) (hnodup : (entries.map Prod.fst).Nodup) (key : κ) :
    entries'.lookup key = entries.lookup key := by
  refine Option.ext fun val => ?_
  rw [lookup_eq_some_iff_mem hnodup, lookup_eq_some_iff_mem ((hperm.map _).nodup_iff.mpr hnodup),
    hperm.mem_iff]

variable (entries) (key)

theorem any_key_eq : entries.any (·.1 == key) = (entries.lookup key).isSome := by
  rw [Bool.eq_iff_iff, lookup_isSome_iff, any_eq_true]
  simp only [BEq.comm (a := key)]

theorem lookup_map_values (f : κ → α → β) :
    (entries.map fun entry => (entry.1, f entry.1 entry.2)).lookup key = (entries.lookup key).map (f key) := by
  induction entries with
  | nil => rfl
  | cons entry entries ih =>
    rw [map_cons, lookup_cons, lookup_cons, ih]
    split
    · rename_i hkey
      rw [eq_of_beq hkey]
      rfl
    · rfl

theorem lookup_filter_ne [DecidableEq κ] (removed : κ) :
    (entries.filter (·.1 ≠ removed)).lookup key = if key = removed then none else entries.lookup key := by
  induction entries with
  | nil => simp
  | cons entry entries ih =>
    rw [filter_cons, lookup_cons]
    split
    · rename_i hkept
      rw [lookup_cons, ih]
      cases hkey : key == entry.1 with
      | true => exact (if_neg (eq_of_beq hkey ▸ of_decide_eq_true hkept)).symm
      | false => rfl
    · rename_i hremoved
      obtain rfl : entry.1 = removed := by simpa using hremoved
      rw [ih]
      split
      · rfl
      · rw [beq_eq_false_iff_ne.mpr ‹_›]

theorem lookup_map_cases {β γ : Type} (key : String) (f : β → String) (g : β → γ) (items : List β) :
    ((items.map fun item => (f item, g item)).lookup key = none ∧ ∀ item ∈ items, f item ≠ key) ∨
      ∃ item ∈ items, f item = key ∧
        (items.map fun item => (f item, g item)).lookup key = some (g item) := by
  cases hlookup : (items.map fun item => (f item, g item)).lookup key with
  | none =>
    refine .inl ⟨rfl, fun item hitem hkey => ?_⟩
    have hentry := lookup_eq_none_iff.mp hlookup _ (mem_map_of_mem hitem)
    simp [hkey] at hentry
  | some val =>
    obtain ⟨item, hitem, hentry⟩ := mem_map.mp (mem_of_lookup hlookup)
    obtain ⟨hkey, rfl⟩ := Prod.mk.inj hentry
    exact .inr ⟨item, hitem, hkey, rfl⟩

/-! ### Changing an entry -/

variable (entries : List (String × α)) (key : String)

theorem putEntry_eq (val : α) : putEntry entries key val = if (entries.lookup key).isSome then
    entries.map fun entry => (entry.1, if entry.1 = key then val else entry.2)
  else entries ++ [(key, val)] := by
  rw [putEntry, any_key_eq]
  refine if_congr Iff.rfl (map_congr_left fun entry _ => ?_) rfl
  by_cases hkey : entry.1 = key
  · simp [hkey]
  · simp [hkey]

theorem lookup_putEntry (val : α) (name : String) :
    (putEntry entries key val).lookup name = if name = key then some val else entries.lookup name := by
  rw [putEntry_eq]
  by_cases hname : name = key
  · subst hname
    cases hlookup : entries.lookup name with
    | none => simp [lookup_append, hlookup]
    | some old =>
      rw [Option.isSome_some, if_pos rfl, lookup_map_values entries name fun other old =>
        if other = name then val else old, hlookup]
      simp
  · split
    · rw [lookup_map_values entries name fun other old => if other = key then val else old]
      simp [hname]
    · simp [lookup_append, lookup_cons, beq_eq_false_iff_ne.mpr hname]

theorem filter_putEntry {p : String × α → Bool} (hkey : ∀ val, p (key, val) = false)
    (val : α) : (putEntry entries key val).filter p = entries.filter p := by
  rw [putEntry]
  split
  · clear * - hkey
    induction entries with
    | nil => rfl
    | cons entry entries ih =>
      obtain ⟨name, old⟩ := entry
      rw [map_cons, filter_cons, filter_cons, ih]
      by_cases hname : name = key
      · simp [hname, hkey]
      · simp [hname]
  · simp [hkey]

theorem putEntry_putEntry (first second : α) :
    putEntry (putEntry entries key first) key second = putEntry entries key second := by
  rw [putEntry_eq (putEntry entries key first), lookup_putEntry, if_pos rfl, Option.isSome_some, if_pos rfl,
    putEntry_eq, putEntry_eq]
  split
  · rw [map_map]
    refine map_congr_left fun entry _ => ?_
    simp +contextual
  · rename_i hnone
    rw [← any_key_eq] at hnone
    have hkept : ∀ entry ∈ entries, (entry.1, if entry.1 = key then second else entry.2) = id entry := by
      intro entry hentry
      rw [if_neg fun hkey => hnone (any_eq_true.mpr ⟨entry, hentry, beq_iff_eq.mpr hkey⟩)]
      rfl
    rw [map_append, map_singleton, if_pos rfl, map_congr_left hkept, map_id]

variable {entries} {key}

theorem putEntry_eq_self (hnodup : (entries.map Prod.fst).Nodup) (h : entries.lookup key = some val) :
    putEntry entries key val = entries := by
  have hmem := mem_of_lookup h
  rw [putEntry, if_pos (any_eq_true.mpr ⟨_, hmem, beq_self_eq_true key⟩)]
  refine (map_congr_left fun entry hentry => ?_).trans (map_id _)
  split
  · exact (inj_on_of_nodup_map hnodup hentry hmem (eq_of_beq ‹_›)).symm
  · rfl

theorem mem_putEntry {entry : String × α} (h : entry ∈ putEntry entries key val) :
    entry = (key, val) ∨ entry ∈ entries := by
  unfold putEntry at h
  split at h
  · obtain ⟨old, hold, rfl⟩ := mem_map.mp h
    split
    · exact Or.inl rfl
    · exact Or.inr hold
  · simpa [or_comm] using h

end Relational
