/-!
# Bounded memory of recent results

A bounded map that forgets the entry that was not used for the longest time. Its entries are kept in the
order of their last use, and its uses are counted.

Every entry has tags. An index leads from a tag to the keys of the entries with it, so that the entries
that a change outdates are found without looking at the others. Whenever an entry is forgotten, the index
gives up its key.
-/

namespace Relational

/-- How often lookups found an entry, found none, and entries were removed because they might be
outdated. -/
structure UseCounts where
  hits : Nat := 0
  misses : Nat := 0
  invalidations : Nat := 0
deriving Repr, DecidableEq

/-- Keys by tags. A tag without keys has no place in the index. -/
abbrev KeyIndex (τ κ : Type) := List (τ × List κ)

namespace KeyIndex

variable {τ κ : Type} [BEq τ] [BEq κ]

def keys (index : KeyIndex τ κ) (tag : τ) : List κ :=
  (index.lookup tag).getD []

def erase (index : KeyIndex τ κ) (tag : τ) : KeyIndex τ κ :=
  index.filter (!·.1 == tag)

def add (key : κ) (index : KeyIndex τ κ) (tag : τ) : KeyIndex τ κ :=
  if (index.keys tag).contains key then index
  else (tag, key :: index.keys tag) :: index.erase tag

def remove (key : κ) (index : KeyIndex τ κ) (tag : τ) : KeyIndex τ κ :=
  match (index.keys tag).filter (!· == key) with
  | [] => index.erase tag
  | rest => (tag, rest) :: index.erase tag

end KeyIndex

/-- A map that holds at most `capacity` entries, the most recently used first, with the index of their
keys by tags. -/
structure Recent (τ κ α : Type) where
  capacity : Nat
  entries : List (κ × α) := []
  index : KeyIndex τ κ := []
  counts : UseCounts := {}

namespace Recent

variable {τ κ α : Type}

def size (m : Recent τ κ α) : Nat :=
  m.entries.length

def clear (m : Recent τ κ α) : Recent τ κ α :=
  { m with entries := [], index := [] }

variable [BEq τ] [BEq κ]

def find? (m : Recent τ κ α) (key : κ) : Option α :=
  m.entries.lookup key

/-- The value of a key, which becomes the most recently used one; hits and misses are counted. -/
def get? (m : Recent τ κ α) (key : κ) : Option α × Recent τ κ α :=
  match m.find? key with
  | some value =>
    (some value, { m with
      entries := (key, value) :: m.entries.filter (!·.1 == key)
      counts := { m.counts with hits := m.counts.hits + 1 } })
  | none => (none, { m with counts := { m.counts with misses := m.counts.misses + 1 } })

variable (tags : κ → α → List τ)

/-- The index without the keys of entries that are forgotten. -/
def unindex (index : KeyIndex τ κ) (forgotten : List (κ × α)) : KeyIndex τ κ :=
  forgotten.foldl (fun index (key, value) => (tags key value).foldl (.remove key) index) index

/-- Stores a value as the most recently used one; beyond the capacity the entry used least recently is
forgotten. -/
def put (m : Recent τ κ α) (key : κ) (value : α) : Recent τ κ α :=
  let entries := (key, value) :: m.entries.filter (!·.1 == key)
  { m with
    entries := entries.take m.capacity
    index := (tags key value).foldl (.add key) (unindex tags m.index (entries.drop m.capacity)) }

/-- Removes the entry of a key, if there is one, and counts it. -/
def remove (m : Recent τ κ α) (key : κ) : Recent τ κ α :=
  match m.find? key with
  | some value =>
    { m with
      entries := m.entries.filter (!·.1 == key)
      index := unindex tags m.index [(key, value)]
      counts := { m.counts with invalidations := m.counts.invalidations + 1 } }
  | none => m

/-- Removes the entries with a tag, which may be outdated. -/
def invalidate (m : Recent τ κ α) (tag : τ) : Recent τ κ α :=
  let rest := (m.index.keys tag).foldl (remove tags) m
  { rest with index := rest.index.erase tag }

end Recent

end Relational
