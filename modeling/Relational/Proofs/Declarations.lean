import Mathlib.Data.List.Sort
import Mathlib.Data.String.Basic
import Relational.Declarations
import Relational.Proofs.Entries

/-!
# Both declaration stores answer alike

A store in memory keeps one entry for each name, in no order that matters, and sorts the names that it
answers with. A store in a file keeps two tables that are ordered by name. Both are views of one ordered
table, and remain so through every request, so that no sequence of requests tells them apart.
-/

namespace Relational

open List

/-- What is asked of a store. -/
inductive StoreRequest where
  | put (name text : String) (dependencies : List String)
  | delete (name : String)
  | get (name : String)
  | dependents (name : String)

namespace StoreRequest

/-- Requests to store a declaration are under names that both stores take. -/
def IsStorable : StoreRequest → Prop
  | put name _ _ => name ≠ "" ∧ name.utf8ByteSize ≤ FileStore.maxKeySize
  | _ => True

end StoreRequest

/-- What a store answers to a request that it does not refuse. -/
inductive StoreAnswer where
  | done
  | text (text : String)
  | names (names : List String)

namespace DeclarationStore

/-- The store after a change of it, and what it answers; a change that is refused leaves it as it was. -/
def update (s : DeclarationStore) :
    Except Failure DeclarationStore → Except Failure StoreAnswer × DeclarationStore
  | .ok changed => (.ok .done, changed)
  | .error failure => (.error failure, s)

/-- What a store answers to a request, and the store after it. -/
def perform (s : DeclarationStore) : StoreRequest → Except Failure StoreAnswer × DeclarationStore
  | .put name text dependencies => s.update (s.put name text dependencies)
  | .delete name => s.update (s.delete name)
  | .get name => ((s.get name).map .text, s)
  | .dependents name => ((s.dependents name).map .names, s)

/-- What a store answers to requests one after the other. -/
def answers : DeclarationStore → List StoreRequest → List (Except Failure StoreAnswer)
  | _, [] => []
  | s, request :: requests => (s.perform request).1 :: (s.perform request).2.answers requests

end DeclarationStore

/-! ### Ordered tables -/

namespace Bucket

variable {α β : Type} {key : String} {val : α} {b : Bucket α} (f : α → β)

/-- The keys of a table stand in increasing order. -/
def IsOrdered (b : Bucket α) : Prop :=
  (b.map Prod.fst).Pairwise (· < ·)

theorem insert_map (val : α) (b : Bucket α) :
    insert key (f val) (b.map fun entry => (entry.1, f entry.2)) =
      (insert key val b).map fun entry => (entry.1, f entry.2) := by
  induction b with
  | nil => rfl
  | cons entry b ih =>
    simp only [insert, map_cons]
    split
    · rfl
    · split
      · rfl
      · rw [ih, map_cons]

theorem IsOrdered.insert_perm (h : b.IsOrdered) :
    (Bucket.insert key val b).Perm ((key, val) :: b.filter (·.1 ≠ key)) := by
  induction b with
  | nil => exact .refl _
  | cons entry b ih =>
    obtain ⟨hfirst, hrest⟩ := pairwise_cons.mp h
    have hkept : key < entry.1 ∨ key = entry.1 → b.filter (·.1 ≠ key) = b := by
      refine fun hle => filter_eq_self.mpr fun other hother => decide_eq_true ?_
      have hlt := hfirst other.1 (mem_map_of_mem hother)
      rcases hle with hle | rfl
      · exact (hle.trans hlt).ne'
      · exact hlt.ne'
    simp only [insert]
    split
    · rename_i hlt
      rw [filter_cons_of_pos (by simpa using hlt.ne'), hkept (.inl hlt)]
    · split
      · rename_i heq
        rw [filter_cons_of_neg (by simp [heq]), hkept (.inr heq)]
      · rename_i hne
        rw [filter_cons_of_pos (by simpa using Ne.symm hne)]
        exact ((ih hrest).cons entry).trans (.swap ..)

theorem IsOrdered.insert (h : b.IsOrdered) : IsOrdered (Bucket.insert key val b) := by
  induction b with
  | nil => exact pairwise_singleton _ _
  | cons entry b ih =>
    obtain ⟨hfirst, hrest⟩ := pairwise_cons.mp h
    simp only [Bucket.insert]
    split
    · rename_i hlt
      refine pairwise_cons.mpr ⟨fun name hname => ?_, h⟩
      rcases mem_cons.mp hname with rfl | hname
      · exact hlt
      · exact hlt.trans (hfirst name hname)
    · split
      · rename_i heq
        exact pairwise_cons.mpr ⟨heq ▸ hfirst, hrest⟩
      · rename_i hnot hne
        refine pairwise_cons.mpr ⟨fun name hname => ?_, ih hrest⟩
        obtain ⟨other, hother, rfl⟩ := mem_map.mp hname
        rcases mem_cons.mp ((insert_perm hrest).mem_iff.mp hother) with rfl | hother
        · exact lt_of_le_of_ne (not_lt.mp hnot) (.symm hne)
        · exact hfirst other.1 (mem_map_of_mem (mem_of_mem_filter hother))

theorem IsOrdered.erase (h : b.IsOrdered) : IsOrdered (b.erase key) :=
  h.sublist (filter_sublist.map _)

theorem IsOrdered.nodup (h : b.IsOrdered) : (b.map Prod.fst).Nodup :=
  h.imp ne_of_lt

end Bucket

/-! ### One table, two views -/

/-- A store in memory and an open store in a file that keep the same declarations. -/
structure KeepsSame (m : MemoryStore) (f : FileStore) (table : Bucket (String × List String)) : Prop where
  isOpen : f.isOpen = true
  ordered : table.IsOrdered
  entries : m.entries.Perm table
  texts : f.texts = table.map fun entry => (entry.1, entry.2.1)
  dependencies : f.dependencies = table.map fun entry => (entry.1, encodeNames entry.2.2)

@[simp] theorem decodeNames_encodeNames (names : List String) : decodeNames (encodeNames names) = names := by
  cases names with
  | nil | cons => rfl

namespace KeepsSame

variable {m : MemoryStore} {f : FileStore} {table : Bucket (String × List String)}

variable (h : KeepsSame m f table)

include h

theorem lookup_texts (name : String) : f.texts.lookup name = (m.entries.lookup name).map Prod.fst := by
  rw [h.texts, lookup_map_values table name fun _ => Prod.fst, lookup_perm h.entries h.ordered.nodup]

theorem get_eq (name : String) : f.get name = m.get name := by
  rw [FileStore.get, FileStore.whenOpen, if_pos h.isOpen, h.lookup_texts, MemoryStore.get]
  cases m.entries.lookup name with
  | none | some => rfl

theorem dependents_eq (name : String) : f.dependents name = .ok (m.dependents name) := by
  rw [FileStore.dependents, FileStore.whenOpen, if_pos h.isOpen, h.dependencies, filter_map,
    map_map, MemoryStore.dependents, sortNames]
  refine congrArg Except.ok (List.Perm.eq_of_pairwise (fun a b _ _ => le_antisymm) ?_
    (pairwise_mergeSort' (· ≤ ·) _) (.trans ?_ (mergeSort_perm _ _).symm))
  · exact (h.ordered.imp le_of_lt).sublist (filter_sublist.map _)
  · simpa [Function.comp_def] using ((h.entries.symm.filter _).map _)

theorem put {name : String} (text : String) (dependencies : List String) (hname : name ≠ "")
    (hsize : name.utf8ByteSize ≤ FileStore.maxKeySize) : ∃ f', f.put name text dependencies = .ok f' ∧
      KeepsSame (m.put name text dependencies) f' (table.insert name (text, dependencies)) := by
  rw [FileStore.put, FileStore.whenOpen, if_pos h.isOpen, if_neg hname, if_neg (not_lt.mpr hsize)]
  refine ⟨_, rfl, h.isOpen, h.ordered.insert, ?_, ?_, ?_⟩
  · exact ((h.entries.filter _).cons _).trans h.ordered.insert_perm.symm
  · exact (congrArg _ h.texts).trans (Bucket.insert_map Prod.fst (text, dependencies) table)
  · exact (congrArg _ h.dependencies).trans
      (Bucket.insert_map (fun entry => encodeNames entry.2) (text, dependencies) table)

theorem delete (name : String) : (∃ cause, f.delete name = .error cause ∧ m.delete name = .error cause) ∨
      ∃ f' m', f.delete name = .ok f' ∧ m.delete name = .ok m' ∧ KeepsSame m' f' (table.erase name) := by
  rw [FileStore.delete, FileStore.whenOpen, if_pos h.isOpen, h.lookup_texts, MemoryStore.delete]
  cases m.entries.lookup name with
  | none => exact .inl ⟨_, rfl, rfl⟩
  | some entry =>
    refine .inr ⟨_, _, rfl, rfl, h.isOpen, h.ordered.erase, h.entries.filter _, ?_, ?_⟩
    · exact (congrArg (Bucket.erase · name) h.texts).trans filter_map
    · exact (congrArg (Bucket.erase · name) h.dependencies).trans filter_map

theorem perform {request : StoreRequest} (hrequest : request.IsStorable) :
    ∃ answer m' f' table', (DeclarationStore.memory m).perform request = (answer, .memory m') ∧
      (DeclarationStore.file f).perform request = (answer, .file f') ∧ KeepsSame m' f' table' := by
  cases request with
  | put name text dependencies =>
    obtain ⟨f', hput, hsame⟩ := h.put text dependencies hrequest.1 hrequest.2
    refine ⟨_, _, f', _, rfl, ?_, hsame⟩
    exact congrArg (DeclarationStore.update (.file f) <| Except.map .file ·) hput
  | delete name =>
    rcases h.delete name with ⟨cause, hfile, hmemory⟩ | ⟨f', m', hfile, hmemory, hsame⟩
    · refine ⟨.error cause, m, f, table, ?_, ?_, h⟩
      · exact congrArg (DeclarationStore.update (.memory m) <| Except.map .memory ·) hmemory
      · exact congrArg (DeclarationStore.update (.file f) <| Except.map .file ·) hfile
    · refine ⟨.ok .done, m', f', _, ?_, ?_, hsame⟩
      · exact congrArg (DeclarationStore.update (.memory m) <| Except.map .memory ·) hmemory
      · exact congrArg (DeclarationStore.update (.file f) <| Except.map .file ·) hfile
  | get name =>
    refine ⟨_, m, f, table, rfl, ?_, h⟩
    exact congrArg (fun answer => (answer.map StoreAnswer.text, DeclarationStore.file f)) (h.get_eq name)
  | dependents name =>
    refine ⟨_, m, f, table, rfl, ?_, h⟩
    exact congrArg (fun answer => (answer.map StoreAnswer.names, DeclarationStore.file f))
      (h.dependents_eq name)

theorem answers_eq {requests : List StoreRequest} (hrequests : ∀ request ∈ requests, request.IsStorable) :
    (DeclarationStore.memory m).answers requests = (DeclarationStore.file f).answers requests := by
  induction requests generalizing m f table with
  | nil => rfl
  | cons request requests ih =>
    obtain ⟨hfirst, hrest⟩ := forall_mem_cons.mp hrequests
    obtain ⟨answer, m', f', table', hmemory, hfile, hsame⟩ := h.perform hfirst
    rw [DeclarationStore.answers, DeclarationStore.answers, hmemory, hfile]
    exact congrArg _ (ih hsame hrest)

end KeepsSame

/-- No sequence of requests under names that can be stored tells a store in memory from an open store in a
file: from when both are empty, all answers and all refusals are the same. -/
theorem DeclarationStore.answers_memory_eq_file {requests : List StoreRequest}
    (h : ∀ request ∈ requests, request.IsStorable) :
    (memory {}).answers requests = (file {}).answers requests :=
  KeepsSame.answers_eq (⟨rfl, .nil, .refl _, rfl, rfl⟩ : KeepsSame {} {} []) h

/-- Declarations that are stored out of order, one of them twice, asked for and removed. -/
def sampleRequests : List StoreRequest :=
  [.put "c" "1" ["a"], .put "b" "2" ["a"], .put "c" "3" ["a", "b"], .put "a" "" [], .dependents "a",
    .delete "b", .get "b", .get "a", .dependents "a"]

theorem DeclarationStore.answers_memory_eq_file_overwritten :
    (∀ request ∈ sampleRequests, request.IsStorable) ∧ (memory {}).answers sampleRequests =
      [.ok .done, .ok .done, .ok .done, .ok .done, .ok (.names ["b", "c"]), .ok .done,
        .error (.cause (.declarationNotFound "b")), .ok (.text ""), .ok (.names ["c"])] := by
  have hstorable : ∀ request ∈ sampleRequests, request.IsStorable := by
    simp [sampleRequests, StoreRequest.IsStorable]
    decide
  exact ⟨hstorable, (answers_memory_eq_file hstorable).trans (by rfl)⟩

end Relational
