import Relational.Failure
import Relational.Name

/-!
# Declaration stores

The texts of declarations are kept so that objects can be compiled again, together with the names of the
objects that they depend on. One store keeps them in memory; the other keeps two ordered tables in a
file, one for the texts and one for the dependencies, and has to be open.
-/

namespace Relational

/-- Declarations in memory: text and dependencies by name. -/
structure MemoryStore where
  entries : List (String × String × List String) := []

namespace MemoryStore

def get (s : MemoryStore) (name : String) : Except Failure String :=
  match s.entries.lookup name with
  | some (text, _) => .ok text
  | none => .error (.cause (.declarationNotFound name))

/-- Stores a declaration in place of the one there was. -/
def put (s : MemoryStore) (name text : String) (dependencies : List String) : MemoryStore :=
  ⟨(name, text, dependencies) :: s.entries.filter (·.1 ≠ name)⟩

/-- The names of the declarations that depend on an object, sorted. -/
def dependents (s : MemoryStore) (name : String) : List String :=
  sortNames ((s.entries.filter fun (_, _, dependencies) => dependencies.contains name).map Prod.fst)

def delete (s : MemoryStore) (name : String) : Except Failure MemoryStore :=
  match s.entries.lookup name with
  | some _ => .ok ⟨s.entries.filter (·.1 ≠ name)⟩
  | none => .error (.cause (.declarationNotFound name))

end MemoryStore

/-- A table of a file: values by key, in increasing order of the keys. -/
abbrev Bucket (α : Type) := List (String × α)

namespace Bucket

def insert {α : Type} (key : String) (value : α) : Bucket α → Bucket α
  | [] => [(key, value)]
  | (k, v) :: rest =>
    if key < k then (key, value) :: (k, v) :: rest
    else if key = k then (key, value) :: rest
    else (k, v) :: insert key value rest

def erase {α : Type} (b : Bucket α) (key : String) : Bucket α :=
  b.filter (·.1 ≠ key)

end Bucket

/-- Names as a file keeps them: nothing at all if there are none, otherwise an encoding that tells them
all. -/
abbrev EncodedNames := Option (List String)

def encodeNames : List String → EncodedNames
  | [] => none
  | names => some names

def decodeNames (encoded : EncodedNames) : List String :=
  encoded.getD []

/-- Declarations in a file: the texts and the dependencies, each in a table. -/
structure FileStore where
  isOpen : Bool := true
  texts : Bucket String := []
  dependencies : Bucket EncodedNames := []

namespace FileStore

def maxKeySize : Nat := 32768

def whenOpen {α : Type} (s : FileStore) (operation : Except Failure α) : Except Failure α :=
  if s.isOpen then operation else .error (.plain "database not open")

def get (s : FileStore) (name : String) : Except Failure String :=
  s.whenOpen <|
    match s.texts.lookup name with
    | some text => .ok text
    | none => .error (.cause (.declarationNotFound name))

/-- Stores a declaration. Keys must not be empty nor too large. -/
def put (s : FileStore) (name text : String) (dependencies : List String) :
    Except Failure FileStore :=
  s.whenOpen <|
    if name = "" then .error (.plain "key required")
    else if maxKeySize < name.utf8ByteSize then .error (.plain "key too large")
    else .ok { s with
      texts := Bucket.insert name text s.texts
      dependencies := Bucket.insert name (encodeNames dependencies) s.dependencies }

/-- The names of the declarations that depend on an object, in the order of the table. -/
def dependents (s : FileStore) (name : String) : Except Failure (List String) :=
  s.whenOpen <| .ok
    ((s.dependencies.filter fun (_, names) => (decodeNames names).contains name).map Prod.fst)

def delete (s : FileStore) (name : String) : Except Failure FileStore :=
  s.whenOpen <|
    match s.texts.lookup name with
    | some _ => .ok { s with texts := s.texts.erase name, dependencies := s.dependencies.erase name }
    | none => .error (.cause (.declarationNotFound name))

/-- The store with its file closed; closing twice changes nothing. -/
def close (s : FileStore) : FileStore :=
  { s with isOpen := false }

def reopen (s : FileStore) : FileStore :=
  { s with isOpen := true }

end FileStore

/-- A store of declarations. -/
inductive DeclarationStore where
  | memory (store : MemoryStore)
  | file (store : FileStore)

namespace DeclarationStore

def get : DeclarationStore → String → Except Failure String
  | memory s, name => s.get name
  | file s, name => s.get name

def put : DeclarationStore → (name text : String) → List String → Except Failure DeclarationStore
  | memory s, name, text, dependencies => .ok (memory (s.put name text dependencies))
  | file s, name, text, dependencies => (s.put name text dependencies).map file

/-- The names of the declarations that depend on an object. -/
def dependents : DeclarationStore → String → Except Failure (List String)
  | memory s, name => .ok (s.dependents name)
  | file s, name => s.dependents name

def delete : DeclarationStore → String → Except Failure DeclarationStore
  | memory s, name => (s.delete name).map memory
  | file s, name => (s.delete name).map file

def close : DeclarationStore → DeclarationStore
  | memory s => memory s
  | file s => file s.close

def reopen : DeclarationStore → DeclarationStore
  | memory s => memory s
  | file s => file s.reopen

end DeclarationStore

end Relational
