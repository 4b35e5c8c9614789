import Relational.Config
import Relational.Yaml.Meaning
import Relational.Yaml.Node

/-!
# Configuration files

A configuration file is a mapping from names of settings to values. A setting that is left out keeps
its default, a setting without a value is emptied. An unknown setting, a setting given twice and a
value of the wrong kind are complained about with their lines, all together; a text that cannot be read
at all is one complaint.
-/

namespace Relational

open Yaml

/-- The kinds of settings. -/
inductive SettingKind where
  | text | texts | flag | number
deriving Repr, DecidableEq

def SettingKind.name : SettingKind → String
  | text => "string"
  | texts => "[]string"
  | flag => "bool"
  | number => "int"

/-- Decoding collects complaints, and stops at a text that cannot be decoded. -/
abbrev Decoding := StateT (List String) (Except SyntaxError)

namespace Decoding

/-- Adds a complaint about a line, counted from zero. -/
def complain (line : Nat) (text : String) : Decoding Unit :=
  modify (· ++ ["line " ++ toString (line + 1) ++ ": " ++ text])

def shownSize : Nat := 10

/-- The first octets of a text; the octets of a character that is cut are shown as replacement
characters. -/
def cut : (size : Nat) → List Char → List Char
  | _, [] => []
  | size, c :: rest =>
    if c.utf8Size ≤ size then c :: cut (size - c.utf8Size) rest
    else List.replicate size '\ufffd'

def shown (text : String) : String :=
  let start := if shownSize < text.utf8ByteSize then String.ofList (cut 7 text.toList) ++ "..." else text
  " \x60" ++ start ++ "\x60"

/-- Complains that a node with a tag does not have the wanted kind. Collections are not shown. -/
def mismatch (line : Nat) (tag text wanted : String) : Decoding Unit :=
  let isCollection := tag = tagStart ++ "seq" || tag = tagStart ++ "map"
  complain line
    ("cannot unmarshal " ++ shortTag tag ++ (if isCollection then text else shown text) ++ " into " ++
      wanted)

/-- The meaning of a scalar: a text in quotes is a text. -/
def meaning (tag text : String) (isPlain : Bool) : Decoding Meaning :=
  if tag = "" ∧ !isPlain then return .text else liftM (Meaning.ofTagged tag text)

def reject (wanted : String) : Node → Decoding Unit
  | .scalar line tag text isPlain => do
    let value ← meaning tag text isPlain
    mismatch line (if tag = "" then value.tag else tag) text wanted
  | .sequence line tag _ | .enclosing line tag _ false =>
    mismatch line (if tag = "" then tagStart ++ "seq" else tag) "" wanted
  | .mapping line tag _ | .enclosing line tag _ true =>
    mismatch line (if tag = "" then tagStart ++ "map" else tag) "" wanted

/-- The value of a scalar read by a function, or the empty value for null. Anything else is complained
about. -/
def scalar {α : Type} (kind : SettingKind) (empty : α) (read : Meaning → String → Option α)
    (n : Node) : Decoding (Option α) := do
  match n with
  | .scalar _ tag text isPlain =>
    match ← meaning tag text isPlain with
    | .null => return some empty
    | value =>
      let result := read value text
      if result.isNone then reject kind.name n
      return result
  | _ => do
    reject kind.name n
    return none

def text : Node → Decoding (Option String) :=
  scalar .text "" fun _ text => some text

def flag : Node → Decoding (Option Bool) :=
  scalar .flag false fun value _ =>
    match value with
    | .boolean b => some b
    | _ => none

/-- An integer of 64 bits; the fraction of a floating-point number is dropped. -/
def number : Node → Decoding (Option Int) :=
  scalar .number 0 fun value _ =>
    match value with
    | .integer n => if n < Integer.limit64 then some n else none
    | .float .nan | .float (.infinite false) => none
    | .float (.finite isNegative mantissa exponent) =>
      let isTooLarge :=
        !isNegative && 0 ≤ exponent && Integer.limit64 < mantissa * Nat.pow 2 exponent.toNat
      if isTooLarge then none else some (Binary.finite isNegative mantissa exponent).truncate64
    | .float (.infinite true) => some (Binary.infinite true).truncate64
    | _ => none

/-- A list of texts; items that are none are complained about and left out. -/
def texts (n : Node) : Decoding (Option (List String)) := do
  match n with
  | .sequence _ _ items => return some ((← items.mapM text).filterMap id)
  | _ => scalar .texts [] (fun _ _ => none) n

end Decoding

namespace Config

/-- The configuration with the named setting taken from a node. -/
def set (c : Config) (name : String) (n : Node) : Option (Decoding Config) :=
  let change := fun {α : Type} (read : Node → Decoding (Option α)) (put : α → Config) =>
    some do
      match ← read n with
      | some value => return put value
      | none => return c
  match name with
  | "default_namespace" => change Decoding.text ({ c with defaultNamespace := · })
  | "default_device" => change Decoding.text ({ c with defaultDevice := · })
  | "resolution_path" => change Decoding.texts ({ c with resolutionPath := · })
  | "case_collision" => change Decoding.text ({ c with caseCollision := · })
  | "arity_widening" => change Decoding.flag ({ c with arityWidening := · })
  | "optimize" => change Decoding.flag ({ c with optimize := · })
  | "skip_passes" => change Decoding.texts ({ c with skipPasses := · })
  | "operator_cache_size" => change Decoding.number ({ c with operatorCacheSize := · })
  | "conversion_cache_size" => change Decoding.number ({ c with conversionCacheSize := · })
  | "debug" => change Decoding.flag ({ c with debug := · })
  | "parallelism" => change Decoding.number ({ c with parallelism := · })
  | _ => none

def typeName : String := "relc.Config"

def empty : Config := { caseCollision := "", optimize := false }

def lineOf : Node → Nat
  | .scalar line .. | .sequence line .. | .mapping line .. | .enclosing line .. => line

def isMerge : Node → Bool
  | .scalar _ tag text isPlain => text = "<<" && (isPlain || tag = tagStart ++ "merge")
  | _ => false

mutual

/-- The configuration with the settings of the entries of a mapping. Names of settings that were
already given in the same mapping are complained about. -/
def addEntries (done : List String) : List (Node × Node) → Config → Decoding Config
  | [], c => return c
  | (key, value) :: entries, c => do
    if isMerge key then
      addEntries done entries (← merge value c)
    else
      match ← Decoding.text key with
      | none => addEntries done entries c
      | some name =>
        let field := "field " ++ name
        match c.set name value with
        | none =>
          Decoding.complain (lineOf key) (field ++ " not found in type " ++ typeName)
          addEntries done entries c
        | some change =>
          if done.contains name then
            Decoding.complain (lineOf key) (field ++ " already set in type " ++ typeName)
            addEntries done entries c
          else addEntries (name :: done) entries (← change)

/-- The configuration with the settings of a mapping, or of several, the first of which counts most. -/
def merge : Node → Config → Decoding Config
  | .mapping _ _ entries, c => addEntries [] entries c
  | .sequence _ _ items, c => mergeItems items c
  | .enclosing _ _ anchor true, _ => throw ⟨.cyclicAnchor anchor, 0⟩
  | _, _ => throw ⟨.mergeOfNonMapping, 0⟩

/-- The configuration with the settings of several mappings, the last one first. -/
def mergeItems : List Node → Config → Decoding Config
  | [], c => return c
  | item :: items, c => do
    let c ← mergeItems items c
    match item with
    | .mapping _ _ entries => addEntries [] entries c
    | .enclosing _ _ anchor true => throw ⟨.cyclicAnchor anchor, 0⟩
    | _ => throw ⟨.mergeOfNonMapping, 0⟩

end

def ofNode (n : Node) : Decoding Config := do
  match n with
  | .mapping _ _ entries => addEntries [] entries {}
  | .scalar _ tag text isPlain =>
    if (← Decoding.meaning tag text isPlain) = .null then return empty
    Decoding.reject typeName n
    return {}
  | _ => do
    Decoding.reject typeName n
    return {}

/-- The configuration of a text before it is validated. -/
def decode (text : String) : Except String Config :=
  let decoded : Except SyntaxError (Config × List String) := do
    match ← Node.read? text with
    | none => return ({}, [])
    | some n => (ofNode n).run []
  match decoded with
  | .ok (c, []) => .ok c
  | .ok (_, complaints) => .error ("yaml: unmarshal errors:\n  " ++ "\n  ".intercalate complaints)
  | .error e => .error e.text

def parse (text : String) : Except Failure Config := do
  match decode text with
  | .error complaint => throw (.cause (.invalidConfig complaint))
  | .ok c =>
    match c.failure? with
    | some f => throw f
    | none => return c

end Config

end Relational
