import Relational.Proofs.Catalog.Operators
import Relational.Proofs.Resolution.Effects

/-!
# What the match of a call depends on

The match of a call with overloads notes the names of the scalar types that the conversions of its
arguments saw, also those of overloads that do not fit. In every graph with the same conversions within
these types the call has the same match, whether outcomes of searches are remembered or not.
-/

namespace Relational

open List

variable {name name' : String} (g : ConversionGraph)

/-! ### Matches of calls -/

/-- The scalar types of the arguments of a call. -/
def Call.scalars (call : Call) : List ScalarType :=
  call.flatMap fun argument => (argument.type.map Ty.scalars).getD []

/-- The scalar types that the conversion of an argument saw. -/
def ArgumentMatch.visited (fit : ArgumentMatch) : List String :=
  (fit.conversion.map (·.visited)).getD []

theorem OverloadChoice.visited_add (choice : OverloadChoice) (isExact : Bool) (m : OverloadMatch) :
    (choice.add isExact m).visited = choice.visited ++ m.visited := by
  rw [add]
  split
  · rfl
  split
  · rfl
  split
  · rfl
  split <;> rfl

section Matches

variable {types : List ScalarType} {g : ConversionGraph} {call : Call} {operators : List Operator}
  {op : Operator}

section

variable (hid : Identified types)

include hid

theorem matchArgument_dependsOn {arg : Argument} {parameter : Parameter}
    (harg : ∀ type ∈ arg.type, type.scalars ⊆ types) (hpar : parameter.type.scalars ⊆ types) :
    ∃ names fit, DependsOn types g names (matchArgument · arg parameter) fit ∧
      ∀ first ∈ fit, names ⊆ first.visited := by
  obtain ⟨type, modifier, isOptional⟩ := arg
  cases type with
  | none => exact ⟨[], none, .pure _, by simp⟩
  | some type =>
    by_cases hexact : type.isNil || type.isA parameter.type
    · refine ⟨[], some { isExact := true }, ?_, by simp⟩
      simp only [matchArgument, if_pos hexact]
      exact .pure _
    by_cases hvar : modifier = .var || parameter.modifier = .var
    · refine ⟨[], some {}, ?_, by simp⟩
      simp only [matchArgument, if_neg hexact, if_pos hvar]
      exact .pure _
    obtain ⟨ctx, h⟩ := findConversion_dependsOn (g := g) hid false type parameter.type
      (harg type rfl) hpar
    refine ⟨ctx.visited, some { conversion := some ctx }, ?_, by simp [ArgumentMatch.visited]⟩
    simp only [matchArgument, if_neg hexact, if_neg hvar]
    exact h.map _

theorem matchArguments_dependsOn {signature : Signature} (hcall : call.scalars ⊆ types)
    (hsig : ∀ p ∈ signature, p.type.scalars ⊆ types) :
    ∃ names fits, DependsOn types g names (matchArguments · call signature) fits ∧
      ∀ all ∈ fits, names ⊆ all.flatMap ArgumentMatch.visited := by
  induction call generalizing signature with
  | nil => exact ⟨[], some [], .pure _, by simp⟩
  | cons arg call ih =>
    cases signature with
    | nil => exact ⟨[], some [], .pure _, by simp⟩
    | cons param signature =>
      obtain ⟨harg, hrest⟩ := append_subset.mp hcall
      obtain ⟨hpar, hothers⟩ := forall_mem_cons.mp hsig
      have htype : ∀ type ∈ arg.type, type.scalars ⊆ types := by
        intro type htype
        simpa [Option.mem_def.mp htype] using harg
      obtain ⟨names, fit, hfirst, hvisited⟩ := matchArgument_dependsOn (g := g) hid htype hpar
      obtain ⟨names', fits, hfits, hvisited'⟩ := ih hrest hothers
      cases fit with
      | none => exact ⟨names ++ [], none, hfirst.bind (.pure _), by simp⟩
      | some fit =>
        cases fits with
        | none => exact ⟨names ++ (names' ++ []), none, hfirst.bind (hfits.bind (.pure _)), by simp⟩
        | some fits =>
          refine ⟨names ++ (names' ++ []), some (fit :: fits), hfirst.bind (hfits.bind (.pure _)), ?_⟩
          have hfit := hvisited fit rfl
          have hall := hvisited' fits rfl
          simpa using ⟨subset_append_of_subset_left _ hfit, subset_append_of_subset_right _ hall⟩

theorem matchOverload_dependsOn (hcall : call.scalars ⊆ types) (hop : op.scalars ⊆ types) :
    ∃ names found, DependsOn types g names (matchOverload · call op) found ∧
      ∀ m ∈ found, names ⊆ m.visited := by
  have hsig : ∀ p ∈ op.signature, p.type.scalars ⊆ types :=
    fun p hp type htype => hop (mem_flatMap.mpr ⟨p, hp, htype⟩)
  obtain ⟨names, fits, hfits, hvisited⟩ := matchArguments_dependsOn (g := g) hid hcall hsig
  cases fits with
  | none => exact ⟨names ++ [], none, hfits.bind (.pure _), by simp⟩
  | some fits =>
    refine ⟨names ++ [], some { operator := op, arguments := fits }, hfits.bind (.pure _), ?_⟩
    rw [append_nil]
    rintro _ ⟨⟩
    exact hvisited fits rfl

theorem next_dependsOn (isExact : Bool) (hcall : call.scalars ⊆ types) (hop : op.scalars ⊆ types)
    (first : OverloadChoice) : ∃ names answer, DependsOn types g names
        (OverloadChoice.next · call isExact (some first) op) answer ∧
      ∀ choice ∈ answer, first.visited ++ names ⊆ choice.visited := by
  obtain ⟨names, found, h, hvisited⟩ := matchOverload_dependsOn (g := g) hid hcall hop
  cases found with
  | none => exact ⟨names ++ [], none, h.bind (.pure _), by simp⟩
  | some m =>
    refine ⟨names ++ [], some (first.add isExact m), h.bind (.pure _), fun choice hchoice => ?_⟩
    cases hchoice
    rw [OverloadChoice.visited_add, append_nil]
    exact append_subset.mpr ⟨subset_append_left _ _, subset_append_of_subset_right _ (hvisited m rfl)⟩

end

theorem foldlM_next_none (isExact : Bool) (operators : List Operator) :
    operators.foldlM (OverloadChoice.next g call isExact) none = pure none := by
  induction operators with
  | nil => rfl
  | cons op operators ih => exact ih

theorem foldlM_next_dependsOn (hid : Identified types) (isExact : Bool) (hcall : call.scalars ⊆ types)
    (hops : ∀ op ∈ operators, op.scalars ⊆ types) (first : OverloadChoice) :
    ∃ names answer, DependsOn types g names
        (fun g => operators.foldlM (OverloadChoice.next g call isExact) (some first)) answer ∧
      ∀ choice ∈ answer, first.visited ++ names ⊆ choice.visited := by
  induction operators generalizing first with
  | nil => exact ⟨[], some first, .pure _, by simp⟩
  | cons op operators ih =>
    obtain ⟨hop, hothers⟩ := forall_mem_cons.mp hops
    obtain ⟨names, added, hadded, hvisited⟩ := next_dependsOn (g := g) hid isExact hcall hop first
    cases added with
    | none =>
      refine ⟨names ++ [], none, hadded.bind ?_, by simp⟩
      simp only [foldlM_next_none]
      exact .pure _
    | some second =>
      obtain ⟨names', answer, h, hvisited'⟩ := ih hothers second
      refine ⟨names ++ names', answer, hadded.bind h, fun choice hchoice => ?_⟩
      obtain ⟨hold, hnew⟩ := append_subset.mp (hvisited' choice hchoice)
      rw [← append_assoc]
      exact append_subset.mpr ⟨fun _ hname => hold (hvisited second rfl hname), hnew⟩

theorem chooseOverload_dependsOn (hid : Identified types) (isExact : Bool)
    (hcall : call.scalars ⊆ types) (hops : ∀ op ∈ operators, op.scalars ⊆ types) :
    ∃ names answer, DependsOn types g names (chooseOverload · call isExact operators) answer ∧
      ∀ choice ∈ answer, names ⊆ choice.visited := by
  obtain ⟨names, answer, h, hvisited⟩ := foldlM_next_dependsOn (g := g) hid isExact hcall
    (fun op hop => hops op (mem_of_mem_filter hop)) {}
  exact ⟨names, answer, h, hvisited⟩

end Matches

/-! ### Keys of calls -/

/-- No name of a type begins with the word for a modifier. -/
def PlainlyNamed (types : List ScalarType) : Prop :=
  ∀ type ∈ types, ∀ modifier : Modifier, modifier ≠ .plain →
    Name.startsWith type.name modifier.text = false

/-- The call with no argument marked as optional, which no match depends on. -/
def Call.required (call : Call) : Call :=
  call.map fun argument => { argument with isOptional := false }

theorem matchArguments_required (call : Call) (signature : Signature) :
    matchArguments g call.required signature = matchArguments g call signature := by
  induction call generalizing signature with
  | nil => rfl
  | cons argument call ih =>
    cases signature with
    | nil => rfl
    | cons param signature =>
      have hfirst : matchArgument g { argument with isOptional := false } param =
          matchArgument g argument param := rfl
      rw [Call.required] at ih ⊢
      rw [map_cons, matchArguments, matchArguments, hfirst, ih]

theorem chooseOverload_required (call : Call) (isExact : Bool) (operators : List Operator) :
    chooseOverload g call.required isExact operators = chooseOverload g call isExact operators := by
  have hlen : call.required.length = call.length := length_map _
  simp only [chooseOverload, matchOverload, matchArguments_required, hlen]

theorem Name.startsWith_append (beginning rest : String) : Name.startsWith (beginning ++ rest) beginning := by
  rw [startsWith, String.toList_append, isPrefixOf_iff_prefix]
  exact prefix_append _ _

/-- Where names do not begin with the word for a modifier, a text tells the modifier and the name. -/
theorem Modifier.text_append_inj {modifier modifier' : Modifier}
    (hname : ∀ m : Modifier, m ≠ .plain → Name.startsWith name m.text = false)
    (hname' : ∀ m : Modifier, m ≠ .plain → Name.startsWith name' m.text = false)
    (h : modifier.text ++ name = modifier'.text ++ name') : modifier = modifier' ∧ name = name' := by
  have hbegins : ∀ (m : Modifier) (first rest : String),
      Name.startsWith first m.text = false → first ≠ m.text ++ rest := by
    rintro m first rest hfirst rfl
    simp [Name.startsWith_append] at hfirst
  have hdiffer : ∀ rest rest', Modifier.var.text ++ rest ≠ Modifier.const.text ++ rest' := by
    intro rest rest' heq
    have hchars := congrArg String.toList heq
    simp [Modifier.text] at hchars
  have hempty : ∀ rest, Modifier.plain.text ++ rest = rest := fun _ => String.empty_append
  match modifier, modifier', h with
  | .plain, .plain, h | .var, .var, h | .const, .const, h =>
    exact ⟨rfl, by simpa [← String.toList_inj] using h⟩
  | .plain, .var, h | .plain, .const, h =>
    exact absurd h (hbegins _ _ _ (hname _ (by decide)))
  | .var, .plain, h | .const, .plain, h =>
    exact absurd h.symm (hbegins _ _ _ (hname' _ (by decide)))
  | .var, .const, h => exact absurd h (hdiffer _ _)
  | .const, .var, h => exact absurd h.symm (hdiffer _ _)

theorem Call.isScalar_cons {arg : Argument} {call : Call} (h : isScalar (arg :: call)) :
    (∃ type, arg.type = some (.scalar type)) ∧ call.isScalar := by
  obtain ⟨hfirst, hrest⟩ := Bool.and_eq_true_iff.mp h
  refine ⟨?_, hrest⟩
  dsimp only at hfirst
  split at hfirst
  · exact ⟨_, ‹_›⟩
  · cases hfirst

variable {types : List ScalarType} {call call' : Call} {isExact isExact' : Bool}
  {path path' : ResolutionPath} (hscalar : call.isScalar) (hscalar' : call'.isScalar)
  (hcall : call.scalars ⊆ types) (hcall' : call'.scalars ⊆ types)
  (h : call.key name path isExact = call'.key name' path' isExact')

include hscalar hscalar' hcall hcall' h

/-- The key of a call over scalar types tells what the texts of its arguments do. -/
theorem Call.forall₂_of_key_eq {R : Argument → Argument → Prop}
    (hR : ∀ arg ∈ call, ∀ arg' ∈ call', ∀ type ∈ types, ∀ type' ∈ types,
      arg.type = some (.scalar type) → arg'.type = some (.scalar type') →
        arg.modifier.text ++ type.name = arg'.modifier.text ++ type'.name → R arg arg') :
    List.Forall₂ R call call' := by
  have htexts := congrArg CallKey.arguments h
  rw [key, key] at htexts
  clear h
  induction call generalizing call' with
  | nil =>
    cases call' with
    | nil => exact .nil
    | cons => cases htexts
  | cons arg call ih =>
    cases call' with
    | nil => cases htexts
    | cons arg' call' =>
      obtain ⟨⟨type, htype⟩, hrest⟩ := isScalar_cons hscalar
      obtain ⟨⟨type', htype'⟩, hrest'⟩ := isScalar_cons hscalar'
      obtain ⟨htext, htexts⟩ := cons.inj htexts
      obtain ⟨hfirst, hothers⟩ := append_subset.mp hcall
      obtain ⟨hfirst', hothers'⟩ := append_subset.mp hcall'
      simp only [htype, htype', typeText, Ty.text] at htext
      refine .cons (hR _ mem_cons_self _ mem_cons_self type (hfirst (by simp [htype, Ty.scalars]))
        type' (hfirst' (by simp [htype', Ty.scalars])) htype htype' htext) ?_
      exact ih hrest hrest' hothers hothers' (fun arg harg arg' harg' =>
        hR arg (.tail _ harg) arg' (.tail _ harg')) htexts

/-- The key of a call over scalar types tells the types of its arguments and how they are passed. -/
theorem Call.required_eq_of_key_eq (hid : Identified types) (hplain : PlainlyNamed types) :
    call.required = call'.required := by
  rw [required, required, ← forall₂_eq_eq_eq, forall₂_map_left_iff, forall₂_map_right_iff]
  refine forall₂_of_key_eq hscalar hscalar' hcall hcall' h
    fun arg _ arg' _ type hmem type' hmem' htype htype' htext => ?_
  obtain ⟨hmodifier, hname⟩ := Modifier.text_append_inj (hplain type hmem) (hplain type' hmem') htext
  obtain rfl := hid type hmem type' hmem' (Or.inl hname)
  rw [htype, htype', hmodifier]

end Relational
