import Relational.Proofs.Catalog.Operators

/-!
# Refused changes of the catalog

A change of the catalog is refused when a name is taken or unknown, or when an overload or a conversion
is there already. Most changes look first and then act, so that a refused one leaves nothing behind. Two
of them act first. The operator of a conversion is declared, and announced, before the conversion is found
to be there already. A device gives up a table variable before its name is found to be taken.
-/

namespace Relational

open List

/-- A request to change the catalog, which may be refused. -/
inductive CatalogRequest where
  | addScalarType (type : ScalarType)
  | dropScalarType (name : String)
  | addTableVar (tv : TableVar)
  | dropTableVar (name : String)
  | addOperator (op : Operator)
  | addConversion (conversion : Conversion)
  | reconcile (device name : String)

/-- The change that a request leads to; what the result tells beyond success is left out. -/
def Catalog.perform (c : Catalog) : CatalogRequest → Change Unit
  | .addScalarType type => c.addScalarType type
  | .dropScalarType name => c.dropScalarType name
  | .addTableVar tv => c.addTableVar tv
  | .dropTableVar name => c.dropTableVar name
  | .addOperator op => c.addOperator op
  | .addConversion conversion => c.addConversion conversion
  | .reconcile device name =>
    let { catalog, events, result } := c.reconcile device name
    { catalog, events, result := result.map fun _ => () }

/-! ### Devices under their names -/

/-- The table variables that a device holds stand under their names. -/
def Device.IsKept (d : Device) : Prop :=
  ∀ entry ∈ d.pending, entry.1 = entry.2.name

/-- Devices, and the table variables that they hold, stand under their names. -/
def Catalog.DevicesKept (c : Catalog) : Prop :=
  ∀ name d, c.device? name = some d → d.name = name ∧ d.IsKept

namespace Device

variable {d : Device}

theorem IsKept.store (hd : d.IsKept) (tv : TableVar) : (d.store tv).IsKept := by
  intro entry hentry
  rcases mem_append.mp hentry with hentry | hentry
  · exact hd entry (mem_filter.mp hentry).1
  · rw [mem_singleton.mp hentry]

theorem IsKept.length_forget_lt (hd : d.IsKept) {name : String} {tv : TableVar}
    (h : d.pending? name = some tv) : (d.forget tv).pending.length < d.pending.length := by
  obtain ⟨entry, hfind, rfl⟩ := Option.map_eq_some_iff.mp h
  have hmem : entry ∈ d.pending := mem_of_find?_eq_some hfind
  refine length_filter_lt_length_iff_exists.mpr ⟨entry, hmem, ?_⟩
  simp [hd entry hmem]

end Device

namespace Catalog

variable {c : Catalog}

theorem device?_addDevice (c : Catalog) (d : Device) (name : String) :
    (c.addDevice d).device? name = if name = d.name then some d else c.device? name :=
  lookup_putEntry c.devices d.name d name

theorem DevicesKept.addDevice (hc : c.DevicesKept) {d : Device} (hd : d.IsKept) :
    (c.addDevice d).DevicesKept := by
  intro name found hfound
  rw [device?_addDevice] at hfound
  split at hfound
  · rename_i hname
    cases hfound
    exact ⟨hname.symm, hd⟩
  · exact hc name found hfound

end Catalog

/-! ### What refused requests leave behind -/

/-- The overloads of the operator's name. -/
def Catalog.overloadsOf (c : Catalog) (op : Operator) : Overloads :=
  (c.operators.lookup op.name).getD { name := op.name }

/-- No overload of the name takes the arguments of the operator. -/
def Catalog.Accepts (c : Catalog) (op : Operator) : Prop :=
  ∀ other ∈ (c.overloadsOf op).operators, other.signature.equals op.signature = false

/-- The requests that act before they find out whether they are refused: a conversion whose operator can
be declared, and the reconciliation with a device. -/
def CatalogRequest.ActsFirst (c : Catalog) : CatalogRequest → Prop
  | .addConversion conversion => ∃ op, conversion.operator = some op ∧ c.Accepts op
  | .reconcile _ _ => True
  | _ => False

/-- A change that declares an operator, announces it and does nothing else. -/
structure Change.DeclaresOnly {α : Type} (c : Catalog) (op : Operator) (change : Change α) : Prop where
  objects : change.catalog.objects = c.objects
  conversions : change.catalog.conversions = c.conversions
  devices : change.catalog.devices = c.devices
  operators : ∀ name, change.catalog.operators.lookup name =
    if name = op.name then
      some { c.overloadsOf op with operators := (c.overloadsOf op).operators ++ [op] }
    else c.operators.lookup name
  events : change.events = [.operatorChanged op.name]

/-- A change that takes a table variable from a device, announces nothing and does nothing else. -/
structure Change.TakesOnly {α : Type} (c : Catalog) (device : String) (d : Device) (tv : TableVar)
    (change : Change α) : Prop where
  objects : change.catalog.objects = c.objects
  conversions : change.catalog.conversions = c.conversions
  operators : change.catalog.operators = c.operators
  devices : ∀ name, change.catalog.device? name =
    if name = device then some (d.forget tv) else c.device? name
  fewer : (d.forget tv).pending.length < d.pending.length
  events : change.events = []

namespace Catalog

variable {c : Catalog} {request : CatalogRequest} {cause : Cause} {op : Operator}
  {conv : Conversion} {dev name : String}

theorem declaresOnly_addOperator (h : c.Accepts op) :
    (c.addOperator op).DeclaresOnly c op ∧ (c.addOperator op).result = .ok () := by
  have hadd : (c.overloadsOf op).add op =
      .ok { c.overloadsOf op with operators := (c.overloadsOf op).operators ++ [op] } := by
    have hfind : (c.overloadsOf op).operators.find? (·.signature.equals op.signature) = none := by
      simpa [find?_eq_none, Accepts] using h
    rw [Overloads.add, hfind]
  rw [overloadsOf] at hadd
  rw [addOperator, hadd]
  exact ⟨⟨rfl, rfl, rfl, fun name => lookup_putEntry c.operators op.name _ name, rfl⟩, rfl⟩

theorem addOperator_of_not_accepts (h : ¬ c.Accepts op) :
    (c.addOperator op).catalog = c ∧ (c.addOperator op).events = [] := by
  obtain ⟨existing, hadd⟩ : ∃ existing, (c.overloadsOf op).add op = .error existing := by
    cases hfind : (c.overloadsOf op).operators.find? (·.signature.equals op.signature) with
    | none => exact absurd (by simpa [find?_eq_none, Accepts] using hfind) h
    | some existing => exact ⟨existing, by rw [Overloads.add, hfind]⟩
  rw [overloadsOf] at hadd
  rw [addOperator, hadd]
  exact ⟨rfl, rfl⟩

theorem addConversion_of_refused (h : (c.addConversion conv).result = .error cause) :
    (c.addConversion conv).catalog = (c.addConversionOperator conv).catalog ∧
      (c.addConversion conv).events = (c.addConversionOperator conv).events := by
  rw [addConversion] at h ⊢
  dsimp only at h ⊢
  split at h
  · exact ⟨rfl, rfl⟩
  · cases h

theorem declaresOnly_addConversion (hop : conv.operator = some op) (haccepts : c.Accepts op)
    (h : (c.addConversion conv).result = .error cause) : (c.addConversion conv).DeclaresOnly c op := by
  obtain ⟨hcat, hevents⟩ := addConversion_of_refused h
  obtain ⟨hobjs, hconvs, hdevs, hops, hannounced⟩ :=
    (declaresOnly_addOperator haccepts).1
  rw [addConversionOperator, hop] at hcat hevents
  exact ⟨by rw [hcat, hobjs], by rw [hcat, hconvs], by rw [hcat, hdevs],
    by rw [hcat]; exact hops, by rw [hevents, hannounced]⟩

theorem reconcile_of_refused (h : (c.perform (.reconcile dev name)).result = .error cause) :
    ∃ d tv, c.device? dev = some d ∧ d.pending? name = some tv ∧
      c.reconcile dev name = { catalog := c.addDevice (d.forget tv), result := .error cause } := by
  obtain heq | ⟨d, tv, hd, htv, ⟨_, heq⟩ | ⟨-, heq⟩⟩ := c.reconcile_cases dev name
  all_goals
    rw [perform, heq] at h
    cases h
  exact ⟨d, tv, hd, htv, heq⟩

theorem takesOnly_of_refused (hc : c.DevicesKept)
    (h : (c.perform (.reconcile dev name)).result = .error cause) :
    ∃ d tv, c.device? dev = some d ∧ d.pending? name = some tv ∧
      (c.perform (.reconcile dev name)).TakesOnly c dev d tv := by
  obtain ⟨d, tv, hd, htv, hchange⟩ := reconcile_of_refused h
  obtain ⟨hname, hkept⟩ := hc dev d hd
  refine ⟨d, tv, hd, htv, ?_⟩
  rw [perform, hchange]
  refine ⟨rfl, rfl, rfl, fun other => ?_, hkept.length_forget_lt htv, rfl⟩
  rw [← hname]
  exact c.device?_addDevice (d.forget tv) other

theorem ne_of_takesOnly {α : Type} {change : Change α} {d : Device} {tv : TableVar}
    (hd : c.device? dev = some d) (h : change.TakesOnly c dev d tv) : change.catalog ≠ c := by
  intro heq
  have hdev := h.devices dev
  rw [heq, hd, if_pos rfl] at hdev
  have hfewer := h.fewer
  rw [← Option.some.inj hdev] at hfewer
  exact Nat.lt_irrefl _ hfewer

theorem unchanged_of_refused (h : (c.perform request).result = .error cause)
    (hrequest : ¬ request.ActsFirst c) :
    (c.perform request).catalog = c ∧ (c.perform request).events = [] := by
  cases request with
  | addScalarType | dropScalarType | addTableVar | dropTableVar =>
    simp only [perform, addScalarType, dropScalarType, addTableVar, dropTableVar] at h ⊢
    split at h <;> cases h
    exact ⟨rfl, rfl⟩
  | addOperator op =>
    by_cases hop : c.Accepts op
    · cases h.symm.trans (declaresOnly_addOperator hop).2
    · exact addOperator_of_not_accepts hop
  | addConversion conv =>
    obtain ⟨hcat, hevents⟩ := addConversion_of_refused h
    change (c.addConversion conv).catalog = c ∧ (c.addConversion conv).events = []
    rw [hcat, hevents, addConversionOperator]
    split
    · exact ⟨rfl, rfl⟩
    · rename_i op hop
      exact addOperator_of_not_accepts fun haccepts => hrequest ⟨op, hop, haccepts⟩
  | reconcile dev name => exact absurd trivial hrequest

/-- A refused request leaves the catalog as it was, and announces nothing, exactly if it does not act
first. One that acts first has declared the operator of its conversion, which is announced, or has taken
a table variable from its device, and has done nothing else. -/
theorem unchanged_iff_of_refused (hc : c.DevicesKept)
    (h : (c.perform request).result = .error cause) :
    ((c.perform request).catalog = c ∧ (c.perform request).events = [] ↔ ¬ request.ActsFirst c) ∧
      (request.ActsFirst c →
        (∃ conversion op, request = .addConversion conversion ∧ conversion.operator = some op ∧
          (c.perform request).DeclaresOnly c op) ∨
        ∃ device name d tv, request = .reconcile device name ∧ c.device? device = some d ∧
          d.pending? name = some tv ∧ (c.perform request).TakesOnly c device d tv) := by
  have hleft : request.ActsFirst c →
      (∃ conversion op, request = .addConversion conversion ∧ conversion.operator = some op ∧
        (c.perform request).DeclaresOnly c op) ∨
      ∃ device name d tv, request = .reconcile device name ∧ c.device? device = some d ∧
        d.pending? name = some tv ∧ (c.perform request).TakesOnly c device d tv := by
    intro hfirst
    cases request with
    | addConversion conversion =>
      obtain ⟨op, hop, haccepts⟩ := hfirst
      exact .inl ⟨conversion, op, rfl, hop, declaresOnly_addConversion hop haccepts h⟩
    | reconcile device name =>
      obtain ⟨d, tv, hd, htv, htakes⟩ := takesOnly_of_refused hc h
      exact .inr ⟨device, name, d, tv, rfl, hd, htv, htakes⟩
    | addScalarType | dropScalarType | addTableVar | dropTableVar | addOperator => cases hfirst
  refine ⟨⟨fun ⟨hcatalog, hevents⟩ hfirst => ?_, unchanged_of_refused h⟩, hleft⟩
  rcases hleft hfirst with ⟨_, _, _, _, hdeclares⟩ | ⟨_, _, _, _, _, hd, _, htakes⟩
  · exact List.cons_ne_nil _ _ (hdeclares.events.symm.trans hevents)
  · exact ne_of_takesOnly hd htakes hcatalog

/-- A device with a table variable whose name is taken, and a conversion that is there already. -/
def conflicting : Catalog :=
  let source : ScalarType := { serial := 2, name := "S" }
  let target : ScalarType := { serial := 3, name := "T" }
  let table : TableVar := .base "V" (some []) "" []
  (Catalog.addDevice
    { objects := [("S", .scalarType source), ("T", .scalarType target), ("V", .tableVar table)]
      conversions := [("S", [{ source, target }])] }
    (Device.store { name := "Disk", operators := [] } table))

theorem devicesKept_conflicting : conflicting.DevicesKept :=
  DevicesKept.addDevice (fun _ _ h => by simp [device?] at h) (.store (fun _ h => absurd h not_mem_nil) _)

/-- A table variable whose name is taken is lost in the reconciliation. -/
theorem unchanged_iff_of_refused_reconcile :
    conflicting.DevicesKept ∧
      (conflicting.perform (.reconcile "Disk" "V")).result = .error (.duplicateIdentifier "V" ["V"]) ∧
      ¬ ((conflicting.perform (.reconcile "Disk" "V")).catalog = conflicting ∧
        (conflicting.perform (.reconcile "Disk" "V")).events = []) := by
  have hrefused : (conflicting.perform (.reconcile "Disk" "V")).result =
      .error (.duplicateIdentifier "V" ["V"]) := rfl
  exact ⟨devicesKept_conflicting, hrefused, fun h =>
    (unchanged_iff_of_refused devicesKept_conflicting hrefused).1.mp h trivial⟩

/-- There are refused requests that change the catalog: one declares an operator and announces it, and
one makes a device lose a table variable. -/
theorem exists_refused_of_changed : ∃ (c : Catalog) (conversion : Conversion) (device name : String),
    (∃ cause, (c.perform (.addConversion conversion)).result = .error cause) ∧
      (c.perform (.addConversion conversion)).catalog.operators ≠ c.operators ∧
      (c.perform (.addConversion conversion)).events ≠ [] ∧
      (∃ cause, (c.perform (.reconcile device name)).result = .error cause) ∧
      ((c.perform (.reconcile device name)).catalog.device? device).map (·.pending.length) ≠
        (c.device? device).map (·.pending.length) := by
  let source : ScalarType := { serial := 2, name := "S" }
  let target : ScalarType := { serial := 3, name := "T" }
  let op : Operator :=
    { serial := 0, name := "ToT", signature := .ofTypes [.scalar source],
      returnType := some (.scalar target) }
  refine ⟨conflicting, { source, target, operator := some op }, "Disk", "V",
    ⟨.duplicateIdentifier "S -> T" ["S -> T"], rfl⟩, List.cons_ne_nil _ _, List.cons_ne_nil _ _,
    ⟨.duplicateIdentifier "V" ["V"], rfl⟩, by decide⟩

end Catalog

end Relational
