import Relational.Proofs.Catalog.Refusals
import Relational.Proofs.Optimize.Passes

/-!
# Devices of whole plans

Two passes annotate the nodes of a plan with devices, each node from the annotations of its children. What
comes out describes whole subtrees: the devices of all table variables below a node, the one device if
there is only one, and whether that device supports the operators of all nodes that read from it.
-/

namespace Relational

open List

namespace Plan

variable {p q : Plan} {σ : Type} {P : Plan → Prop}

/-! ### Transformations that succeed -/

/-- A transformation succeeds if its steps succeed, and relates a plan to its result if its steps relate
a node to what they make of it over related children. -/
theorem transform_total {f : Plan → Visit σ Transformed} {R : Plan → Plan → Prop}
    (hP : ∀ p, P p → ∀ child ∈ p.children, P child)
    (hf : ∀ p q s, P p → q.construct = p.construct → q.annotations = p.annotations →
      List.Forall₂ R p.children q.children →
        ∃ t, f q s = (.ok t, s) ∧ (t.isSame → t.plan = q) ∧ R p t.plan) (p : Plan) (hp : P p) (s : σ) :
    ∃ t, p.transform f s = (.ok t, s) ∧ (t.isSame → t.plan = p) ∧ R p t.plan := by
  have hlogic : IsLogic fun β (act : Visit σ β) Q => ∃ val, act s = (.ok val, s) ∧ Q val := by
    refine ⟨fun h => ⟨_, rfl, h⟩, ?_⟩
    rintro β γ act next P Q ⟨val, hrun, hval⟩ hnext
    rw [bind_apply, hrun]
    exact hnext val hval
  refine (isWalk_transform f).holds (K := fun _ => P)
    (R := fun _ p t => (t.isSame → t.plan = p) ∧ R p t.plan) (fun _ _ _ => ()) (fun _ => hlogic)
    (fun hp hkid => ⟨hP _ hp _ (mem_of_getElem? hkid), id⟩)
    (fun {_ p children isSame} hp hkids => ?_) p (i := ()) hp
  have hRs := (hkids.childwise (S := fun _ => R) fun h => orChild_eq h.1 ▸ h.2).forall₂
  obtain ⟨q, hq, hcon, hannots, hqs⟩ : ∃ q,
      q = (if isSame then p else p.replaceChildren children) ∧ q.construct = p.construct ∧
        q.annotations = p.annotations ∧ q.children = children := by
    refine ⟨_, rfl, ?_⟩
    cases isSame with
    | true => exact ⟨rfl, rfl, (hkids.eq_of_same rfl).symm⟩
    | false =>
      exact ⟨p.construct_replaceChildren _, p.annotations_replaceChildren _, p.children_replaceChildren _⟩
  obtain ⟨t, ht, hsame, hR⟩ := hf p q s hp hcon hannots (hqs ▸ hRs)
  refine ⟨t, hq ▸ ht, fun h => ?_, hR⟩
  obtain ⟨hone, htwo⟩ := Bool.and_eq_true_iff.mp h
  rw [hsame htwo, hq, if_pos hone]

/-! ### What a plan reads -/

/-- The constructs of a plan in pre-order, each with the number of its children. -/
def skeleton (p : Plan) : List (Construct × Nat) :=
  p.nodes.map fun node => (node.construct, node.children.length)

/-- A plan reads a table variable on the device. -/
def Reads (p : Plan) (device : String) : Prop :=
  ∃ tv ∈ p.tableVars, tv.device = device

theorem skeleton_eq (p : Plan) :
    p.skeleton = (p.construct, p.children.length) :: p.children.flatMap skeleton := by
  rw [skeleton, nodes_eq, map_cons, map_flatMap]
  rfl

theorem skeleton_congr (hcon : q.construct = p.construct)
    (hkids : List.Forall₂ (fun p q => q.skeleton = p.skeleton) p.children q.children) :
    q.skeleton = p.skeleton := by
  rw [skeleton_eq, skeleton_eq, hcon, hkids.length_eq]
  congr 1
  generalize p.children = ps, q.children = qs at hkids
  induction hkids with
  | nil => rfl
  | cons hfirst _ ih => rw [flatMap_cons, flatMap_cons, hfirst, ih]

variable {dev : String}

theorem reads_iff_mem_skeleton : p.Reads dev ↔
    ∃ tv arity, (Construct.tableVarReference tv, arity) ∈ p.skeleton ∧ tv.device = dev := by
  simp only [Reads, mem_tableVars, skeleton, mem_map, Prod.mk.injEq]
  constructor
  · rintro ⟨tv, ⟨node, hnode, hcon⟩, hdev⟩
    exact ⟨tv, _, ⟨node, hnode, hcon, rfl⟩, hdev⟩
  · rintro ⟨tv, _, ⟨node, hnode, hcon, _⟩, hdev⟩
    exact ⟨tv, ⟨node, hnode, hcon⟩, hdev⟩

theorem reads_congr (h : q.skeleton = p.skeleton) : q.Reads dev ↔ p.Reads dev := by
  rw [reads_iff_mem_skeleton, reads_iff_mem_skeleton, h]

theorem reads_iff : p.Reads dev ↔ (∃ tv, p.construct = .tableVarReference tv ∧ tv.device = dev) ∨
      ∃ child ∈ p.children, child.Reads dev := by
  simp only [reads_iff_mem_skeleton, p.skeleton_eq, mem_cons, mem_flatMap, Prod.mk.injEq]
  constructor
  · rintro ⟨tv, arity, ⟨hcon, _⟩ | ⟨child, hkid, hmem⟩, hdev⟩
    · exact .inl ⟨tv, hcon.symm, hdev⟩
    · exact .inr ⟨child, hkid, tv, arity, hmem, hdev⟩
  · rintro (⟨tv, hcon, hdev⟩ | ⟨child, hkid, tv, arity, hmem, hdev⟩)
    · exact ⟨tv, _, .inl ⟨hcon.symm, rfl⟩, hdev⟩
    · exact ⟨tv, arity, .inr ⟨child, hkid, hmem⟩, hdev⟩

theorem reads_of_mem_nodes {node : Plan} (hnode : node ∈ p.nodes) (h : node.Reads dev) : p.Reads dev := by
  obtain ⟨tv, htv, hdev⟩ := h
  obtain ⟨below, hbelow, hcon⟩ := mem_tableVars.mp htv
  exact ⟨tv, mem_tableVars.mpr ⟨below, mem_nodes_of_mem hbelow hnode, hcon⟩, hdev⟩

/-! ### Devices below a node -/

/-- The devices noted at a node are those of the table variables that it reads, in order. -/
structure IsLocated (p : Plan) : Prop where
  sorted : p.annotations.potentialDevices.Pairwise (· < ·)
  mem_iff : ∀ device, device ∈ p.annotations.potentialDevices ↔ device ≠ "" ∧ p.Reads device

theorem mem_potentialDevices (h : ∀ child ∈ p.children, child.IsLocated) :
    dev ∈ potentialDevices p ↔ dev ≠ "" ∧ p.Reads dev := by
  have hbelow : dev ∈ p.children.flatMap (·.annotations.potentialDevices) ↔
      dev ≠ "" ∧ ∃ child ∈ p.children, child.Reads dev := by
    rw [mem_flatMap]
    constructor
    · rintro ⟨child, hkid, hmem⟩
      obtain ⟨hne, hreads⟩ := ((h child hkid).mem_iff dev).mp hmem
      exact ⟨hne, child, hkid, hreads⟩
    · rintro ⟨hne, child, hkid, hreads⟩
      exact ⟨child, hkid, ((h child hkid).mem_iff dev).mpr ⟨hne, hreads⟩⟩
  rw [potentialDevices, mem_sortedNames, mem_append, hbelow, reads_iff, and_or_left]
  cases p.construct <;> grind

/-- A node is placed on the one device below it, if there is just one. It is supported if the device
supports the operators of all nodes that read from it. -/
structure IsPlaced (catalog : Option Catalog) (p : Plan) : Prop extends p.IsLocated where
  device_of_eq : ∀ {name}, p.annotations.potentialDevices = [name] → p.annotations.device = name
  device_of_ne : (∀ name, p.annotations.potentialDevices ≠ [name]) → p.annotations.device = ""
  isSupported_iff : p.annotations.device ≠ "" →
    ∃ device, catalog.bind (·.device? p.annotations.device) = some device ∧
      (p.annotations.isSupported ↔ ∀ node ∈ p.nodes, node.Reads p.annotations.device →
        ∀ op ∈ node.construct.operator?, device.supports op)

variable {catalog : Option Catalog} {name : String}

/-- Below a node with a single device, a child that reads from it is placed there too. -/
theorem IsPlaced.device_eq_iff {child : Plan} (hp : p.IsLocated) (hkid : child ∈ p.children)
    (hplaced : child.IsPlaced catalog) (hname : p.annotations.potentialDevices = [name]) :
    child.annotations.device = name ↔ child.Reads name := by
  have hne : name ≠ "" := ((hp.mem_iff name).mp (hname ▸ mem_singleton.mpr rfl)).1
  constructor
  · rintro rfl
    by_contra hreads
    refine hne (hplaced.device_of_ne fun other hother => hreads ?_)
    have hdev := hplaced.device_of_eq hother
    rw [hdev]
    exact ((hplaced.mem_iff other).mp (hother ▸ mem_singleton.mpr rfl)).2
  · intro hreads
    refine hplaced.device_of_eq ?_
    have hmem := (hplaced.mem_iff name).mpr ⟨hne, hreads⟩
    have hall : ∀ other ∈ child.annotations.potentialDevices, other = name := by
      intro other hother
      obtain ⟨hother, hread⟩ := (hplaced.mem_iff other).mp hother
      have := (hp.mem_iff other).mpr ⟨hother, reads_iff.mpr (.inr ⟨child, hkid, hread⟩)⟩
      rwa [hname, mem_singleton] at this
    have hsorted := hplaced.sorted
    generalize child.annotations.potentialDevices = names at hmem hall hsorted
    rcases names with _ | ⟨first, _ | ⟨second, rest⟩⟩
    · cases hmem
    · rw [hall first (mem_cons_self ..)]
    · have hlt := (pairwise_cons.mp hsorted).1 second (mem_cons_self ..)
      rw [hall first (by simp), hall second (by simp)] at hlt
      exact absurd hlt (String.lt_irrefl name)

theorem isSupportedBy_iff {dev : Device}
    (hdev : catalog.bind (·.device? dev.name) = some dev) (hp : p.IsLocated)
    (hname : p.annotations.potentialDevices = [dev.name])
    (hkids : ∀ child ∈ p.children, child.IsPlaced catalog) :
    isSupportedBy dev p ↔ ∀ node ∈ p.nodes, node.Reads dev.name →
      ∀ op ∈ node.construct.operator?, dev.supports op := by
  obtain ⟨hne, hreads⟩ := (hp.mem_iff dev.name).mp (hname ▸ mem_singleton.mpr rfl)
  rw [isSupportedBy, Bool.and_eq_true, all_eq_true, forall_mem_nodes]
  refine and_congr ?_ (forall₂_congr fun child hkid => ?_)
  · rw [imp_iff_right hreads, Option.all_eq_true]
    rfl
  · have hplaced := hkids child hkid
    have hiff := hplaced.device_eq_iff hp hkid hname
    by_cases hread : child.Reads dev.name
    · have hequal := hiff.mpr hread
      obtain ⟨found, hfound, hsupported⟩ := hplaced.isSupported_iff (hequal ▸ hne)
      rw [hequal] at hfound hsupported
      obtain rfl : found = dev := Option.some.inj (hfound.symm.trans hdev)
      simpa [hequal] using hsupported
    · have hother : child.annotations.device ≠ dev.name := fun h => hread (hiff.mp h)
      simp only [hother, ne_eq, not_false_eq_true, decide_true, Bool.true_or, true_iff]
      exact fun node hnode h => absurd (reads_of_mem_nodes hnode h) hread

/-! ### The passes -/

theorem IsLocated.congr (h : p.IsLocated) (hskeleton : q.skeleton = p.skeleton)
    (hdevs : q.annotations.potentialDevices = p.annotations.potentialDevices) : q.IsLocated :=
  ⟨hdevs ▸ h.sorted, fun dev => by rw [hdevs, reads_congr hskeleton]; exact h.mem_iff dev⟩

theorem annotations_annotate (p : Plan) (change : Annotations → Annotations) :
    (p.annotate change).annotations = change p.annotations :=
  congrArg change (p.annotations_replaceChildren _)

/-- A step that annotates a node unless the annotations stay as they are. -/
theorem exists_annotated (p : Plan) (change : Annotations → Annotations) {c : Prop} [Decidable c]
    (h : c → change p.annotations = p.annotations) (s : PassState) :
    ∃ t, (if c then return .same p else return .changed (p.annotate change) : Passing Transformed) s =
        (.ok t, s) ∧
      (t.isSame → t.plan = p) ∧ p.Annotated t.plan ∧ t.plan.annotations = change p.annotations := by
  by_cases hc : c
  · rw [if_pos hc]
    exact ⟨.same p, rfl, fun _ => rfl, ⟨rfl, rfl, rfl⟩, (h hc).symm⟩
  · rw [if_neg hc]
    exact ⟨_, rfl, fun h => absurd h Bool.false_ne_true, p.annotated_annotate change,
      p.annotations_annotate change⟩

/-- A plan over the same constructs all nodes of which have a property. -/
def Becomes (P : Plan → Prop) (p q : Plan) : Prop :=
  q.skeleton = p.skeleton ∧ ∀ node ∈ q.nodes, P node

/-- What becomes of a node is a matter of what became of its children. -/
theorem Becomes.of_children {res : Plan} (hcon : q.construct = p.construct)
    (hkids : List.Forall₂ (Becomes P) p.children q.children) (hres : q.Annotated res)
    (h : q.skeleton = p.skeleton → res.skeleton = q.skeleton → (∀ child ∈ q.children, P child) →
      P res) : Becomes P p res := by
  have hskeleton : q.skeleton = p.skeleton := skeleton_congr hcon (hkids.imp fun _ _ h => h.1)
  have hsame : res.skeleton = q.skeleton := by
    rw [res.skeleton_eq, q.skeleton_eq, hres.construct, hres.children]
  have hbelow : ∀ child ∈ q.children, ∀ node ∈ child.nodes, P node :=
    ((forall₂_and_left _ _).mp (hkids.flip.imp fun _ _ h => ⟨h.2, h.1⟩)).1
  refine ⟨hsame.trans hskeleton, forall_mem_nodes.mpr ⟨?_, hres.children ▸ hbelow⟩⟩
  exact h hskeleton hsame fun child hkid => hbelow child hkid child child.self_mem_nodes

/-- The first pass notes the devices below every node. -/
theorem becomes_determinePotentialDevices (hp : ∀ node ∈ p.nodes, node.annotations = {}) (s : PassState) :
    ∃ t, determinePotentialDevices p s = (.ok t, s) ∧
      p.Becomes (fun node => node.IsLocated ∧ node.annotations.device = "") t.plan := by
  refine (p.transform_total (P := fun p => ∀ node ∈ p.nodes, node.annotations = {})
    (fun p hp => (forall_mem_nodes.mp hp).2) ?_ hp s).imp fun t ht => ⟨ht.1, ht.2.2⟩
  intro p q s hp hcon hannots hkids
  obtain ⟨t, ht, hsame, hannotated, hdevs⟩ := q.exists_annotated
    (fun a => { a with potentialDevices := potentialDevices q })
    (c := potentialDevices q = q.annotations.potentialDevices) (fun h => by simp [h]) s
  refine ⟨t, ht, hsame, .of_children hcon hkids hannotated fun _ hskeleton hbelow => ?_⟩
  rw [hannots, hp p p.self_mem_nodes] at hdevs
  refine ⟨⟨by rw [hdevs]; exact pairwise_sortedNames _, fun dev => ?_⟩, by rw [hdevs]⟩
  rw [hdevs, reads_congr hskeleton]
  exact mem_potentialDevices fun child hkid => (hbelow child hkid).1

theorem determineDevice_of_eq {dev : Device} (hdev : catalog.bind (·.device? dev.name) = some dev)
    (hname : p.annotations.potentialDevices = [dev.name]) (s : PassState) :
    ∃ t, determineDevice catalog p s = (.ok t, s) ∧ (t.isSame → t.plan = p) ∧ p.Annotated t.plan ∧
      t.plan.annotations =
        { p.annotations with device := dev.name, isSupported := isSupportedBy dev p } := by
  rw [determineDevice, hname]
  dsimp only
  rw [hdev]
  exact p.exists_annotated
    (fun a => { a with device := dev.name, isSupported := isSupportedBy dev p })
    (fun h => by simp [← h.1, ← h.2]) s

theorem determineDevice_of_ne (h : ∀ name, p.annotations.potentialDevices ≠ [name]) (s : PassState) :
    determineDevice catalog p s = (.ok (.same p), s) := by
  rw [determineDevice]
  rcases hnames : p.annotations.potentialDevices with _ | ⟨first, _ | ⟨second, rest⟩⟩
  · rfl
  · exact absurd hnames (h first)
  · rfl

/-- The second pass places every node. -/
theorem becomes_determineDevices (hkept : ∀ c ∈ catalog, c.DevicesKept)
    (hknown : ∀ name, name ≠ "" → p.Reads name → (catalog.bind (·.device? name)).isSome)
    (hp : ∀ node ∈ p.nodes, node.IsLocated ∧ node.annotations.device = "") (s : PassState) :
    ∃ t, determineDevices catalog p s = (.ok t, s) ∧ p.Becomes (IsPlaced catalog) t.plan := by
  refine (p.transform_total
    (P := fun p => (∀ node ∈ p.nodes, node.IsLocated ∧ node.annotations.device = "") ∧
      ∀ name, name ≠ "" → p.Reads name → (catalog.bind (·.device? name)).isSome)
    (fun p hp child hkid => ⟨(forall_mem_nodes.mp hp.1).2 child hkid, fun name hne hreads =>
      hp.2 name hne (reads_iff.mpr (.inr ⟨child, hkid, hreads⟩))⟩) ?_ ⟨hp, hknown⟩ s).imp
    fun t ht => ⟨ht.1, ht.2.2⟩
  rintro p q s ⟨hp, hknown⟩ hcon hannots hkids
  obtain ⟨hlocated, hempty⟩ := hp p p.self_mem_nodes
  by_cases hsingle : ∃ name, p.annotations.potentialDevices = [name]
  · obtain ⟨name, hname⟩ := hsingle
    obtain ⟨hne, hreads⟩ := (hlocated.mem_iff name).mp (hname ▸ mem_singleton.mpr rfl)
    obtain ⟨dev, hdev⟩ := Option.isSome_iff_exists.mp (hknown name hne hreads)
    obtain ⟨c, hc, hfound⟩ := Option.bind_eq_some_iff.mp hdev
    obtain ⟨rfl, -⟩ := hkept c hc name dev hfound
    obtain ⟨t, ht, hsame, hannotated, hplaced⟩ :=
      determineDevice_of_eq (p := q) hdev (hannots ▸ hname) s
    rw [hannots] at hplaced
    refine ⟨t, ht, hsame, .of_children hcon hkids hannotated fun hq hskeleton hbelow => ?_⟩
    have hres : t.plan.IsLocated := hlocated.congr (hskeleton.trans hq) (by rw [hplaced])
    have hsupported : isSupportedBy dev q = isSupportedBy dev t.plan := by
      rw [isSupportedBy, isSupportedBy, hannotated.construct, hannotated.children]
    refine ⟨hres, fun h => ?_, fun h => absurd (by rw [hplaced]; exact hname) (h dev.name), fun _ => ?_⟩
    · rw [hplaced] at h ⊢
      exact singleton_inj.mp (hname.symm.trans h)
    · have hiff := isSupportedBy_iff hdev hres (by rw [hplaced]; exact hname) (hannotated.children ▸ hbelow)
      rw [hplaced, hsupported]
      exact ⟨dev, hdev, hiff⟩
  · have hnone : ∀ name, p.annotations.potentialDevices ≠ [name] := not_exists.mp hsingle
    refine ⟨_, determineDevice_of_ne (hannots ▸ hnone) s, fun _ => rfl,
      .of_children hcon hkids ⟨rfl, rfl, rfl⟩ fun hq _ _ => ?_⟩
    have hdev : q.annotations.device = "" := hannots ▸ hempty
    exact ⟨hlocated.congr hq (congrArg (·.potentialDevices) hannots), fun h => absurd (hannots ▸ h) (hnone _),
      fun _ => hdev, fun h => absurd hdev h⟩

/-- What is noted at a node is about all that is below it, although every step looks at the children only:
the devices of all table variables that are read, the device if there is a single one, and whether it
supports the operators of all nodes that read from it. -/
theorem exists_isPlaced (hkept : ∀ c ∈ catalog, c.DevicesKept)
    (hnew : ∀ node ∈ p.nodes, node.annotations = {})
    (hknown : ∀ tv ∈ p.tableVars, tv.device ≠ "" → (catalog.bind (·.device? tv.device)).isSome)
    (s : PassState) :
    ∃ located placed, determinePotentialDevices p s = (.ok located, s) ∧
      determineDevices catalog located.plan s = (.ok placed, s) ∧
        placed.plan.skeleton = p.skeleton ∧ ∀ node ∈ placed.plan.nodes, node.IsPlaced catalog := by
  obtain ⟨located, hlocated, hskeleton, hnodes⟩ := becomes_determinePotentialDevices hnew s
  have hdevices : ∀ name, name ≠ "" → located.plan.Reads name → (catalog.bind (·.device? name)).isSome := by
    intro name hne hreads
    obtain ⟨tv, htv, rfl⟩ := (reads_congr hskeleton).mp hreads
    exact hknown tv htv hne
  obtain ⟨placed, hplaced, hsame, hall⟩ := becomes_determineDevices hkept hdevices hnodes s
  exact ⟨located, placed, hlocated, hplaced, hsame.trans hskeleton, hall⟩

/-- A catalog with a device that projects. -/
def projecting : Catalog :=
  Catalog.addDevice {} { name := "Disk", operators := ["iProject"] }

theorem devicesKept_projecting : projecting.DevicesKept :=
  .addDevice (fun _ _ h => by simp [Catalog.device?] at h) fun _ h => absurd h not_mem_nil

/-- A projection on the device is joined, which it does not support, with what is on no device. -/
def joinedProjection : Plan :=
  let operator name : Operator := { serial := 0, name, signature := [], returnType := none }
  let stored : Plan := { construct := .tableVarReference (.base "T" (some []) "Disk" []) }
  let other : Plan := { construct := .tableVarReference (.base "U" (some []) "" []) }
  { construct := .join (operator "iJoin") .inner
    children := [{ construct := .project (operator "iProject") [], children := [stored] }, other] }

theorem exists_isPlaced_joinedProjection :
    projecting.DevicesKept ∧ ∃ located placed, determinePotentialDevices joinedProjection {} = (.ok located, {}) ∧
      determineDevices (some projecting) located.plan {} = (.ok placed, {}) ∧
        placed.plan.skeleton = joinedProjection.skeleton ∧
          ∀ node ∈ placed.plan.nodes, node.IsPlaced (some projecting) := by
  refine ⟨devicesKept_projecting, exists_isPlaced ?_ ?_ ?_ {}⟩
  · rintro _ ⟨⟩
    exact devicesKept_projecting
  · simp [joinedProjection, nodes, nodesAll]
  · simp [joinedProjection, tableVars, nodes, nodesAll, TableVar.base, projecting, Catalog.addDevice,
      Catalog.device?, putEntry]

end Plan

end Relational
