import Mathlib.Data.List.Basic
import Relational.Plan.Walk

/-!
# What the nodes of a plan see

An inspection with a symbol stack opens a scope for every child of a node and closes it afterwards. So
it comes to every node with the symbols that the nodes above it bring into scope on top of those it
started with, and ends with the stack that it started with.
-/

namespace Relational

open List

namespace Stack

/-- Two stacks with the same symbols, windows and number of frames. -/
structure Same (s t : Stack) : Prop where
  symbols : s.symbols = t.symbols
  windows : s.windows = t.windows
  frameCount : s.frameCount = t.frameCount

/-- No window begins above the topmost symbol. -/
def Sound (s : Stack) : Prop :=
  ∀ base ∈ s.windows, base ≤ s.depth

variable {s t : Stack}

theorem Same.refl (s : Stack) : s.Same s :=
  ⟨rfl, rfl, rfl⟩

theorem Same.trans {u : Stack} (h : s.Same t) (h' : t.Same u) : s.Same u :=
  ⟨h.symbols.trans h'.symbols, h.windows.trans h'.windows, h.frameCount.trans h'.frameCount⟩

theorem Same.visible_eq (h : s.Same t) : s.visible = t.visible := by
  rw [visible, visible, depth, depth, base, base, h.symbols, h.windows]

theorem Same.sound (h : s.Same t) (hs : s.Sound) : t.Sound := by
  unfold Sound depth
  rw [← h.symbols, ← h.windows]
  exact hs

theorem Sound.base_le_depth (h : s.Sound) : s.base ≤ s.depth := by
  unfold base
  cases hwins : s.windows with
  | nil => exact Nat.zero_le _
  | cons first rest => exact h first (by simp [hwins])

theorem pushAll_eq (s : Stack) (syms : List Symbol) :
    (s.pushAll syms).symbols = syms.reverse ++ s.symbols ∧ (s.pushAll syms).windows = s.windows ∧
      (s.pushAll syms).frameCount = s.frameCount ∧ (s.pushAll syms).marks = s.marks := by
  unfold pushAll
  induction syms generalizing s with
  | nil => simp
  | cons sym syms ih =>
    obtain ⟨hsyms, hwins, hframes, hmarks⟩ := ih (s.push sym)
    rw [foldl_cons, hsyms, hwins, hframes, hmarks]
    simp [push]

theorem frames_openFrame (h : s.frameCount ≤ s.marks.length) :
    s.openFrame.frames = s.frames ++ [s.depth] ∧ s.openFrame.frameCount ≤ s.openFrame.marks.length := by
  have hlen : (s.marks.take s.frameCount).length = s.frameCount := by
    rw [length_take]
    omega
  constructor
  · unfold frames openFrame
    dsimp only
    rw [take_append, hlen, take_of_length_le (by omega)]
    simp
  · unfold openFrame
    simp only [length_append, hlen, length_cons]
    omega

theorem symbols_release_subset (s : Stack) (guard : Guard) : (s.release guard).1.symbols ⊆ s.symbols := by
  have hdrop : ∀ depth, s.symbols.drop depth ⊆ s.symbols := fun depth => drop_subset _ _
  unfold release
  dsimp only
  repeat' split
  all_goals first | exact .refl _ | exact hdrop _

end Stack

namespace Plan

variable {p : Plan} {s t : Stack} {idx : Nat} {visible : List Symbol}

/-- The symbols that a child sees, innermost first. -/
def childView (p : Plan) (index : Nat) (visible : List Symbol) : List Symbol :=
  (p.childScope index).reverse ++ if p.isWindowed then [] else visible

theorem enterChild_eq (p : Plan) (idx : Nat) (s : Stack) : (p.enterChild idx s).1 = s.guard p.isWindowed ∧
      (p.enterChild idx s).2.symbols = (p.childScope idx).reverse ++ s.symbols ∧
      (p.enterChild idx s).2.windows = (if p.isWindowed then s.depth :: s.windows else s.windows) ∧
      (p.enterChild idx s).2.frameCount = s.frameCount + 1 := by
  unfold enterChild
  cases hwindowed : p.isWindowed
  all_goals
    obtain ⟨hsyms, hwins, hframes, -⟩ := Stack.pushAll_eq _ (p.childScope idx)
    refine ⟨rfl, hsyms, hwins, hframes⟩

/-- A child sees what its parent brings into its scope, and what its parent sees unless it is hidden. -/
theorem visible_enterChild (hs : s.Sound) (p : Plan) (idx : Nat) :
    (p.enterChild idx s).2.visible = p.childView idx s.visible := by
  obtain ⟨-, hsyms, hwins, -⟩ := p.enterChild_eq idx s
  unfold Stack.visible Stack.base childView Stack.depth
  rw [hsyms, hwins]
  cases p.isWindowed
  · have hbase := hs.base_le_depth
    have hlen : ((p.childScope idx).reverse ++ s.symbols).length - s.windows.headD 0 =
        (p.childScope idx).reverse.length + (s.symbols.length - s.windows.headD 0) := by
      unfold Stack.base Stack.depth at hbase
      rw [length_append]
      omega
    simp only [Bool.false_eq_true, if_false]
    rw [hlen, take_length_add_append]
  · simp [Stack.depth]

theorem sound_enterChild (hs : s.Sound) (p : Plan) (idx : Nat) : (p.enterChild idx s).2.Sound := by
  obtain ⟨-, hsyms, hwins, -⟩ := p.enterChild_eq idx s
  unfold Stack.Sound Stack.depth
  rw [hsyms, hwins]
  have hbases : ∀ base ∈ s.windows, base ≤ ((p.childScope idx).reverse ++ s.symbols).length := by
    intro base hbase
    have hle := hs base hbase
    unfold Stack.depth at hle
    rw [length_append]
    omega
  cases p.isWindowed
  · exact hbases
  · intro base hbase
    rcases mem_cons.mp hbase with rfl | hbase
    · unfold Stack.depth
      rw [length_append]
      omega
    · exact hbases base hbase

theorem release_enterChild (h : (p.enterChild idx s).2.Same t) :
    s.Same (t.release (p.enterChild idx s).1).1 := by
  obtain ⟨hguard, hsyms, hwins, hframes⟩ := p.enterChild_eq idx s
  have htsymbols : t.symbols = (p.childScope idx).reverse ++ s.symbols :=
    h.symbols.symm.trans hsyms
  have htwindows := h.windows.symm.trans hwins
  have htframes : t.frameCount = s.frameCount + 1 := h.frameCount.symm.trans hframes
  have hdrop : t.symbols.drop (t.symbols.length - s.symbols.length) = s.symbols := by
    rw [htsymbols, length_append, Nat.add_sub_cancel, drop_left]
  have hdepth : ¬ t.symbols.length < s.symbols.length := by
    rw [htsymbols, length_append]
    omega
  rw [hguard]
  unfold Stack.release Stack.guard
  cases hwindowed : p.isWindowed
  · rw [hwindowed] at htwindows
    simp only [Bool.false_eq_true, if_false, htframes, ne_eq, not_true, Stack.depth, hdepth]
    exact ⟨hdrop.symm, htwindows.symm, rfl⟩
  · rw [hwindowed] at htwindows
    simp only [Bool.false_eq_true, if_false, if_true, htwindows, length_cons, ne_eq, not_true,
      Stack.depth, hdepth]
    exact ⟨hdrop.symm, rfl, rfl⟩

section Nodes

variable {P : Plan → Prop} {node : Plan}

@[elab_as_elim]
theorem childInduction (step : ∀ p : Plan, (∀ child ∈ p.children, P child) → P p) (p : Plan) : P p := by
  induction hn : sizeOf p using Nat.strongRecOn generalizing p with
  | _ n ih =>
    refine step p fun child hkid => ih (sizeOf child) ?_ child rfl
    have hlt := sizeOf_lt_of_mem hkid
    cases p
    simp only [mk.sizeOf_spec] at hn
    simp only at hlt
    omega

theorem nodesAll_eq (ps : List Plan) : nodesAll ps = ps.flatMap nodes := by
  induction ps with
  | nil => rfl
  | cons p ps ih => rw [nodesAll, ih, flatMap_cons]

theorem nodes_eq (p : Plan) : p.nodes = p :: p.children.flatMap nodes := by
  cases p
  rw [nodes, nodesAll_eq]

theorem mem_nodes : node ∈ p.nodes ↔ node = p ∨ ∃ child ∈ p.children, node ∈ child.nodes := by
  rw [nodes_eq, mem_cons, mem_flatMap]

theorem self_mem_nodes (p : Plan) : p ∈ p.nodes :=
  mem_nodes.mpr (.inl rfl)

theorem forall_mem_nodes :
    (∀ node ∈ p.nodes, P node) ↔ P p ∧ ∀ child ∈ p.children, ∀ node ∈ child.nodes, P node := by
  constructor
  · intro h
    exact ⟨h p p.self_mem_nodes,
      fun child hkid node hnode => h node (mem_nodes.mpr (.inr ⟨child, hkid, hnode⟩))⟩
  · rintro ⟨hroot, hkids⟩ node hnode
    obtain rfl | ⟨child, hkid, hmem⟩ := mem_nodes.mp hnode
    · exact hroot
    · exact hkids child hkid node hmem

theorem forall_mem_nodes_of_children (hkid : ∀ q, P q → ∀ child ∈ q.children, P child) (h : P p) :
    ∀ node ∈ p.nodes, P node := by
  induction p using childInduction with
  | step p ih =>
    exact forall_mem_nodes.mpr ⟨h, fun child hmem => ih child hmem (hkid p h child hmem)⟩

theorem mem_nodes_of_mem {below : Plan} (hbelow : below ∈ node.nodes) (hnode : node ∈ p.nodes) :
    below ∈ p.nodes :=
  forall_mem_nodes_of_children (P := fun node => ∀ below ∈ node.nodes, below ∈ p.nodes)
    (fun _ h => (forall_mem_nodes.mp h).2) (fun _ => id) node hnode below hbelow

end Nodes

section Throughout

variable (P : Plan → List Symbol → Prop)

mutual

/-- A property of every node of a plan and of the symbols that it sees. -/
def Throughout : Plan → List Symbol → Prop
  | ⟨construct, type, characteristics, position, annotations, children⟩, visible =>
    let p : Plan := ⟨construct, type, characteristics, position, annotations, children⟩
    P p visible ∧ ThroughoutFrom p visible 0 children

/-- The same of the children of a node from an index on. -/
def ThroughoutFrom (parent : Plan) (visible : List Symbol) : Nat → List Plan → Prop
  | _, [] => True
  | index, child :: rest =>
    Throughout child (parent.childView index visible) ∧ ThroughoutFrom parent visible (index + 1) rest

end

variable {P}

theorem throughoutFrom_iff {parent : Plan} {children : List Plan} :
    ThroughoutFrom P parent visible idx children ↔ ∀ i child, children[i]? = some child →
        Throughout P child (parent.childView (idx + i) visible) := by
  induction children generalizing idx with
  | nil => simp [ThroughoutFrom]
  | cons first rest ih =>
    rw [ThroughoutFrom, ih]
    constructor
    · rintro ⟨hfirst, hrest⟩ i child hi
      cases i with
      | zero =>
        obtain rfl : first = child := by simpa using hi
        exact hfirst
      | succ i =>
        have hkid := hrest i child (by simpa using hi)
        rwa [Nat.add_assoc, Nat.add_comm 1] at hkid
    · intro h
      refine ⟨h 0 first rfl, fun i child hi => ?_⟩
      have hkid := h (i + 1) child (by simpa using hi)
      rwa [Nat.add_assoc, Nat.add_comm 1]

theorem throughout_iff : Throughout P p visible ↔ P p visible ∧ ∀ i child, p.children[i]? = some child →
      Throughout P child (p.childView i visible) := by
  cases p
  rw [Throughout]
  simp only [throughoutFrom_iff, Nat.zero_add]

/-- A property that follows from another at every node holds throughout a plan if the other does. -/
theorem Throughout.imp {Q : Plan → List Symbol → Prop} (h : Throughout P p visible)
    (himp : ∀ node ∈ p.nodes, ∀ visible, P node visible → Q node visible) : Throughout Q p visible := by
  induction p using childInduction generalizing visible with
  | step p ih =>
    obtain ⟨hp, hkids⟩ := throughout_iff.mp h
    obtain ⟨hnode, hnodes⟩ := forall_mem_nodes.mp himp
    refine throughout_iff.mpr ⟨hnode visible hp, fun idx child hidx => ?_⟩
    have hmem := mem_of_getElem? hidx
    exact ih child hmem (hkids idx child hidx) (hnodes child hmem)

theorem throughout_of_forall_mem_nodes (h : ∀ node ∈ p.nodes, ∀ visible, P node visible) :
    Throughout P p visible := by
  induction p using childInduction generalizing visible with
  | step p ih =>
    obtain ⟨hp, hkids⟩ := forall_mem_nodes.mp h
    refine throughout_iff.mpr ⟨hp visible, fun idx child hidx => ?_⟩
    have hmem := mem_of_getElem? hidx
    exact ih child hmem (hkids child hmem)

end Throughout

/-! ### Inspections -/

section Inspect

variable {σ : Type} {f : Plan → Stack → StateM σ Bool} {D : Plan → Stack → σ → σ → Prop}

/-- What an inspection does at the children of a node from an index on, one after another. -/
inductive Chain (D : Plan → Stack → σ → σ → Prop) (parent : Plan) :
    Nat → List Plan → Stack → σ → σ → Prop
  | nil {index s a} : Chain D parent index [] s a a
  | cons {index child rest s t a b c} (hindex : parent.children[index]? = some child)
      (hchild : D child (parent.enterChild index s).2 a b) (hsame : s.Same t)
      (hrest : Chain D parent (index + 1) rest t b c) : Chain D parent index (child :: rest) s a c

/-- An inspection that is never told to stop ends with the stack that it started with. What it does at a
plan is what the node does, followed by what is done at the children. -/
theorem inspectWithStack_of_chain (hf : ∀ p s a, (f p s a).1 = true)
    (hD : ∀ p s a b, s.Sound → Chain D p 0 p.children s (f p s a).2 b → D p s a b) (p : Plan)
    {s : Stack} (hs : s.Sound) (a : σ) :
    ∃ t b, p.inspectWithStack f (s, a) = (true, t, b) ∧ s.Same t ∧ D p s a b := by
  induction p using childInduction generalizing s a with
  | step p ih =>
    have hall : ∀ (children : List Plan) (idx : Nat) {s : Stack} (a : σ), s.Sound →
        p.children.drop idx = children → ∃ t b,
          inspectChildrenWithStack f p idx children (s, a) = (true, t, b) ∧ s.Same t ∧
            Chain D p idx children s a b := by
      intro children
      induction children with
      | nil => exact fun _ s a _ _ => ⟨s, a, rfl, .refl s, .nil⟩
      | cons child rest ihs =>
        intro idx s a hs hdrop
        have hidx : p.children[idx]? = some child := by rw [← head?_drop, hdrop]; rfl
        obtain ⟨inner, b, hfirst, hinner, hkid⟩ :=
          ih child (mem_of_getElem? hidx) (sound_enterChild hs p idx) a
        have hleft := release_enterChild hinner
        obtain ⟨t, c, hall, hsame, hchain⟩ := ihs (idx + 1) b (hleft.sound hs)
          (by rw [← tail_drop, hdrop]; rfl)
        refine ⟨t, c, ?_, hleft.trans hsame, .cons hidx hkid hleft hchain⟩
        rw [inspectChildrenWithStack]
        simp only [bind, StateT.bind, inChild, hfirst]
        exact hall
    obtain ⟨t, b, hkids, hsame, hchain⟩ := hall p.children 0 (f p s a).2 hs rfl
    refine ⟨t, b, ?_, hsame, hD p s a b hs hchain⟩
    have hstep : f p s a = (true, (f p s a).2) := Prod.ext (hf p s a) rfl
    cases p
    rw [inspectWithStack]
    simp only
    rw [hstep]
    exact hkids

/-- What every step keeps at plans and stacks of some kind, an inspection of such a plan keeps. -/
theorem inspectWithStack_keeps {K : Plan → Stack → Prop} {J : σ → Prop} (hf : ∀ p s a, (f p s a).1 = true)
    (hJ : ∀ {p s a}, K p s → J a → J (f p s a).2)
    (hK : ∀ {p s t idx child}, K p s → s.Sound → s.Same t → p.children[idx]? = some child →
      K child (p.enterChild idx t).2)
    (hs : s.Sound) (hp : K p s) {a : σ} (ha : J a) : J (p.inspectWithStack f (s, a)).2.2 := by
  have hchain : ∀ (p : Plan) {s t : Stack} {idx : Nat} {children : List Plan} {a b : σ}, K p s → s.Sound →
      s.Same t → Chain (fun p s a b => K p s → J a → J b) p idx children t a b → J a → J b := by
    intro p s t idx children a b hp hs hsame hchain ha
    induction hchain with
    | nil => exact ha
    | cons hidx hkid hsame' _ ih => exact ih (hsame.trans hsame') (hkid (hK hp hs hsame hidx) ha)
  obtain ⟨t, b, hrun, -, hkeeps⟩ := inspectWithStack_of_chain hf
    (fun p s a b hs h hp ha => hchain p hp hs (.refl s) h (hJ hp ha)) p hs a
  rw [hrun]
  exact hkeeps hp ha

end Inspect

/-- Notes a node and the stack that it sees. -/
def note (p : Plan) (s : Stack) : StateM (List (Plan × Stack)) Bool := fun visits =>
  (true, visits ++ [(p, s)])

/-- The nodes that an inspection with a stack comes to, each with the stack that it sees. -/
def visits (p : Plan) (s : Stack) : List (Plan × Stack) :=
  (p.inspectWithStack note (s, [])).2.2

theorem forall_mem_visits {P : Plan → List Symbol → Prop} (hs : s.Sound) (h : Throughout P p s.visible) :
    ∀ visit ∈ p.visits s, P visit.1 visit.2.visible := by
  refine inspectWithStack_keeps (f := note) (K := fun p s => Throughout P p s.visible)
    (J := fun noted => ∀ visit ∈ noted, P visit.1 visit.2.visible) (fun _ _ _ => rfl) ?_ ?_ hs h (by simp)
  · intro p s noted hp hnoted
    exact forall_mem_append.mpr ⟨hnoted, forall_mem_singleton.mpr (throughout_iff.mp hp).1⟩
  · intro p s t idx child hp hs hsame hidx
    rw [visible_enterChild (hsame.sound hs), ← hsame.visible_eq]
    exact (throughout_iff.mp hp).2 idx child hidx

/-- A reference that leads to what it names: a symbol of its name and type above the innermost window, a
column of a row symbol with its name and type, or the variable that is assigned to. Other nodes refer to
nothing. -/
def RefersTo (p : Plan) (s : Stack) : Prop :=
  match p.construct with
  | .stackReference name index => ∃ symbol, s.peek index = some symbol ∧
      index < s.visible.length ∧ symbol.name = name ∧ symbol.type = p.type
  | .stackColumnReference name index column => ∃ symbol columns type,
      s.peek index = some symbol ∧ symbol.type = some (.rows .row columns) ∧
        columns[column]? = some (name, type) ∧ p.type = some type
  | .assignment target => ∃ symbol, s.peek target.index = some symbol ∧ symbol.name = target.name
  | _ => True

/-- A reference that leads to what it names among the symbols that it sees, where the type of the column of a
row is related to that of the reference. -/
def RefersBy (R : Ty → Ty → Prop) (p : Plan) (visible : List Symbol) : Prop :=
  match p.construct with
  | .stackReference name index => ∃ symbol, visible[index]? = some symbol ∧
      symbol.name = name ∧ symbol.type = p.type
  | .stackColumnReference name index column => ∃ symbol columns type type',
      visible[index]? = some symbol ∧ symbol.type = some (.rows .row columns) ∧
        columns[column]? = some (name, type) ∧ p.type = some type' ∧ R type type'
  | .assignment target => ∃ symbol, visible[target.index]? = some symbol ∧
      symbol.name = target.name
  | _ => True

theorem peek_of_visible {sym : Symbol} (h : s.visible[idx]? = some sym) :
    s.peek idx = some sym ∧ idx < s.visible.length := by
  obtain ⟨hlt, -⟩ := List.getElem?_eq_some_iff.mp h
  refine ⟨?_, hlt⟩
  rw [Stack.visible, getElem?_take] at h
  split at h
  · exact h
  · simp at h

theorem RefersBy.refersTo (h : p.RefersBy Eq s.visible) : p.RefersTo s := by
  unfold RefersBy at h
  unfold RefersTo
  split
  · rename_i hcon
    rw [hcon] at h
    obtain ⟨sym, hsym, hname, htype⟩ := h
    obtain ⟨hpeek, hlt⟩ := peek_of_visible hsym
    exact ⟨sym, hpeek, hlt, hname, htype⟩
  · rename_i hcon
    rw [hcon] at h
    obtain ⟨sym, cols, type, _, hsym, hrow, hcol, htype, rfl⟩ := h
    exact ⟨sym, cols, type, (peek_of_visible hsym).1, hrow, hcol, htype⟩
  · rename_i hcon
    rw [hcon] at h
    obtain ⟨sym, hsym, hname⟩ := h
    exact ⟨sym, (peek_of_visible hsym).1, hname⟩
  · trivial

end Plan

end Relational
