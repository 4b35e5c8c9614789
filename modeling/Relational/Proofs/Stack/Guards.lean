import Mathlib.Data.List.Infix
import Relational.Proofs.Plan.Scope

/-!
# Guards of the symbol stack

Frames and windows are closed through guards, which may be released in any order, late or twice. A guard
knows how many symbols, frames and windows there were when it was taken, and it is admitted if the numbers
fit; it does not know its scope. Releasing a window closes the frames that are still open inside, whose
guards then come late: when as many frames are open again, such a guard closes a frame that is not its own,
back to a depth that may be below the frames and windows around it.

As long as no guard comes late, the open scopes are nested as they were opened. The marks of frames then
never decrease from outer to inner frames and stay within the symbols, as do the windows, and a call that
is refused changes nothing. Of the guards that come late, exactly those that undercut what stays open break
this.
-/

namespace Relational

open List

/-- Frames and windows stay within the symbols, and inner frames do not begin below outer ones. -/
structure Stack.Ordered (s : Stack) : Prop where
  nested : s.frames.Pairwise (· ≤ ·)
  frames_le : ∀ mark ∈ s.frames, mark ≤ s.depth
  windows_le : ∀ base ∈ s.windows, base ≤ s.depth

/-- As many frames or windows are open as when the guard was taken, and one more. -/
def Stack.admits (s : Stack) (g : Guard) : Bool :=
  if g.isWindow then s.windows.length == g.windows + 1 else s.frameCount == g.frames + 1

/-- The calls that change a stack. A guard is named by its place among those that were taken. -/
inductive StackCall where
  | push (symbol : Symbol)
  | pop
  | pushFrame
  | pushWindow (extra : Int)
  | release (place : Nat)

/-- A stack in use, with the guards that were taken, in their order, and the places of those whose scopes
are open, innermost first. -/
structure StackUse where
  stack : Stack := {}
  guards : List Guard := []
  scopes : List Nat := []

namespace StackUse

/-- A scope was opened, with a guard and on a stack. -/
def enter (u : StackUse) (opened : Guard × Stack) : StackUse :=
  { stack := opened.2, guards := u.guards ++ [opened.1], scopes := u.guards.length :: u.scopes }

/-- What a call does, and the cause if it is refused. -/
def perform (u : StackUse) : StackCall → Option Cause × StackUse
  | .push symbol => (none, { u with stack := u.stack.push symbol })
  | .pop =>
    match u.stack.pop with
    | .ok (_, s) => (none, { u with stack := s })
    | .error cause => (some cause, u)
  | .pushFrame => (none, u.enter u.stack.pushFrame)
  | .pushWindow extra =>
    match u.stack.pushWindow extra with
    | .ok opened => (none, u.enter opened)
    | .error cause => (some cause, u)
  | .release place =>
    match u.guards[place]? with
    | some g =>
      let (s, g', cause) := u.stack.release g
      (cause, { stack := s, guards := u.guards.set place g',
                scopes := u.scopes.drop (u.scopes.length - s.frameCount) })
    | none => (none, u)

/-- The stack after a sequence of calls. -/
def run : StackUse → List StackCall → StackUse
  | u, [] => u
  | u, call :: calls => (u.perform call).2.run calls

/-- A guard comes late if it is admitted after its scope was closed. -/
def isLate (u : StackUse) : StackCall → Bool
  | .release place => u.guards[place]?.any fun g =>
      !g.isReleased && u.stack.admits g && !u.scopes.contains place
  | _ => false

/-- No guard comes late. -/
def isTimely : StackUse → List StackCall → Bool
  | _, [] => true
  | u, call :: calls => !u.isLate call && (u.perform call).2.isTimely calls

/-- A guard undercuts if it comes late and cuts the symbols back below a frame or window that stays
open. -/
def undercuts (u : StackUse) : StackCall → Bool
  | .release place => u.isLate (.release place) && u.guards[place]?.any fun g =>
      decide (g.depth ≤ u.stack.depth) &&
        ((u.stack.frames.take g.frames).any (g.depth < ·) || u.stack.windows.any (g.depth < ·))
  | _ => false

end StackUse

/-! ### Scopes that are open -/

/-- Open scopes by the places of their guards, innermost first, with the marks of their frames, outermost
first, and the bases of the windows among them, innermost first. Each scope was opened above what was open
then. -/
inductive Nest (guards : List Guard) : List Nat → List Nat → List Nat → Prop
  | nil : Nest guards [] [] []
  | scope {scopes marks windows added : List Nat} {place : Nat} {g : Guard}
      (h : Nest guards scopes marks windows) (hg : guards[place]? = some g)
      (hframes : g.frames = marks.length) (hmarks : ∀ mark ∈ marks, mark ≤ g.depth)
      (hwindows : g.windows = windows.length) (hadded : added.length = g.isWindow.toNat)
      (hbase : ∀ base ∈ added, base ≤ g.depth) :
      Nest guards (place :: scopes) (marks ++ [g.depth]) (added ++ windows)

variable {place : Nat} {g g' : Guard} {s : Stack} {sym : Symbol}

namespace Nest

variable {guards guards' : List Guard} {scopes marks windows : List Nat}

section

variable (h : Nest guards scopes marks windows)

include h

theorem length_eq : scopes.length = marks.length := by
  induction h with
  | nil => rfl
  | scope _ _ _ _ _ _ _ ih => simp [ih]

theorem pairwise : marks.Pairwise (· ≤ ·) := by
  induction h with
  | nil => exact .nil
  | scope _ _ _ hmarks _ _ _ ih => simpa [pairwise_append, ih] using hmarks

theorem exists_mark_of_window : ∀ base ∈ windows, ∃ mark ∈ marks, base ≤ mark := by
  induction h with
  | nil => simp
  | @scope _ _ _ _ _ g _ _ _ _ _ _ hbase ih =>
    refine forall_mem_append.mpr ⟨fun base hmem => ⟨g.depth, by simp, hbase base hmem⟩,
      fun base hmem => ?_⟩
    obtain ⟨mark, hmark, hle⟩ := ih base hmem
    exact ⟨mark, mem_append_left _ hmark, hle⟩

theorem congr_guards
    (hguards : ∀ (place : Nat) (g : Guard), guards[place]? = some g →
      ∃ isReleased, guards'[place]? = some { g with isReleased }) :
    Nest guards' scopes marks windows := by
  induction h with
  | nil => exact .nil
  | @scope _ _ _ _ place g _ hg hframes hmarks hwins hadded hbase ih =>
    obtain ⟨isReleased, hg'⟩ := hguards place g hg
    exact .scope (g := { g with isReleased }) ih hg' hframes hmarks hwins hadded hbase

theorem set (hg : guards[place]? = some g) (isReleased : Bool) :
    Nest (guards.set place { g with isReleased }) scopes marks windows := by
  refine h.congr_guards fun other g' hg' => ?_
  rw [getElem?_set]
  split
  · rename_i heq
    subst heq
    obtain rfl := Option.some.inj (hg.symm.trans hg')
    exact ⟨isReleased, if_pos (List.getElem?_eq_some_iff.mp hg).1⟩
  · exact ⟨g'.isReleased, hg'⟩

end

/-- What stays open around the scope of a guard. -/
structure Around (guards : List Guard) (scopes marks windows : List Nat) (place : Nat) (g : Guard)
    (outer : List Nat) : Prop where
  nest : Nest guards (scopes.drop (scopes.length - g.frames)) (marks.take g.frames) outer
  marks_le : ∀ mark ∈ marks.take g.frames, mark ≤ g.depth
  mem : g.depth ∈ marks
  lt : g.frames < marks.length
  suffix : outer <:+ windows
  windows_eq : g.windows = outer.length
  length_le : outer.length + g.isWindow.toNat ≤ windows.length
  innermost : marks.length = g.frames + 1 → outer.length + g.isWindow.toNat = windows.length
  closed : outer.length + g.isWindow.toNat = windows.length → ∀ other ∈ scopes,
    other ∉ scopes.drop (scopes.length - g.frames) → other ≠ place →
      ∀ g', guards[other]? = some g' → g'.isWindow = false

theorem exists_around (h : Nest guards scopes marks windows) (hplace : place ∈ scopes)
    (hg : guards[place]? = some g) : ∃ outer, Around guards scopes marks windows place g outer := by
  induction h with
  | nil => cases hplace
  | @scope scopes marks windows added first g₁ h hg₁ hframes hmarks hwins hadded hbase ih =>
    have hlen := h.length_eq
    by_cases heq : first = place
    · subst heq
      obtain rfl : g₁ = g := Option.some.inj (hg₁.symm.trans hg)
      have hdrop : (first :: scopes).drop ((first :: scopes).length - g₁.frames) = scopes := by
        simp [hframes, hlen]
      have htake : (marks ++ [g₁.depth]).take g₁.frames = marks := by simp [hframes]
      have hall : windows.length + g₁.isWindow.toNat = (added ++ windows).length := by
        rw [length_append, hadded, Nat.add_comm]
      refine ⟨windows, ?_, ?_, by simp, by simp [hframes], suffix_append _ _, hwins, hall.le,
        fun _ => hall, fun _ other hother hclosed hne => ?_⟩
      · rwa [hdrop, htake]
      · rwa [htake]
      · rw [hdrop] at hclosed
        exact absurd ((mem_cons.mp hother).resolve_left hne) hclosed
    · obtain ⟨outer, haround⟩ := ih ((mem_cons.mp hplace).resolve_left (Ne.symm heq))
      have hlt := haround.lt
      have hle := haround.length_le
      have hdrop : (first :: scopes).drop ((first :: scopes).length - g.frames) =
          scopes.drop (scopes.length - g.frames) := by
        rw [length_cons, Nat.succ_sub (by omega), drop_succ_cons]
      have htake : (marks ++ [g₁.depth]).take g.frames = marks.take g.frames :=
        take_append_of_le_length (by omega)
      refine ⟨outer, ?_, ?_, mem_append_left _ haround.mem, by simp; omega,
        haround.suffix.trans (suffix_append _ _), haround.windows_eq, by simp; omega,
        fun hinner => by simp at hinner; omega, fun hall other hother hclosed hne g' hg' => ?_⟩
      · rw [hdrop, htake]
        exact haround.nest
      · rw [htake]
        exact haround.marks_le
      · rw [length_append] at hall
        rw [hdrop] at hclosed
        rcases mem_cons.mp hother with rfl | hother
        · -- a window inside would be one more
          obtain rfl := Option.some.inj (hg₁.symm.trans hg')
          cases hkind : g₁.isWindow with
          | false => rfl
          | true =>
            rw [hadded, hkind, Bool.toNat_true] at hall
            omega
        · exact haround.closed (by omega) other hother hclosed hne g' hg'

end Nest

/-! ### Releasing guards -/

namespace Stack

theorem frameCount_le_of_length_eq (h : s.frames.length = s.frameCount) : s.frameCount ≤ s.marks.length := by
  rw [frames, length_take] at h
  omega

/-- What is popped is above the innermost frame or window. -/
theorem exists_of_pop {t : Stack} (h : s.pop = .ok (sym, t)) :
    ∃ rest, s.symbols = sym :: rest ∧ t = { s with symbols := rest } ∧ s.floor ≤ rest.length := by
  unfold pop at h
  cases hsyms : s.symbols with
  | nil =>
    rw [hsyms] at h
    cases h
  | cons top rest =>
    rw [hsyms] at h
    split_ifs at h with hfloor
    obtain ⟨rfl, rfl⟩ := Prod.mk.inj (Except.ok.inj h)
    have hdepth : s.depth = rest.length + 1 := by rw [depth, hsyms, length_cons]
    exact ⟨rest, rfl, rfl, by omega⟩

theorem release_of_isReleased (h : g.isReleased = true) : s.release g = (s, g, none) := by
  simp [release, h]

theorem release_of_not_admits (h : g.isReleased = false) (hadmits : s.admits g = false) :
    ∃ cause, s.release g = (s, { g with isReleased := true }, some cause) := by
  unfold admits at hadmits
  cases hkind : g.isWindow with
  | false =>
    rw [hkind] at hadmits
    have hne : s.frameCount ≠ g.frames + 1 := by simpa using hadmits
    exact ⟨_, by simp [release, h, hkind, hne]; rfl⟩
  | true =>
    rw [hkind] at hadmits
    have hne : s.windows.length ≠ g.windows + 1 := by simpa using hadmits
    exact ⟨_, by simp [release, h, hkind, hne]; rfl⟩

theorem release_of_admits (h : g.isReleased = false) (hadmits : s.admits g = true)
    (hdepth : g.depth ≤ s.depth) : s.release g =
      (truncate { s with windows := s.windows.drop g.isWindow.toNat } g.depth g.frames,
        { g with isReleased := true }, none) := by
  unfold admits at hadmits
  cases hkind : g.isWindow with
  | false =>
    rw [hkind] at hadmits
    have hcount : s.frameCount = g.frames + 1 := by simpa using hadmits
    simp [release, h, hkind, hcount, Nat.not_lt.mpr hdepth]
    rfl
  | true =>
    rw [hkind] at hadmits
    have hcount : s.windows.length = g.windows + 1 := by simpa using hadmits
    have hdepth' : g.depth ≤ depth { s with windows := s.windows.tail } := hdepth
    simp [release, h, hkind, hcount, Nat.not_lt.mpr hdepth']

theorem release_of_depth_lt (h : g.isReleased = false) (hkind : g.isWindow = false)
    (hdepth : s.depth < g.depth) :
    ∃ cause, s.release g = (s, { g with isReleased := true }, some cause) := by
  by_cases hcount : s.frameCount = g.frames + 1
  · exact ⟨_, by simp [release, h, hkind, hcount, hdepth]; rfl⟩
  · exact ⟨_, by simp [release, h, hkind, hcount]; rfl⟩

theorem frames_truncate (s : Stack) (depth : Nat) {frames : Nat} (h : frames ≤ s.frameCount) :
    (s.truncate depth frames).frames = s.frames.take frames := by
  rw [Stack.frames, Stack.frames, take_take, Nat.min_eq_left h]
  rfl

theorem depth_truncate {depth : Nat} (frames : Nat) (h : depth ≤ s.depth) :
    (s.truncate depth frames).depth = depth := by
  rw [Stack.depth, truncate, length_drop]
  exact Nat.sub_sub_self h

end Stack

/-! ### Stacks in use -/

namespace StackUse

/-- A stack in use on which the open scopes are nested. A guard that was not released and whose scope is
not open is that of a frame. -/
structure Tidy (u : StackUse) : Prop where
  nest : Nest u.guards u.scopes u.stack.frames u.stack.windows
  count : u.stack.frames.length = u.stack.frameCount
  marks_le : ∀ mark ∈ u.stack.frames, mark ≤ u.stack.depth
  closed : ∀ (place : Nat) (g : Guard), u.guards[place]? = some g → g.isReleased = false →
    place ∉ u.scopes → g.isWindow = false

namespace Tidy

variable {u : StackUse}

section

variable (h : u.Tidy)

include h

theorem windows_le : ∀ base ∈ u.stack.windows, base ≤ u.stack.depth := by
  intro base hbase
  obtain ⟨mark, hmark, hle⟩ := h.nest.exists_mark_of_window base hbase
  exact hle.trans (h.marks_le mark hmark)

theorem ordered : u.stack.Ordered :=
  ⟨h.nest.pairwise, h.marks_le, h.windows_le⟩

theorem push (sym : Symbol) : Tidy { u with stack := u.stack.push sym } :=
  ⟨h.nest, h.count, fun mark hmark => (h.marks_le mark hmark).trans (Nat.le_succ _), h.closed⟩

theorem marks_le_floor : ∀ mark ∈ u.stack.frames, mark ≤ u.stack.floor := by
  intro mark hmark
  refine Nat.le_trans ?_ (Nat.le_max_right _ _)
  obtain ⟨marks, last, heq⟩ := (eq_nil_or_concat u.stack.frames).resolve_left (ne_nil_of_mem hmark)
  have hnested := h.nest.pairwise
  rw [heq, concat_eq_append] at hmark hnested ⊢
  rw [getLast?_concat, Option.getD_some]
  rcases mem_append.mp hmark with hmark | hmark
  · exact (pairwise_append.mp hnested).2.2 mark hmark last (mem_singleton_self last)
  · exact (mem_singleton.mp hmark).le

theorem pop (hpop : u.stack.pop = .ok (sym, s)) : Tidy { u with stack := s } := by
  obtain ⟨rest, -, rfl, hfloor⟩ := Stack.exists_of_pop hpop
  exact ⟨h.nest, h.count, fun mark hmark => (h.marks_le_floor mark hmark).trans hfloor, h.closed⟩

theorem enter {isWindow : Bool} (added : List Nat) (hframes : s.frames = u.stack.frames ++ [u.stack.depth])
    (hcount : s.frameCount = u.stack.frameCount + 1) (hdepth : s.depth = u.stack.depth)
    (hwins : s.windows = added ++ u.stack.windows) (hadded : added.length = isWindow.toNat)
    (hbase : ∀ base ∈ added, base ≤ u.stack.depth) : (u.enter (u.stack.guard isWindow, s)).Tidy := by
  have hnest : Nest (u.guards ++ [u.stack.guard isWindow]) u.scopes u.stack.frames u.stack.windows :=
    h.nest.congr_guards fun place g hg =>
      ⟨g.isReleased, List.getElem?_append_left (List.getElem?_eq_some_iff.mp hg).1 ▸ hg⟩
  refine ⟨?_, ?_, ?_, fun place g hg hreleased hplace => ?_⟩
  · change Nest _ (u.guards.length :: u.scopes) s.frames s.windows
    rw [hframes, hwins]
    exact .scope hnest (getElem?_concat_length ..) h.count.symm h.marks_le rfl hadded hbase
  · change s.frames.length = s.frameCount
    rw [hframes, hcount, length_append, h.count, length_singleton]
  · change ∀ mark ∈ s.frames, mark ≤ s.depth
    rw [hframes, hdepth]
    exact forall_mem_append.mpr ⟨h.marks_le, by simp⟩
  · obtain ⟨hne, hclosed⟩ := not_or.mp (mem_cons.not.mp hplace)
    refine h.closed place g ?_ hreleased hclosed
    have hlt : place < u.guards.length := by
      have hlt := (List.getElem?_eq_some_iff.mp hg).1
      rw [StackUse.enter, length_append, length_singleton] at hlt
      omega
    rw [← hg]
    exact (getElem?_append_left hlt).symm

theorem pushFrame : (u.enter u.stack.pushFrame).Tidy :=
  h.enter [] (Stack.frames_openFrame (Stack.frameCount_le_of_length_eq h.count)).1 rfl rfl rfl rfl (by simp)

theorem pushWindow {extra : Int} {opened : Guard × Stack}
    (hopened : u.stack.pushWindow extra = .ok opened) : (u.enter opened).Tidy := by
  unfold Stack.pushWindow at hopened
  split_ifs at hopened
  cases hopened
  exact h.enter [u.stack.depth - extra.toNat]
    (Stack.frames_openFrame (Stack.frameCount_le_of_length_eq h.count)).1 rfl rfl rfl
    rfl (by simp)

end

theorem getElem?_set_of_not_released {guards : List Guard} {other : Nat}
    (h : (guards.set place { g with isReleased := true })[other]? = some g')
    (hreleased : g'.isReleased = false) : other ≠ place ∧ guards[other]? = some g' := by
  rw [getElem?_set] at h
  split at h
  · split at h
    · cases h
      cases hreleased
    · cases h
  · rename_i hne
    exact ⟨.symm hne, h⟩

theorem refused (h : u.Tidy) (hg : u.guards[place]? = some g) :
    Tidy { stack := u.stack, guards := u.guards.set place { g with isReleased := true },
           scopes := u.scopes.drop (u.scopes.length - u.stack.frameCount) } := by
  have hscopes : u.scopes.drop (u.scopes.length - u.stack.frameCount) = u.scopes := by
    rw [h.nest.length_eq, h.count, Nat.sub_self, drop_zero]
  rw [hscopes]
  refine ⟨h.nest.set hg true, h.count, h.marks_le, fun other g' hg' hopen hother => ?_⟩
  exact h.closed other g' (getElem?_set_of_not_released hg' hopen).2 hopen hother

theorem closes (h : u.Tidy) (hg : u.guards[place]? = some g) (hadmits : u.stack.admits g = true)
    (hplace : place ∈ u.scopes) : g.depth ≤ u.stack.depth ∧
      let s := Stack.truncate { u.stack with windows := u.stack.windows.drop g.isWindow.toNat }
        g.depth g.frames
      Tidy { stack := s, guards := u.guards.set place { g with isReleased := true },
             scopes := u.scopes.drop (u.scopes.length - s.frameCount) } := by
  obtain ⟨outer, haround⟩ := h.nest.exists_around hplace hg
  have hlt := haround.lt
  have hdepth := h.marks_le g.depth haround.mem
  have hall : outer.length + g.isWindow.toNat = u.stack.windows.length := by
    unfold Stack.admits at hadmits
    cases hkind : g.isWindow with
    | false =>
      rw [hkind] at hadmits
      have hinner := haround.innermost (h.count.trans (by simpa using hadmits))
      rwa [hkind] at hinner
    | true =>
      rw [hkind] at hadmits
      have hcount : u.stack.windows.length = g.windows + 1 := by simpa using hadmits
      rw [hcount, haround.windows_eq, Bool.toNat_true]
  have hwins : u.stack.windows.drop g.isWindow.toNat = outer := by
    obtain ⟨inner, heq⟩ := haround.suffix
    rw [← heq, length_append] at hall
    rw [← heq, drop_append_of_le_length (by omega), drop_of_length_le (by omega), nil_append]
  have hframes : (Stack.truncate { u.stack with windows := u.stack.windows.drop g.isWindow.toNat }
      g.depth g.frames).frames = u.stack.frames.take g.frames :=
    Stack.frames_truncate _ _ (by rw [h.count] at hlt; exact hlt.le)
  have hcut := Stack.depth_truncate
    (s := { u.stack with windows := u.stack.windows.drop g.isWindow.toNat }) g.frames hdepth
  refine ⟨hdepth, ?_, ?_, ?_, fun other g' hg' hopen hother => ?_⟩
  · dsimp only
    rw [hframes]
    rw [hwins]
    exact haround.nest.set hg true
  · dsimp only
    rw [hframes, length_take]
    exact Nat.min_eq_left hlt.le
  · dsimp only
    rw [hframes, hcut]
    exact haround.marks_le
  · obtain ⟨hne, hg'⟩ := getElem?_set_of_not_released hg' hopen
    by_cases hscope : other ∈ u.scopes
    · exact haround.closed hall other hscope hother hne g' hg'
    · exact h.closed other g' hg' hopen hscope

end Tidy

/-! ### Calls -/

variable {u : StackUse}

theorem isLate_release (hg : u.guards[place]? = some g) : u.isLate (.release place) = true ↔
      g.isReleased = false ∧ u.stack.admits g = true ∧ place ∉ u.scopes := by
  simp [isLate, hg, and_assoc]

theorem perform_release (hg : u.guards[place]? = some g) {cause : Option Cause}
    (h : u.stack.release g = (s, g', cause)) : u.perform (.release place) =
      (cause, { stack := s, guards := u.guards.set place g',
                scopes := u.scopes.drop (u.scopes.length - s.frameCount) }) := by
  simp only [perform, hg, h]

theorem Tidy.perform (h : u.Tidy) (call : StackCall) (hlate : u.isLate call = false) :
    (u.perform call).2.Tidy ∧ ((u.perform call).1.isSome → (u.perform call).2.stack = u.stack) := by
  cases call with
  | push sym => exact ⟨h.push sym, by simp [StackUse.perform]⟩
  | pop =>
    unfold StackUse.perform
    cases hpop : u.stack.pop with
    | error cause => exact ⟨h, fun _ => rfl⟩
    | ok popped => exact ⟨h.pop hpop, by simp⟩
  | pushFrame => exact ⟨h.pushFrame, by simp [StackUse.perform]⟩
  | pushWindow extra =>
    simp only [StackUse.perform]
    cases hopened : u.stack.pushWindow extra with
    | error cause => exact ⟨h, fun _ => rfl⟩
    | ok opened => exact ⟨h.pushWindow hopened, by simp⟩
  | release place =>
    cases hg : u.guards[place]? with
    | none => exact ⟨by simpa [StackUse.perform, hg] using h, by simp [StackUse.perform, hg]⟩
    | some g =>
      cases hreleased : g.isReleased with
      | true =>
        rw [perform_release hg (Stack.release_of_isReleased hreleased)]
        have htidy := h.refused hg
        rw [show ({ g with isReleased := true } : Guard) = g by rw [← hreleased]] at htidy
        exact ⟨htidy, by simp⟩
      | false =>
        cases hadmits : u.stack.admits g with
        | false =>
          obtain ⟨cause, hrefused⟩ := Stack.release_of_not_admits hreleased hadmits
          rw [perform_release hg hrefused]
          exact ⟨h.refused hg, fun _ => rfl⟩
        | true =>
          have hplace : place ∈ u.scopes := by
            by_contra hplace
            rw [(isLate_release hg).mpr ⟨hreleased, hadmits, hplace⟩] at hlate
            cases hlate
          obtain ⟨hdepth, htidy⟩ := h.closes hg hadmits hplace
          rw [perform_release hg (Stack.release_of_admits hreleased hadmits hdepth)]
          exact ⟨htidy, by simp⟩

theorem Tidy.perform_late (h : u.Tidy) (hg : u.guards[place]? = some g)
    (hlate : u.isLate (.release place) = true) : g.isWindow = false ∧
      ((u.stack.depth < g.depth ∧ (u.perform (.release place)).1.isSome ∧
          (u.perform (.release place)).2.stack = u.stack) ∨
        g.depth ≤ u.stack.depth ∧ (u.perform (.release place)).1 = none ∧
          (u.perform (.release place)).2.stack = u.stack.truncate g.depth g.frames ∧
          g.frames ≤ u.stack.frameCount) := by
  obtain ⟨hreleased, hadmits, hplace⟩ := (isLate_release hg).mp hlate
  have hkind := h.closed place g hg hreleased hplace
  refine ⟨hkind, ?_⟩
  rcases Nat.lt_or_ge u.stack.depth g.depth with hdepth | hdepth
  · obtain ⟨cause, hrefused⟩ := Stack.release_of_depth_lt hreleased hkind hdepth
    rw [perform_release hg hrefused]
    exact .inl ⟨hdepth, rfl, rfl⟩
  · rw [perform_release hg (Stack.release_of_admits hreleased hadmits hdepth), hkind]
    have hcount : u.stack.frameCount = g.frames + 1 := by simpa [Stack.admits, hkind] using hadmits
    exact .inr ⟨hdepth, rfl, rfl, hcount ▸ Nat.le_succ _⟩

/-- A guard that comes late keeps the stack in order exactly if it does not undercut what stays open. -/
theorem Tidy.ordered_perform_late_iff (h : u.Tidy) (hg : u.guards[place]? = some g)
    (hlate : u.isLate (.release place) = true) :
    (u.perform (.release place)).2.stack.Ordered ↔ u.undercuts (.release place) = false := by
  obtain ⟨-, ⟨hdepth, -, hstack⟩ | ⟨hdepth, -, hstack, hframes⟩⟩ := h.perform_late hg hlate
  · rw [hstack]
    exact iff_of_true h.ordered (by simp [undercuts, hg, Nat.not_le.mpr hdepth])
  · have hcuts : u.undercuts (.release place) = false ↔
        (∀ mark ∈ u.stack.frames.take g.frames, mark ≤ g.depth) ∧
          ∀ base ∈ u.stack.windows, base ≤ g.depth := by
      simp [undercuts, hlate, hg, hdepth]
    rw [hcuts, hstack]
    constructor
    · intro hordered
      refine ⟨fun mark hmark => ?_, fun base hbase => ?_⟩
      · have hle := hordered.frames_le mark (Stack.frames_truncate _ _ hframes ▸ hmark)
        rwa [Stack.depth_truncate _ hdepth] at hle
      · have hle := hordered.windows_le base hbase
        rwa [Stack.depth_truncate _ hdepth] at hle
    · rintro ⟨hmarks, hbases⟩
      refine ⟨?_, ?_, ?_⟩
      · rw [Stack.frames_truncate _ _ hframes]
        exact h.nest.pairwise.sublist (take_sublist _ _)
      · rw [Stack.frames_truncate _ _ hframes, Stack.depth_truncate _ hdepth]
        exact hmarks
      · rw [Stack.depth_truncate _ hdepth]
        exact hbases

theorem Tidy.run (h : u.Tidy) {calls : List StackCall} (hcalls : u.isTimely calls = true) :
    (u.run calls).Tidy := by
  induction calls generalizing u with
  | nil => exact h
  | cons call calls ih =>
    obtain ⟨hcall, hrest⟩ := Bool.and_eq_true_iff.mp hcalls
    exact ih (h.perform call (by simpa using hcall)).1 hrest

theorem tidy_new (policy : CollisionPolicy) : Tidy { stack := { policy } } :=
  ⟨.nil, rfl, by simp [Stack.frames], by simp⟩

/-- After any calls on a new stack among which no guard comes late, frames and windows are nested within
the symbols. The next call keeps this, unless it is the release of a guard that comes late, which is that
of a frame, and undercuts what stays open; and if it is refused, the stack is as before. -/
theorem ordered_perform_iff (policy : CollisionPolicy) {calls : List StackCall}
    (hcalls : isTimely { stack := { policy } } calls = true) (call : StackCall) :
    let u := run { stack := { policy } } calls
    u.stack.Ordered ∧ ((u.perform call).2.stack.Ordered ↔ u.undercuts call = false) ∧
      ((u.perform call).1.isSome → (u.perform call).2.stack = u.stack) ∧
      ∀ place g, u.guards[place]? = some g → u.isLate (.release place) = true →
        g.isWindow = false := by
  intro u
  have htidy : u.Tidy := (tidy_new policy).run hcalls
  have hframe : ∀ place g, u.guards[place]? = some g → u.isLate (.release place) = true →
      g.isWindow = false := fun _ _ hg hlate => (htidy.perform_late hg hlate).1
  cases hlate : u.isLate call with
  | false =>
    obtain ⟨hnext, hrefused⟩ := htidy.perform call hlate
    refine ⟨htidy.ordered, iff_of_true hnext.ordered ?_, hrefused, hframe⟩
    cases call with
    | release place => rw [undercuts, hlate, Bool.false_and]
    | push | pop | pushFrame | pushWindow => rfl
  | true =>
    cases call with
    | push | pop | pushFrame | pushWindow => cases hlate
    | release place =>
      cases hg : u.guards[place]? with
      | none => simp [isLate, hg] at hlate
      | some g =>
        refine ⟨htidy.ordered, htidy.ordered_perform_late_iff hg hlate, fun hrefused => ?_, hframe⟩
        obtain ⟨-, ⟨-, -, hstack⟩ | ⟨-, hnone, -⟩⟩ := htidy.perform_late hg hlate
        · exact hstack
        · rw [hnone] at hrefused
          cases hrefused

/-- A window is closed over a frame; the guard of that frame is refused, and so is the window's when it is
released again. -/
theorem ordered_perform_iff_nested :
    let calls : List StackCall := [.push { name := "x", type := none }, .pushWindow 1, .pushFrame,
      .push { name := "y", type := none }, .release 0, .release 1]
    let u := run {} calls
    isTimely {} calls = true ∧ u.stack.Ordered ∧ u.stack.depth = 1 ∧
      (u.perform (.release 0)).2.stack.Ordered ∧ (u.perform (.pushWindow 2)).2.stack = u.stack := by
  have hcalls : isTimely {} [.push { name := "x", type := none }, .pushWindow 1, .pushFrame,
      .push { name := "y", type := none }, .release 0, .release 1] = true := by decide +kernel
  obtain ⟨hordered, hnext, -⟩ := ordered_perform_iff .ambiguous hcalls (.release 0)
  refine ⟨hcalls, hordered, by decide +kernel, hnext.mpr (by decide +kernel), ?_⟩
  exact (ordered_perform_iff .ambiguous hcalls (.pushWindow 2)).2.2.1 (by decide +kernel)

/-- The guard of a frame that was closed with the window around it closes another frame later, which
leaves a frame above the symbols, so that what is pushed then cannot be popped. Or it leaves a window above
the symbols, whose guard is refused and closes the window all the same. -/
theorem exists_run_not_ordered :
    (∃ calls : List StackCall, ¬(run {} calls).stack.Ordered ∧
      (((run {} calls).perform (.push { name := "y", type := none })).2.perform .pop).1.isSome) ∧
    ∃ (calls : List StackCall) (call : StackCall), ((run {} calls).perform call).1.isSome ∧
      ((run {} calls).perform call).2.stack.windows ≠ (run {} calls).stack.windows := by
  refine ⟨⟨[.pushWindow 0, .pushFrame, .release 0, .push { name := "x", type := none }, .pushFrame,
    .pushFrame, .release 1], fun hordered => ?_, by decide +kernel⟩,
    [.pushWindow 0, .pushFrame, .release 0, .push { name := "x", type := none }, .pushWindow 0,
    .pushFrame, .release 1], .release 2, by decide +kernel, by decide +kernel⟩
  exact absurd (hordered.frames_le 1 (by decide +kernel)) (by decide +kernel)

end StackUse

end Relational
