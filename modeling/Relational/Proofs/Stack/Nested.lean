import Relational.Proofs.Stack.Guards

/-!
# Guards that are released in turn

A guard is released in turn if those that were taken after it have been released. When all guards are, the
stack is piled up: it stands on what it was when the last of the guards that are not released was taken,
which stands on what it was at the one before, and so on. No symbol is popped below the innermost frame, so
that calls change the top of the pile only, and the release of the last guard leaves what is beneath.
-/

namespace Relational

open List

variable {s t below : Stack} {isWindow : Bool} {g : Guard}

/-- A stack that stands on another, on which a frame or a window was opened. -/
structure Stack.On (s below : Stack) (isWindow : Bool) : Prop where
  symbols : below.symbols <:+ s.symbols
  frames : s.frames = below.frames ++ [below.depth]
  count : s.frameCount = below.frameCount + 1
  windows : ∃ added, s.windows = added ++ below.windows ∧ added.length = isWindow.toNat

/-- A stack with guards, and the stacks on which they were taken, the last ones first. It stands on the
last stack on which a guard was taken that is not released. -/
inductive Stack.Piled : List Guard → List Stack → Stack → Prop
  | nil {s : Stack} (hcount : s.frames.length = s.frameCount) : Piled [] [] s
  | released {guards piles s below g} (h : Piled guards piles s) (hreleased : g.isReleased = true) :
      Piled (g :: guards) (below :: piles) s
  | taken {guards piles s below isWindow} (h : Piled guards piles below) (hon : s.On below isWindow) :
      Piled (below.guard isWindow :: guards) (below :: piles) s

namespace Stack.Piled

variable {guards later : List Guard} {piles : List Stack}

section

variable (h : Piled guards piles s)

include h

theorem count : s.frames.length = s.frameCount := by
  induction h with
  | nil hcount => exact hcount
  | released _ _ ih => exact ih
  | taken _ hon ih => rw [hon.frames, hon.count, length_append, ih, length_singleton]

theorem length_eq : guards.length = piles.length := by
  induction h with
  | nil => rfl
  | released _ _ ih | taken _ _ ih => exact congrArg (· + 1) ih

/-- Only symbols above the innermost frame may change. -/
theorem replace (hframes : t.frames = s.frames) (hcount : t.frameCount = s.frameCount)
    (hwins : t.windows = s.windows)
    (hsyms : ∀ syms, syms <:+ s.symbols → syms.length ≤ s.frames.getLast?.getD 0 → syms <:+ t.symbols) :
    Piled guards piles t := by
  induction h with
  | nil hlen => exact .nil (by rw [hframes, hcount, hlen])
  | released _ hreleased ih => exact .released (ih hframes hcount hwins hsyms) hreleased
  | @taken _ _ _ below _ h hon _ =>
    have hlast : below.symbols.length ≤ below.depth := Nat.le_refl _
    refine .taken h ⟨hsyms _ hon.symbols ?_, hframes.trans hon.frames, hcount.trans hon.count, ?_⟩
    · rwa [hon.frames, getLast?_concat]
    · rw [hwins]
      exact hon.windows

theorem push (sym : Symbol) : Piled guards piles (s.push sym) :=
  h.replace rfl rfl rfl fun _ hsuffix _ => hsuffix.trans (suffix_cons _ _)

theorem pop {sym : Symbol} (hpop : s.pop = .ok (sym, t)) : Piled guards piles t := by
  obtain ⟨rest, hsyms, rfl, hfloor⟩ := exists_of_pop hpop
  refine h.replace rfl rfl rfl fun syms hsuffix hlast => ?_
  refine suffix_of_suffix_length_le hsuffix (hsyms ▸ suffix_cons sym rest) ?_
  exact hlast.trans ((Nat.le_max_right _ _).trans hfloor)

theorem opened {opened : Guard × Stack}
    (hopened : opened = s.pushFrame ∨ ∃ extra, s.pushWindow extra = .ok opened) :
    Piled (opened.1 :: guards) (s :: piles) opened.2 := by
  have hframes := (frames_openFrame (frameCount_le_of_length_eq h.count)).1
  rcases hopened with rfl | ⟨extra, hopened⟩
  · exact .taken h ⟨suffix_rfl, hframes, rfl, [], rfl, rfl⟩
  · unfold pushWindow at hopened
    split_ifs at hopened
    cases hopened
    exact .taken h ⟨suffix_rfl, hframes, rfl, [s.depth - extra.toNat], rfl, rfl⟩

end

/-- The guard on top is admitted, and its release leaves what the stack stands on. -/
theorem release (h : Piled (g :: guards) (below :: piles) s) (hreleased : g.isReleased = false) :
    ∃ t, s.release g = (t, { g with isReleased := true }, none) ∧ Piled guards piles t ∧
      t.symbols = below.symbols ∧ t.frames = below.frames ∧ t.windows = below.windows := by
  cases h with
  | released _ hreleased' => cases hreleased'.symm.trans hreleased
  | @taken _ _ _ _ isWindow h hon =>
    obtain ⟨added, hwins, hadded⟩ := hon.windows
    have hadmits : s.admits (below.guard isWindow) = true := by
      unfold admits guard
      cases isWindow <;> simp [hon.count, hwins, hadded, Nat.add_comm]
    have hdepth : below.depth ≤ s.depth := hon.symbols.length_le
    have hdrop : s.windows.drop isWindow.toNat = below.windows := by
      rw [hwins, ← hadded, drop_left]
    refine ⟨_, release_of_admits rfl hadmits hdepth, ?_⟩
    have hsyms : s.symbols.drop (s.depth - below.depth) = below.symbols :=
      (suffix_iff_eq_drop.mp hon.symbols).symm
    have hframes : (truncate { s with windows := s.windows.drop isWindow.toNat } below.depth
        below.frameCount).frames = below.frames := by
      rw [frames_truncate _ _ (hon.count ▸ Nat.le_succ _)]
      change s.frames.take _ = _
      rw [hon.frames, ← h.count, take_left]
    refine ⟨h.replace hframes rfl hdrop fun _ hsuffix _ => ?_, hsyms, hframes, hdrop⟩
    change _ <:+ s.symbols.drop (s.depth - below.depth)
    rwa [hsyms]

/-- Guards that were released can be left out of account. -/
theorem skip (h : Piled (later ++ guards) piles s) (hlater : ∀ g ∈ later, g.isReleased = true) :
    ∃ piles', piles[later.length]? = piles'.head? ∧ Piled guards piles' s ∧
      ∀ guards' t, Piled guards' piles' t → Piled (later ++ guards') piles t := by
  induction later generalizing piles with
  | nil => exact ⟨piles, head?_eq_getElem?.symm, h, fun _ _ h' => h'⟩
  | cons g later ih =>
    obtain ⟨hg, hlater⟩ := forall_mem_cons.mp hlater
    cases h with
    | released h _ =>
      obtain ⟨piles', hstack, hpiled, hback⟩ := ih h hlater
      exact ⟨piles', hstack, hpiled, fun guards' t h' => .released (hback guards' t h') hg⟩
    | taken => cases hg

end Stack.Piled

namespace StackUse

/-- The call is not the first release of a guard after which others were taken that are not released. -/
def inTurn (u : StackUse) : StackCall → Bool
  | .release place => u.guards[place]?.all fun g =>
      g.isReleased || (u.guards.drop (place + 1)).all (·.isReleased)
  | _ => true

/-- Each guard is released after those that were taken after it. -/
def isNested : StackUse → List StackCall → Bool
  | _, [] => true
  | u, call :: calls => u.inTurn call && (u.perform call).2.isNested calls

/-- The piles on which guards were taken, in the order of the guards. -/
def openings : StackUse → List StackCall → List Stack
  | _, [] => []
  | u, call :: calls =>
    let v := (u.perform call).2
    if u.guards.length < v.guards.length then u.stack :: v.openings calls else v.openings calls

variable {u : StackUse} {call : StackCall} {place : Nat} {piles : List Stack}

theorem release_inTurn (h : Stack.Piled u.guards.reverse piles.reverse u.stack)
    (hg : u.guards[place]? = some g) (hreleased : g.isReleased = false)
    (hturn : u.inTurn (.release place) = true) :
    ∃ t below scopes, piles[place]? = some below ∧ u.perform (.release place) = (none,
        { stack := t, guards := u.guards.set place { g with isReleased := true }, scopes := scopes }) ∧
      Stack.Piled (u.guards.set place { g with isReleased := true }).reverse piles.reverse t ∧
      t.symbols = below.symbols ∧ t.frames = below.frames ∧ t.windows = below.windows := by
  obtain ⟨hlt, hget⟩ := List.getElem?_eq_some_iff.mp hg
  have hlen := h.length_eq
  rw [length_reverse, length_reverse] at hlen
  have hlater : ∀ g ∈ (u.guards.drop (place + 1)).reverse, g.isReleased = true := by
    simpa [inTurn, hg, hreleased] using hturn
  have hsplit : u.guards = u.guards.take place ++ g :: u.guards.drop (place + 1) := by
    rw [← hget, cons_getElem_drop_succ, take_append_drop]
  rw [hsplit, reverse_append, reverse_cons, append_assoc] at h
  obtain ⟨piles', hstack, hpiled, hback⟩ := h.skip hlater
  cases piles' with
  | nil => cases hpiled
  | cons below piles' =>
    obtain ⟨t, hrelease, hunder, hrestored⟩ := hpiled.release hreleased
    rw [length_reverse, length_drop, getElem?_reverse (by omega)] at hstack
    rw [show piles.length - 1 - (u.guards.length - (place + 1)) = place by omega] at hstack
    refine ⟨t, below, _, hstack, perform_release hg hrelease, ?_, hrestored⟩
    rw [set_eq_take_append_cons_drop, if_pos hlt, reverse_append, reverse_cons, append_assoc]
    exact hback _ t (.released hunder rfl)

theorem piled_perform (h : Stack.Piled u.guards.reverse piles.reverse u.stack)
    (hturn : u.inTurn call = true) :
    Stack.Piled (u.perform call).2.guards.reverse (piles ++ u.openings [call]).reverse
      (u.perform call).2.stack := by
  have henter : ∀ opened : Guard × Stack, (opened = u.stack.pushFrame ∨
      ∃ extra, u.stack.pushWindow extra = .ok opened) → (u.perform call).2 = u.enter opened →
      Stack.Piled (u.perform call).2.guards.reverse (piles ++ u.openings [call]).reverse
        (u.perform call).2.stack := by
    intro opened hopened hperform
    simpa [openings, hperform, enter] using h.opened hopened
  cases call with
  | push sym => simpa [openings, perform] using h.push sym
  | pop =>
    cases hpop : u.stack.pop with
    | error cause => simpa [openings, perform, hpop] using h
    | ok popped => simpa [openings, perform, hpop] using h.pop hpop
  | pushFrame => exact henter _ (.inl rfl) rfl
  | pushWindow extra =>
    cases hopened : u.stack.pushWindow extra with
    | error cause => simpa [openings, perform, hopened] using h
    | ok opened => exact henter opened (.inr ⟨extra, hopened⟩) (by simp [perform, hopened])
  | release place =>
    cases hg : u.guards[place]? with
    | none => simpa [openings, perform, hg] using h
    | some g =>
      cases hreleased : g.isReleased with
      | true =>
        obtain ⟨hlt, rfl⟩ := List.getElem?_eq_some_iff.mp hg
        simpa [openings, perform_release hg (Stack.release_of_isReleased hreleased)] using h
      | false =>
        obtain ⟨t, -, scopes, -, hperform, hpiled, -⟩ := release_inTurn h hg hreleased hturn
        simpa [openings, hperform] using hpiled

theorem piled_run {calls : List StackCall} (h : Stack.Piled u.guards.reverse piles.reverse u.stack)
    (hcalls : u.isNested calls = true) :
    Stack.Piled (u.run calls).guards.reverse (piles ++ u.openings calls).reverse (u.run calls).stack := by
  induction calls generalizing u piles with
  | nil => simpa [openings, run] using h
  | cons call calls ih =>
    obtain ⟨hturn, hrest⟩ := Bool.and_eq_true_iff.mp hcalls
    have hnext := ih (piled_perform h hturn) hrest
    have hopenings : u.openings (call :: calls) = u.openings [call] ++ (u.perform call).2.openings calls := by
      simp only [openings]
      split_ifs <;> rfl
    rwa [append_assoc, ← hopenings] at hnext

theorem isNested_append (u : StackUse) (calls calls' : List StackCall) :
    u.isNested (calls ++ calls') = (u.isNested calls && (u.run calls).isNested calls') := by
  induction calls generalizing u with
  | nil => rfl
  | cons call calls ih => rw [cons_append, isNested, isNested, ih, Bool.and_assoc, run]

/-- Take any calls on a new stack among which each guard is released after those that were taken after it.
No release is refused. The first release of a guard leaves the symbols, the frames and the windows that
there were when the guard was taken; a further one changes nothing. -/
theorem release_restores (policy : CollisionPolicy) {before after : List StackCall} {place : Nat}
    (hcalls : isNested { stack := { policy } } (before ++ .release place :: after) = true) :
    let u := run { stack := { policy } } before
    let released := u.perform (.release place)
    released.1 = none ∧ ∀ g, u.guards[place]? = some g →
      (g.isReleased = true → released.2.stack = u.stack) ∧
      (g.isReleased = false → ∃ s, (openings { stack := { policy } } before)[place]? = some s ∧
        released.2.stack.symbols = s.symbols ∧ released.2.stack.frames = s.frames ∧
        released.2.stack.windows = s.windows) := by
  intro u released
  rw [isNested_append, isNested, Bool.and_eq_true, Bool.and_eq_true] at hcalls
  obtain ⟨hbefore, hturn, -⟩ := hcalls
  have hpiled := @piled_run { stack := { policy } } [] before (.nil rfl) hbefore
  rw [List.nil_append] at hpiled
  cases hg : u.guards[place]? with
  | none => exact ⟨by simp [released, perform, hg], by simp⟩
  | some g =>
    simp only [Option.some.injEq, forall_eq']
    cases hreleased : g.isReleased with
    | true =>
      have hperform := perform_release hg (Stack.release_of_isReleased hreleased)
      rw [show released = _ from hperform]
      exact ⟨rfl, fun _ => rfl, by simp⟩
    | false =>
      obtain ⟨t, s, scopes, hstack, hperform, -, hrestored⟩ := release_inTurn hpiled hg hreleased hturn
      rw [show released = _ from hperform]
      exact ⟨rfl, by simp, fun _ => ⟨s, hstack, hrestored⟩⟩

/-- A window and a frame inside it are closed in turn, after calls that are refused. -/
theorem release_restores_window :
    let x : Symbol := { name := "x", type := none }
    let calls : List StackCall := [.push x, .pushWindow 1, .pushFrame, .pushWindow 9, .pop, .push x,
      .release 1, .release 1, .pop]
    isNested {} (calls ++ [.release 0]) = true ∧
      ((run {} calls).perform (.release 0)).2.stack.symbols = [x] := by
  intro x calls
  have hcalls : isNested {} (calls ++ [.release 0]) = true := by decide +kernel
  obtain ⟨s, hstack, hsymbols, -⟩ := ((release_restores .ambiguous hcalls).2
    { depth := 1, frames := 0, windows := 0, isWindow := true } (by decide +kernel)).2 rfl
  refine ⟨hcalls, hsymbols.trans ?_⟩
  obtain rfl : ({} : Stack).push x = s := Option.some.inj hstack
  rfl

end StackUse

end Relational
