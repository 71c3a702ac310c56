import CppConcur.Logic.Transition
import Mathlib.Logic.Function.Basic

/-!
# The one-shot event of threads

`thread::Event` is a word of which `Wait` expects that it becomes 1, and on which it blocks with a futex. `Fire` stores
1 and wakes one thread. A thread that has not blocked yet sees the 1 when the futex compares the word, but of the
threads that have blocked only one is woken.

Each thread calls `Wait` once, and one thread calls `Fire`. The comparison of the futex and the blocking are one step,
and a blocked thread that is released compares again; it may also be released without a reason.
-/

namespace CppConcur.Thread.Event

open Logic

variable {W : Type}

/-- Where a thread is in `Wait`. -/
inductive WaitPc
  /-- not called yet -/
  | idle
  /-- before `fired_.load()` -/
  | load
  /-- in `futex::Wait(fired_, 0)`, before the comparison -/
  | compare
  | blocked
  | returned
  deriving DecidableEq

/-- Where the call of `Fire` is. -/
inductive FirePc
  /-- not called yet -/
  | idle
  /-- `PrepareWake` has taken the address of the word; before `fired_.store(1)` -/
  | store
  /-- before `futex::WakeOne` -/
  | wake
  | returned
  deriving DecidableEq

structure State (W : Type) where
  fired : BitVec 32
  wait : W → WaitPc
  fire : FirePc

section Steps

variable [DecidableEq W]

def State.goto (s : State W) (w : W) (pc : WaitPc) : State W := { s with wait := Function.update s.wait w pc }

inductive Step (s : State W) : State W → Prop
  -- `Wait`
  | callWait {w : W} (hpc : s.wait w = .idle) : Step s (s.goto w .load)
  | loadZero {w : W} (hpc : s.wait w = .load) (hfired : s.fired = 0) : Step s (s.goto w .compare)
  | loadFired {w : W} (hpc : s.wait w = .load) (hfired : s.fired ≠ 0) : Step s (s.goto w .returned)
  | block {w : W} (hpc : s.wait w = .compare) (hfired : s.fired = 0) : Step s (s.goto w .blocked)
  | differs {w : W} (hpc : s.wait w = .compare) (hfired : s.fired ≠ 0) : Step s (s.goto w .returned)
  | spurious {w : W} (hpc : s.wait w = .blocked) : Step s (s.goto w .compare)
  -- `Fire`
  | callFire (hpc : s.fire = .idle) : Step s { s with fire := .store }
  | store (hpc : s.fire = .store) : Step s { s with fired := 1, fire := .wake }
  | wakeOne {w : W} (hpc : s.fire = .wake) (hblocked : s.wait w = .blocked) :
      Step s { s.goto w .compare with fire := .returned }
  | wakeNone (hpc : s.fire = .wake) (hblocked : ∀ w, s.wait w ≠ .blocked) : Step s { s with fire := .returned }

/-- A new event. -/
def initial : State W := ⟨0, fun _ => .idle, .idle⟩

def system (W : Type) [DecidableEq W] : System (State W) where
  init s := s = initial
  step s s' := Step s s'

end Steps

/-- At most one thread is blocked when `Fire` wakes one. -/
def OneBlocked (s s' : State W) : Prop :=
  s.fire = .wake → s'.fire = .returned → ∀ w w', s.wait w = .blocked → s.wait w' = .blocked → w = w'

/-- The runs in which one thread at most is blocked when `Fire` wakes one. -/
def oneBlockedSystem (W : Type) [DecidableEq W] : System (State W) := (system W).restrict OneBlocked

/-! ### The word -/

/-- The word is 1 from the store on, and a thread leaves `Wait` only when it has seen that. -/
structure Sound (s : State W) : Prop where
  fired_iff : s.fired = 1 ↔ s.fire = .wake ∨ s.fire = .returned
  word : s.fired = 0 ∨ s.fired = 1
  returned : ∀ w, s.wait w = .returned → s.fired = 1

section Sound

variable [DecidableEq W] {s s' : State W}

/-- A thread goes on in `Wait`, and does not return unless the word is 1. -/
theorem Sound.goto (h : Sound s) (w : W) {pc : WaitPc} (hpc : pc = .returned → s.fired ≠ 0) : Sound (s.goto w pc) := by
  refine ⟨h.fired_iff, h.word, fun u hu => ?_⟩
  have hu : Function.update s.wait w pc u = .returned := hu
  by_cases huw : u = w
  · subst huw
    rw [Function.update_self] at hu
    exact h.word.resolve_left (hpc hu)
  · rw [Function.update_of_ne huw] at hu
    exact h.returned u hu

theorem Sound.step (h : Sound s) (hstep : Step s s') : Sound s' := by
  cases hstep with
  | callWait | loadZero | block | spurious => exact h.goto _ nofun
  | loadFired _ hfired | differs _ hfired => exact h.goto _ fun _ => hfired
  | callFire hpc =>
    refine ⟨?_, h.word, h.returned⟩
    rw [h.fired_iff, hpc]
    simp
  | store => exact ⟨by simp, .inr rfl, fun _ _ => rfl⟩
  | @wakeOne w hpc _ =>
    have hfired : s.fired = 1 := h.fired_iff.mpr (.inl hpc)
    have hgoto : Sound (s.goto w .compare) := h.goto w nofun
    exact ⟨iff_of_true hfired (.inr rfl), h.word, hgoto.returned⟩
  | wakeNone hpc _ => exact ⟨iff_of_true (h.fired_iff.mpr (.inl hpc)) (.inr rfl), h.word, h.returned⟩

theorem sound_of_reachable (h : (system W).Reachable s) : Sound s := by
  apply h.invariant
  · rintro _ rfl
    exact ⟨by simp [initial], .inl rfl, nofun⟩
  · intro s s' _ hs hstep
    exact hs.step hstep

end Sound

/-! ### The wakeup -/

section Wake

variable [DecidableEq W] {s s' : State W}

/-- Nobody blocks after the store, and the one who is blocked is woken. -/
theorem not_blocked_step (hsound : Sound s) (hstep : Step s s') (hone : OneBlocked s s')
    (hold : s.fire = .returned → ∀ w, s.wait w ≠ .blocked) (hfire : s'.fire = .returned) (w : W) :
    s'.wait w ≠ .blocked := by
  have hgoto {u : W} {pc : WaitPc} (hreturned : s.fire = .returned) (hpc : pc ≠ .blocked) :
      (s.goto u pc).wait w ≠ .blocked := by
    show Function.update s.wait u pc w ≠ .blocked
    by_cases hwu : w = u
    · subst hwu
      rwa [Function.update_self]
    · rw [Function.update_of_ne hwu]
      exact hold hreturned w
  cases hstep with
  | callWait | loadZero | loadFired | differs | spurious => exact hgoto hfire (by decide)
  | block _ hzero =>
    have hfired : s.fired = 1 := hsound.fired_iff.mpr (.inr hfire)
    rw [hzero] at hfired
    cases hfired
  | callFire | store => cases hfire
  | @wakeOne u hpc hblocked =>
    show Function.update s.wait u .compare w ≠ .blocked
    by_cases hwu : w = u
    · subst hwu
      rw [Function.update_self]
      decide
    · rw [Function.update_of_ne hwu]
      exact fun hw => hwu (hone hpc rfl w u hw hblocked)
  | wakeNone _ hblocked => exact hblocked w

/-- For any number of threads: `Wait` returns only when `Fire` has stored 1; and if at most one thread is blocked when
`Fire` wakes one, then no thread is blocked when `Fire` has returned. -/
theorem event_wakes (s : State W) :
    ((system W).Reachable s → ∀ w, s.wait w = .returned → s.fired = 1) ∧
      ((oneBlockedSystem W).Reachable s → s.fire = .returned → ∀ w, s.wait w ≠ .blocked) := by
  refine ⟨fun h => (sound_of_reachable h).returned, fun h => ?_⟩
  induction h with
  | init hinit =>
    cases hinit
    exact nofun
  | step hreach hstep ih =>
    exact not_blocked_step (sound_of_reachable hreach.of_restrict) hstep.1 hstep.2 ih

/-- With one thread in `Wait`, as in `future::Get`, every run is of this kind. -/
theorem reachable_oneBlocked [Subsingleton W] (h : (system W).Reachable s) : (oneBlockedSystem W).Reachable s := by
  induction h with
  | init hinit => exact .init hinit
  | step _ hstep ih => exact .step ih ⟨hstep, fun _ _ w w' _ _ => Subsingleton.elim w w'⟩

end Wake

/-- A thread blocks, `Fire` wakes it, and it returns. -/
theorem event_wakes_one : ∃ s : State Unit, (oneBlockedSystem Unit).Reachable s ∧ s.fire = .returned ∧
    s.wait () = .returned ∧ s.fired = 1 ∧ ∀ w, s.wait w ≠ .blocked := by
  have h₀ : (system Unit).Reachable initial := .init rfl
  have h₁ := h₀.step (.callWait (w := ()) rfl)
  have h₂ := h₁.step (.loadZero (w := ()) rfl rfl)
  have h₃ := h₂.step (.block (w := ()) rfl rfl)
  have h₄ := h₃.step (.callFire rfl)
  have h₅ := h₄.step (.store rfl)
  have h₆ := h₅.step (.wakeOne (w := ()) rfl rfl)
  have h₇ := h₆.step (.differs (w := ()) rfl (by decide))
  have hone := reachable_oneBlocked h₇
  exact ⟨_, hone, rfl, rfl, (event_wakes _).1 h₇ () rfl, (event_wakes _).2 hone rfl⟩

/-- Two threads are blocked when `Fire` wakes one: the other one stays blocked, and nobody is left to wake it. -/
theorem event_sleeps : ∃ s : State Bool, (system Bool).Reachable s ∧ s.fire = .returned ∧ s.wait false = .returned ∧
    s.wait true = .blocked := by
  have h₀ : (system Bool).Reachable initial := .init rfl
  have h₁ := h₀.step (.callWait (w := false) rfl)
  have h₂ := h₁.step (.loadZero (w := false) rfl rfl)
  have h₃ := h₂.step (.block (w := false) rfl rfl)
  have h₄ := h₃.step (.callWait (w := true) rfl)
  have h₅ := h₄.step (.loadZero (w := true) rfl rfl)
  have h₆ := h₅.step (.block (w := true) rfl rfl)
  have h₇ := h₆.step (.callFire rfl)
  have h₈ := h₇.step (.store rfl)
  have h₉ := h₈.step (.wakeOne (w := false) rfl rfl)
  have h₁₀ := h₉.step (.differs (w := false) rfl (by decide))
  exact ⟨_, h₁₀, rfl, rfl, rfl⟩

end CppConcur.Thread.Event
