import CppConcur.Logic.Transition

/-!
# The types of the waiters of a `RunMutex`

`RunMutex::Run` takes the critical section as a function object of any type `F` and suspends in a
`Waiter<F>`. The list of waiters is one of tasks and forgets `F`. `Unlock<F>` takes the first task off the
list and calls `Schedule` on it as on a `Waiter<F>`, with the `F` of the coroutine that gives the mutex
back. `Schedule` reads the field `sched_`, which stands behind the function object, so that its place
depends on `F`.

Coroutines interleave freely, and one that was scheduled may run at any time. That includes the case
without a scheduler, where it runs at once.
-/

namespace CppConcur.Coro.RunMutex

open Logic

/-- A `Waiter<F>`, with the coroutine it resumes. -/
structure Waiter (P τ S : Type) where
  handle : P
  closure : τ
  sched : Option S

variable {P τ S : Type}

/-- What is found in the place that `sched_` has in a `Waiter<F>`. -/
def Waiter.readSched [DecidableEq τ] (w : Waiter P τ S) (F : τ) : Option (Option S) :=
  if w.closure = F then some w.sched else none

/-- A waiter that was taken off the list as a `Waiter<F>`, and what `Schedule` read. -/
structure Cast (P τ S : Type) where
  closure : τ
  waiter : Waiter P τ S
  read : Option (Option S)

/-- The fields of the mutex, the coroutines that were scheduled, and the waiters that were taken off. -/
structure Mem (P τ S : Type) where
  spin : Option P
  locked : Bool
  waiters : List (Waiter P τ S)
  ready : List P
  casts : List (Cast P τ S)

/-- Where a coroutine is. -/
inductive Pc (P τ S : Type)
  /-- in its own code -/
  | code
  /-- in `Lock`, before and after the spinlock is taken -/
  | lockEnter (w : Waiter P τ S)
  | lockHeld (w : Waiter P τ S)
  /-- `Lock` returns true -/
  | acquired (w : Waiter P τ S)
  /-- `Lock` returns false -/
  | pushed (w : Waiter P τ S)
  | suspended (w : Waiter P τ S)
  /-- in the critical section -/
  | critical (w : Waiter P τ S)
  /-- in `Unlock`, before and after the spinlock is taken -/
  | unlockEnter (w : Waiter P τ S)
  | unlockHeld (w : Waiter P τ S)
  /-- `Unlock` returns -/
  | unlocked (w : Waiter P τ S)

/-- The waiter of the call a coroutine is in. -/
def Pc.waiter : Pc P τ S → Option (Waiter P τ S)
  | .code => none
  | .lockEnter w | .lockHeld w | .acquired w | .pushed w | .suspended w | .critical w | .unlockEnter w
  | .unlockHeld w | .unlocked w => some w

section Steps

variable [DecidableEq τ] [DecidableEq P]

/-- `static_cast<Waiter<F>*>(w)->Schedule()`. -/
def Mem.schedule (m : Mem P τ S) (F : τ) (w : Waiter P τ S) : Mem P τ S :=
  { m with ready := m.ready ++ [w.handle], casts := m.casts ++ [⟨F, w, w.readSched F⟩] }

/-- `Unlock<F>`. -/
def Mem.unlock (m : Mem P τ S) (F : τ) : Mem P τ S :=
  match m.waiters with
  | [] => { m with locked := false }
  | w :: ws => { m with locked := true, waiters := ws }.schedule F w

inductive Act (p : P) (m : Mem P τ S) : Pc P τ S → Mem P τ S → Pc P τ S → Prop
  | run (F : τ) (sched : Option S) : Act p m .code m (.lockEnter ⟨p, F, sched⟩)
  | lockSpin {w : Waiter P τ S} (hspin : m.spin = none) :
      Act p m (.lockEnter w) { m with spin := some p } (.lockHeld w)
  | lockTrue {w : Waiter P τ S} (hlocked : m.locked = false) :
      Act p m (.lockHeld w) { m with locked := true } (.acquired w)
  | lockFalse {w : Waiter P τ S} (hlocked : m.locked = true) :
      Act p m (.lockHeld w) { m with waiters := m.waiters ++ [w] } (.pushed w)
  | lockReturnTrue {w : Waiter P τ S} : Act p m (.acquired w) { m with spin := none } (.critical w)
  | lockReturnFalse {w : Waiter P τ S} : Act p m (.pushed w) { m with spin := none } (.suspended w)
  | criticalEnd {w : Waiter P τ S} : Act p m (.critical w) m (.unlockEnter w)
  | unlockSpin {w : Waiter P τ S} (hspin : m.spin = none) :
      Act p m (.unlockEnter w) { m with spin := some p } (.unlockHeld w)
  | unlock {w : Waiter P τ S} : Act p m (.unlockHeld w) (m.unlock w.closure) (.unlocked w)
  | unlockReturn {w : Waiter P τ S} : Act p m (.unlocked w) { m with spin := none } .code
  | resume {w : Waiter P τ S} (hmem : p ∈ m.ready) :
      Act p m (.suspended w) { m with ready := m.ready.erase p } (.critical w)

/-- A new mutex, and coroutines that have called nothing. -/
def initial : Conf P (Mem P τ S) (Pc P τ S) := ⟨⟨none, false, [], [], []⟩, fun _ => .code⟩

variable (P τ S) in
def system : System (Conf P (Mem P τ S) (Pc P τ S)) :=
  Program.system (fun p m pc m' pc' => Act p m pc m' pc') fun c => c = initial

/-! ### Mutexes that are used with one type of function objects -/

omit [DecidableEq τ] [DecidableEq P] in
/-- All calls of `Run` are made with critical sections of the type `F`. -/
def Uses (F : τ) (_ c' : Conf P (Mem P τ S) (Pc P τ S)) : Prop :=
  ∀ p w, c'.pc p = .lockEnter w → w.closure = F

/-- Every waiter is a `Waiter<F>`. -/
structure Inv (F : τ) (c : Conf P (Mem P τ S) (Pc P τ S)) : Prop where
  waiters : ∀ w ∈ c.mem.waiters, w.closure = F
  calls : ∀ p, ∀ w ∈ (c.pc p).waiter, w.closure = F
  casts : ∀ x ∈ c.mem.casts, x.closure = F ∧ x.waiter.closure = F ∧ x.read = x.waiter.readSched x.closure

variable {c : Conf P (Mem P τ S) (Pc P τ S)} {m' : Mem P τ S} {p : P} {x : Pc P τ S} {F : τ}

theorem Inv.move (h : Inv F c) (hwaiters : ∀ w ∈ m'.waiters, w.closure = F)
    (hcasts : ∀ y ∈ m'.casts, y.closure = F ∧ y.waiter.closure = F ∧ y.read = y.waiter.readSched y.closure)
    (hx : ∀ w ∈ x.waiter, w.closure = F) : Inv F ⟨m', Function.update c.pc p x⟩ := by
  refine ⟨hwaiters, fun q w hw => ?_, hcasts⟩
  replace hw : w ∈ (Function.update c.pc p x q).waiter := hw
  rcases eq_or_ne q p with rfl | hne
  · rw [Function.update_self] at hw
    exact hx w hw
  · rw [Function.update_of_ne hne] at hw
    exact h.calls q w hw

theorem Act.inv (hact : Act p c.mem (c.pc p) m' x) (h : Inv F c) (huses : Uses F c ⟨m', Function.update c.pc p x⟩) :
    Inv F ⟨m', Function.update c.pc p x⟩ := by
  have hcall := h.calls p
  generalize hpc : c.pc p = y at hact hcall
  cases hact with
  | run G sched =>
    refine h.move h.waiters h.casts fun w hw => huses p w ?_
    cases hw
    exact Function.update_self p _ c.pc
  | lockSpin | lockTrue | lockReturnTrue | lockReturnFalse | criticalEnd | unlockSpin | resume =>
    exact h.move h.waiters h.casts hcall
  | unlockReturn => exact h.move h.waiters h.casts nofun
  | @lockFalse w hlocked =>
    refine h.move (fun v hv => ?_) h.casts hcall
    rcases List.mem_append.mp hv with hold | hnew
    · exact h.waiters v hold
    · obtain rfl := List.mem_singleton.mp hnew
      exact hcall v rfl
  | @unlock w =>
    unfold Mem.unlock
    split
    case h_1 hnil => exact h.move h.waiters h.casts hcall
    case h_2 v ws hcons =>
      have hlisted (u : Waiter P τ S) (hu : u ∈ v :: ws) : u.closure = F := h.waiters u (hcons ▸ hu)
      refine h.move (fun u hu => hlisted u (List.mem_cons_of_mem v hu)) (fun y hy => ?_) hcall
      rcases List.mem_append.mp hy with hold | hnew
      · exact h.casts y hold
      · obtain rfl := List.mem_singleton.mp hnew
        exact ⟨hcall w rfl, hlisted v List.mem_cons_self, rfl⟩

theorem Act.reachable {allowed : Conf P (Mem P τ S) (Pc P τ S) → Conf P (Mem P τ S) (Pc P τ S) → Prop}
    (hact : Act p c.mem (c.pc p) m' x) (h : ((system P τ S).restrict allowed).Reachable c)
    (hallowed : allowed c ⟨m', Function.update c.pc p x⟩) :
    ((system P τ S).restrict allowed).Reachable ⟨m', Function.update c.pc p x⟩ :=
  h.step ⟨⟨p, m', x, hact, rfl⟩, hallowed⟩

/-- When all critical sections have one type, every waiter that is taken off the list is of the type it is
taken for, and `Schedule` reads its own scheduler. -/
theorem casts_of_uses (h : ((system P τ S).restrict (Uses F)).Reachable c) :
    ∀ y ∈ c.mem.casts, y.waiter.closure = y.closure ∧ y.read = some y.waiter.sched := by
  have hinv : Inv F c := by
    apply h.invariant
    · intro c hinit
      obtain rfl : c = initial := hinit
      exact ⟨nofun, nofun, nofun⟩
    · intro c c' _ hinv hstep
      obtain ⟨⟨p, m', x, hact, rfl⟩, huses⟩ := hstep
      exact hact.inv hinv huses
  intro y hy
  obtain ⟨hclosure, hwaiter, hread⟩ := hinv.casts y hy
  have hsame : y.waiter.closure = y.closure := hwaiter.trans hclosure.symm
  exact ⟨hsame, hread.trans (if_pos hsame)⟩

/-- Coroutine `false` waits for coroutine `true`, which gives the mutex back. -/
theorem casts_of_uses_two :
    ∃ c : Conf Bool (Mem Bool Unit Unit) (Pc Bool Unit Unit),
      ((system Bool Unit Unit).restrict (Uses ())).Reachable c ∧
        ∃ y ∈ c.mem.casts, y.waiter.handle = false ∧ y.read = some y.waiter.sched := by
  have h₀ : ((system Bool Unit Unit).restrict (Uses ())).Reachable initial := .init rfl
  have h₁ := (Act.run (p := true) () (some ())).reachable h₀ fun _ _ _ => rfl
  have h₂ := (Act.lockSpin (p := true) rfl).reachable h₁ fun _ _ _ => rfl
  have h₃ := (Act.lockTrue (p := true) rfl).reachable h₂ fun _ _ _ => rfl
  have h₄ := (Act.lockReturnTrue (p := true)).reachable h₃ fun _ _ _ => rfl
  have h₅ := (Act.run (p := false) () (some ())).reachable h₄ fun _ _ _ => rfl
  have h₆ := (Act.lockSpin (p := false) rfl).reachable h₅ fun _ _ _ => rfl
  have h₇ := (Act.lockFalse (p := false) rfl).reachable h₆ fun _ _ _ => rfl
  have h₈ := (Act.lockReturnFalse (p := false)).reachable h₇ fun _ _ _ => rfl
  have h₉ := (Act.criticalEnd (p := true)).reachable h₈ fun _ _ _ => rfl
  have h₁₀ := (Act.unlockSpin (p := true) rfl).reachable h₉ fun _ _ _ => rfl
  have h₁₁ := (Act.unlock (p := true)).reachable h₁₀ fun _ _ _ => rfl
  exact ⟨_, h₁₁, _, List.mem_singleton.mpr rfl, rfl, (casts_of_uses h₁₁ _ (List.mem_singleton.mpr rfl)).2⟩

/-- Coroutine `false` waits with another type of critical section than coroutine `true`, which takes it off
the list for a waiter of its own type. -/
theorem mixed_cast :
    ∃ c : Conf Bool (Mem Bool Bool Unit) (Pc Bool Bool Unit), (system Bool Bool Unit).Reachable c ∧
      ∃ y ∈ c.mem.casts, y.waiter.closure ≠ y.closure ∧ y.read = none := by
  have h₀ : ((system Bool Bool Unit).restrict fun _ _ => True).Reachable initial := .init rfl
  have h₁ := (Act.run (p := true) true (some ())).reachable h₀ trivial
  have h₂ := (Act.lockSpin (p := true) rfl).reachable h₁ trivial
  have h₃ := (Act.lockTrue (p := true) rfl).reachable h₂ trivial
  have h₄ := (Act.lockReturnTrue (p := true)).reachable h₃ trivial
  have h₅ := (Act.run (p := false) false (some ())).reachable h₄ trivial
  have h₆ := (Act.lockSpin (p := false) rfl).reachable h₅ trivial
  have h₇ := (Act.lockFalse (p := false) rfl).reachable h₆ trivial
  have h₈ := (Act.lockReturnFalse (p := false)).reachable h₇ trivial
  have h₉ := (Act.criticalEnd (p := true)).reachable h₈ trivial
  have h₁₀ := (Act.unlockSpin (p := true) rfl).reachable h₉ trivial
  have h₁₁ := (Act.unlock (p := true)).reachable h₁₀ trivial
  exact ⟨_, h₁₁.of_restrict, _, List.mem_singleton.mpr rfl, by decide, rfl⟩

end Steps

end CppConcur.Coro.RunMutex
