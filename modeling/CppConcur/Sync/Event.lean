import CppConcur.Logic.Gate
import CppConcur.Logic.Transition

/-!
# The one-shot events of fibers and coroutines

`fiber::Event` and `coro::Event` keep a flag and a list of waiters under a spinlock. `Wait` puts the
caller on the list, unless the flag is set. `Fire` sets the flag and schedules everybody on the list. The
event of the fibers does all of this with the lock held, and unlocks before it schedules the last one; a
fiber is suspended by every `Wait`, and its awaiter schedules it again when the flag is set. The event of
the coroutines holds the lock only to set the flag, and takes the waiters off the list without it; a
coroutine that finds the flag set goes on.

Every call of `Wait` has a name, so that a fiber or a coroutine that waits several times has several
names, one after the other. The owner may destroy the event when somebody has waited and nobody waits
any more, and then there are no more calls of `Wait`. A waiter in a scheduler may be resumed at any time.
-/

namespace CppConcur.Sync.Event

open Logic Logic.Gate

variable {W : Type}

/-- The events. -/
inductive Flavor
  | fiber
  | coro
  deriving DecidableEq

/-- Where a call of `Wait` is. The awaiter of a fiber runs when the fiber has been switched out. -/
inductive WaitPc
  /-- not made yet -/
  | idle
  /-- before `lock_.lock()` -/
  | enter
  /-- in the locked section -/
  | held
  /-- `fired_` was set; before `lock_.unlock()` -/
  | passing
  /-- a fiber, after `lock_.unlock()` and before `handle.Schedule` -/
  | schedule
  /-- in `waiters_`; before `lock_.unlock()` -/
  | pushed
  /-- in `waiters_`, taken from there by `Fire`, or in a scheduler -/
  | suspended
  | returned
  deriving DecidableEq

/-- Where the call of `Fire` is. -/
inductive FirePc (W : Type)
  /-- not made yet -/
  | idle
  | enter
  | held
  /-- before the next `waiters_.PopFront()` -/
  | drain
  /-- before `Schedule` of a waiter that was not the last on the list -/
  | more (w : W)
  /-- a fiber: the list is empty, `w` was the last on it; before `lock_.unlock()` -/
  | last (w : Option W)
  /-- a coroutine: before `lock_.unlock()`, the list was found to be empty or not -/
  | leave (empty : Bool)
  /-- before `Schedule` of the last waiter, which is the null pointer when there was none -/
  | final (w : Option W)
  | returned
  /-- a coroutine: `Schedule` was called with the null pointer -/
  | crashed

/-- Who has taken the spinlock. -/
inductive Holder (W : Type)
  | wait (w : W)
  | fire

/-- An event, the waiters in the schedulers, the history, and the calls. -/
structure State (W : Type) where
  alive : Bool
  lock : Option (Holder W)
  fired : Bool
  waiters : List W
  queued : List W
  log : List (Gate.Event W Unit)
  wait : W → WaitPc
  fire : FirePc W

namespace State

variable [DecidableEq W]

def goto (s : State W) (w : W) (pc : WaitPc) : State W := { s with wait := Function.update s.wait w pc }

/-- `waiters_.PushBack`. -/
def push (s : State W) (w : W) : State W :=
  { s with waiters := s.waiters ++ [w], log := s.log ++ [.register w] }

omit [DecidableEq W] in
/-- `fired_ = true`. -/
def setFired (s : State W) : State W := { s with fired := true, log := s.log ++ [.opened ()] }

omit [DecidableEq W] in
/-- `waiters_.PopFront()`, and what `Fire` goes on with when that leaves the list empty. -/
def popFront (s : State W) (last : Option W → FirePc W) : State W :=
  match s.waiters with
  | [] => { s with fire := last none }
  | [w] => { s with waiters := [], fire := last (some w) }
  | w :: ws => { s with waiters := ws, fire := .more w }

omit [DecidableEq W] in
/-- `Schedule` by `Fire`. -/
def schedule (s : State W) (w : W) : State W :=
  { s with queued := s.queued ++ [w], log := s.log ++ [.wake () w] }

omit [DecidableEq W] in
/-- `Schedule` by the awaiter. -/
def scheduleSelf (s : State W) (w : W) : State W :=
  { s with queued := s.queued ++ [w], log := s.log ++ [.pass w] }

end State

section Steps

variable [DecidableEq W]

inductive Step (flavor : Flavor) (s : State W) : State W → Prop
  -- `Wait`
  | callWait {w : W} (halive : s.alive = true) (hpc : s.wait w = .idle) : Step flavor s (s.goto w .enter)
  | waitLock {w : W} (hpc : s.wait w = .enter) (hlock : s.lock = none) :
      Step flavor s { s.goto w .held with lock := some (.wait w) }
  | waitFired {w : W} (hpc : s.wait w = .held) (hfired : s.fired = true) :
      Step flavor s (s.goto w .passing)
  | waitPush {w : W} (hpc : s.wait w = .held) (hfired : s.fired = false) :
      Step flavor s ((s.push w).goto w .pushed)
  | passUnlock {w : W} (hflavor : flavor = .fiber) (hpc : s.wait w = .passing) :
      Step flavor s { s.goto w .schedule with lock := none }
  | passSchedule {w : W} (hpc : s.wait w = .schedule) :
      Step flavor s ((s.scheduleSelf w).goto w .suspended)
  | passReturn {w : W} (hflavor : flavor = .coro) (hpc : s.wait w = .passing) :
      Step flavor s { s.goto w .returned with lock := none, log := s.log ++ [.pass w] }
  | pushUnlock {w : W} (hpc : s.wait w = .pushed) :
      Step flavor s { s.goto w .suspended with lock := none }
  -- a scheduler resumes the waiter
  | resume {w : W} (hpc : s.wait w = .suspended) (hmem : w ∈ s.queued) :
      Step flavor s { s.goto w .returned with queued := s.queued.erase w }
  -- `Fire`
  | callFire (hpc : s.fire = .idle) : Step flavor s { s with fire := .enter }
  | fireLock (hpc : s.fire = .enter) (hlock : s.lock = none) :
      Step flavor s { s with fire := .held, lock := some .fire }
  | fireFiber (hflavor : flavor = .fiber) (hpc : s.fire = .held) :
      Step flavor s { s.setFired with fire := .drain }
  | fireCoro (hflavor : flavor = .coro) (hpc : s.fire = .held) :
      Step flavor s { s.setFired with fire := .leave s.waiters.isEmpty }
  | leave {empty : Bool} (hpc : s.fire = .leave empty) :
      Step flavor s { s with fire := if empty then .returned else .drain, lock := none }
  | popFiber (hflavor : flavor = .fiber) (hpc : s.fire = .drain) : Step flavor s (s.popFront .last)
  | popCoro (hflavor : flavor = .coro) (hpc : s.fire = .drain) : Step flavor s (s.popFront .final)
  | more {w : W} (hpc : s.fire = .more w) : Step flavor s { s.schedule w with fire := .drain }
  | lastUnlock {w : Option W} (hpc : s.fire = .last w) :
      Step flavor s { s with fire := .final w, lock := none }
  | final {w : W} (hpc : s.fire = .final (some w)) : Step flavor s { s.schedule w with fire := .returned }
  | finalFiber (hflavor : flavor = .fiber) (hpc : s.fire = .final none) :
      Step flavor s { s with fire := .returned }
  | finalCoro (hflavor : flavor = .coro) (hpc : s.fire = .final none) :
      Step flavor s { s with fire := .crashed }
  -- the owner
  | destroy (hcalled : ∃ w, s.wait w ≠ .idle) (hreturned : ∀ w, s.wait w = .idle ∨ s.wait w = .returned) :
      Step flavor s { s with alive := false }

end Steps

/-- A new event, and no call made yet. -/
def initial : State W := ⟨true, none, false, [], [], [], fun _ => .idle, .idle⟩

def system (W : Type) [DecidableEq W] (flavor : Flavor) : System (State W) where
  init s := s = initial
  step s s' := Step flavor s s'

/-- The next step of a call reads or writes a field of the event. -/
def WaitPc.touches : WaitPc → Bool
  | .enter | .held | .passing | .pushed => true
  | .idle | .schedule | .suspended | .returned => false

/-- The next step of `Fire` reads or writes a field of the event. -/
def FirePc.touches : FirePc W → Bool
  | .enter | .held | .drain | .last _ | .leave _ => true
  | .idle | .more _ | .final _ | .returned | .crashed => false

end CppConcur.Sync.Event
