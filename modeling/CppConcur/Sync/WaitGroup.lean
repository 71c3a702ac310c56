import CppConcur.Logic.Gate
import CppConcur.Logic.Transition
import Mathlib.Algebra.Group.Nat.Defs

/-!
# The wait groups of fibers and coroutines

`fiber::WaitGroup` and `coro::WaitGroup` count with a word of 64 bits and keep a list of waiters under a
spinlock. `Wait` puts the caller on the list, unless the count is zero. A `Done` that brings the count
to zero schedules everybody on the list. The group of the fibers takes all of them off the list with the
lock held, and unlocks before it schedules the last one. The group of the coroutines unlocks when one is
left, and takes that one off the list without the lock.

Every call has a name, so that a fiber or a coroutine that makes several calls has several names, one
after the other. `Done` does not count more often than the group was told to expect by `Add`. A waiter in
a scheduler may be resumed at any time.
-/

namespace CppConcur.Sync.WaitGroup

open Logic Logic.Gate

variable {I : Type}

/-- The wait groups. -/
inductive Flavor
  | fiber
  | coro
  deriving DecidableEq

/-- The number of values of `size_t`. -/
def word : Nat := 2 ^ 64

/-- Where a call is. -/
inductive Pc (I : Type)
  /-- not made yet -/
  | idle
  /-- `Add`, before `lock_.lock()` -/
  | addEnter (n : Nat)
  | addHeld (n : Nat)
  | addReturn
  /-- `Done`, before `lock_.lock()` -/
  | doneEnter
  | doneHeld
  /-- `Done` has nothing to schedule -/
  | doneReturn
  /-- with the lock, before the next `waiters_.PopFront()` -/
  | drain
  /-- with the lock, before `Schedule` of a waiter that was not the last on the list -/
  | more (w : I)
  /-- a fiber: the list is empty, `w` was the last on it; before `lock_.unlock()` -/
  | last (w : Option I)
  /-- a coroutine: one waiter is left; before `lock_.unlock()` -/
  | leave
  /-- a coroutine: before `waiters_.PopFront()` without the lock -/
  | pop
  /-- before `Schedule` of the last waiter, which is the null pointer when there was none -/
  | final (w : Option I)
  /-- a coroutine: `Schedule` was called with the null pointer -/
  | crashed
  /-- `Add` or `Done` has returned -/
  | returned
  /-- `Wait`, before `lock_.lock()`; a fiber has been switched out and its awaiter runs -/
  | waitEnter
  | waitHeld
  /-- the count was zero; before `lock_.unlock()` -/
  | passing
  /-- a fiber, after `lock_.unlock()` and before `handle.Schedule` -/
  | schedule
  /-- in `waiters_`; before `lock_.unlock()` -/
  | pushed
  /-- in `waiters_`, taken from there by `Done`, or in a scheduler -/
  | suspended
  /-- `Wait` has returned -/
  | waited

/-- What `Add` and `Done` have counted, a wait group, the waiters in the schedulers, the history, and the
calls. -/
structure State (I : Type) where
  added : Nat
  done : Nat
  lock : Option I
  count : Nat
  waiters : List I
  queued : List I
  log : List (Gate.Event I I)
  pc : I → Pc I

namespace State

/-- `running_ += n`. -/
def add (s : State I) (n : Nat) : State I :=
  { s with count := (s.count + n) % word, added := s.added + n }

/-- `running_--`. -/
def decrement (s : State I) : State I :=
  { s with count := (s.count + (word - 1)) % word, done := s.done + 1 }

/-- The count has become zero; only the history records it. -/
def reachZero (s : State I) (d : I) : State I := { s with log := s.log ++ [.opened d] }

/-- `waiters_.PushBack`. -/
def push (s : State I) (i : I) : State I :=
  { s with waiters := s.waiters ++ [i], log := s.log ++ [.register i] }

/-- `Schedule` by `Done`. -/
def wake (s : State I) (d i : I) : State I :=
  { s with queued := s.queued ++ [i], log := s.log ++ [.wake d i] }

/-- `Schedule` by the awaiter. -/
def scheduleSelf (s : State I) (i : I) : State I :=
  { s with queued := s.queued ++ [i], log := s.log ++ [.pass i] }

variable [DecidableEq I]

def goto (s : State I) (i : I) (x : Pc I) : State I := { s with pc := Function.update s.pc i x }

/-- The locked section of `Done` up to the first `PopFront`. -/
def doneSection (s : State I) (flavor : Flavor) (d : I) : State I :=
  if s.decrement.count ≠ 0 then s.decrement.goto d .doneReturn
  else if flavor = .coro ∧ s.waiters = [] then (s.decrement.reachZero d).goto d .doneReturn
  else (s.decrement.reachZero d).goto d .drain

/-- One turn of the loop of `Done`. -/
def turn (s : State I) (flavor : Flavor) (d : I) : State I :=
  match s.waiters with
  | [] =>
    match flavor with
    | .fiber => s.goto d (.last none)
    | .coro => s.goto d .leave
  | [w] =>
    match flavor with
    | .fiber => { s.goto d (.last (some w)) with waiters := [] }
    | .coro => s.goto d .leave
  | w :: ws => { s.goto d (.more w) with waiters := ws }

/-- `PopFront` of a coroutine, after the loop. -/
def popLast (s : State I) (d : I) : State I :=
  { s.goto d (.final s.waiters.head?) with waiters := s.waiters.tail }

end State

section Steps

variable [DecidableEq I]

inductive Step (flavor : Flavor) (s : State I) : State I → Prop
  -- `Add`
  | callAdd {i : I} {n : Nat} (hn : n < word) (hpc : s.pc i = .idle) : Step flavor s (s.goto i (.addEnter n))
  | addLock {i : I} {n : Nat} (hpc : s.pc i = .addEnter n) (hlock : s.lock = none) :
      Step flavor s { s.goto i (.addHeld n) with lock := some i }
  | add {i : I} {n : Nat} (hpc : s.pc i = .addHeld n) : Step flavor s ((s.add n).goto i .addReturn)
  | addUnlock {i : I} (hpc : s.pc i = .addReturn) : Step flavor s { s.goto i .returned with lock := none }
  -- `Done`
  | callDone {i : I} (hpc : s.pc i = .idle) : Step flavor s (s.goto i .doneEnter)
  | doneLock {i : I} (hpc : s.pc i = .doneEnter) (hlock : s.lock = none) :
      Step flavor s { s.goto i .doneHeld with lock := some i }
  | done {i : I} (hpc : s.pc i = .doneHeld) (hdone : s.done < s.added) : Step flavor s (s.doneSection flavor i)
  | doneUnlock {i : I} (hpc : s.pc i = .doneReturn) : Step flavor s { s.goto i .returned with lock := none }
  | turn {i : I} (hpc : s.pc i = .drain) : Step flavor s (s.turn flavor i)
  | more {i w : I} (hpc : s.pc i = .more w) : Step flavor s ((s.wake i w).goto i .drain)
  | lastUnlock {i : I} {w : Option I} (hpc : s.pc i = .last w) :
      Step flavor s { s.goto i (.final w) with lock := none }
  | leave {i : I} (hpc : s.pc i = .leave) : Step flavor s { s.goto i .pop with lock := none }
  | pop {i : I} (hpc : s.pc i = .pop) : Step flavor s (s.popLast i)
  | final {i w : I} (hpc : s.pc i = .final (some w)) : Step flavor s ((s.wake i w).goto i .returned)
  | finalFiber {i : I} (hflavor : flavor = .fiber) (hpc : s.pc i = .final none) :
      Step flavor s (s.goto i .returned)
  | finalCoro {i : I} (hflavor : flavor = .coro) (hpc : s.pc i = .final none) :
      Step flavor s (s.goto i .crashed)
  -- `Wait`
  | callWait {i : I} (hpc : s.pc i = .idle) : Step flavor s (s.goto i .waitEnter)
  | waitLock {i : I} (hpc : s.pc i = .waitEnter) (hlock : s.lock = none) :
      Step flavor s { s.goto i .waitHeld with lock := some i }
  | waitZero {i : I} (hpc : s.pc i = .waitHeld) (hzero : s.count = 0) : Step flavor s (s.goto i .passing)
  | waitPush {i : I} (hpc : s.pc i = .waitHeld) (hzero : s.count ≠ 0) :
      Step flavor s ((s.push i).goto i .pushed)
  | passUnlock {i : I} (hflavor : flavor = .fiber) (hpc : s.pc i = .passing) :
      Step flavor s { s.goto i .schedule with lock := none }
  | passSchedule {i : I} (hpc : s.pc i = .schedule) : Step flavor s ((s.scheduleSelf i).goto i .suspended)
  | passReturn {i : I} (hflavor : flavor = .coro) (hpc : s.pc i = .passing) :
      Step flavor s { s.goto i .waited with lock := none, log := s.log ++ [.pass i] }
  | pushUnlock {i : I} (hpc : s.pc i = .pushed) : Step flavor s { s.goto i .suspended with lock := none }
  -- a scheduler resumes the waiter
  | resume {i : I} (hpc : s.pc i = .suspended) (hmem : i ∈ s.queued) :
      Step flavor s { s.goto i .waited with queued := s.queued.erase i }

end Steps

/-- A new group, and no call made yet. -/
def initial : State I := ⟨0, 0, none, 0, [], [], [], fun _ => .idle⟩

def system (I : Type) [DecidableEq I] (flavor : Flavor) : System (State I) where
  init s := s = initial
  step s s' := Step flavor s s'

namespace Pc

/-- The call is a `Done` that has begun and not returned. -/
def InDone : Pc I → Prop
  | .doneEnter | .doneHeld | .doneReturn | .drain | .more _ | .last _ | .leave | .pop | .final _ => True
  | .idle | .addEnter _ | .addHeld _ | .addReturn | .crashed | .returned | .waitEnter | .waitHeld | .passing
  | .schedule | .pushed | .suspended | .waited => False

/-- The call is a `Wait` that has begun and not returned. -/
def InWait : Pc I → Prop
  | .waitEnter | .waitHeld | .passing | .schedule | .pushed | .suspended => True
  | .idle | .addEnter _ | .addHeld _ | .addReturn | .doneEnter | .doneHeld | .doneReturn | .drain | .more _
  | .last _ | .leave | .pop | .final _ | .crashed | .returned | .waited => False

/-- The next step of the call reads or writes a field of the group. -/
def touches : Pc I → Bool
  | .addEnter _ | .addHeld _ | .addReturn | .doneEnter | .doneHeld | .doneReturn | .drain | .last _ | .leave
  | .pop | .waitEnter | .waitHeld | .passing | .pushed => true
  | .idle | .more _ | .final _ | .crashed | .returned | .schedule | .suspended | .waited => false

/-- The waiter that `Done` has taken from the list and not yet scheduled. -/
def hand : Pc I → Option I
  | .more w => some w
  | .last w | .final w => w
  | .idle | .addEnter _ | .addHeld _ | .addReturn | .doneEnter | .doneHeld | .doneReturn | .drain | .leave | .pop
  | .crashed | .returned | .waitEnter | .waitHeld | .passing | .schedule | .pushed | .suspended | .waited => none

end Pc

end CppConcur.Sync.WaitGroup
