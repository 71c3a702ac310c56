import CppConcur.Logic.Transition
import Mathlib.Algebra.Group.Nat.Defs

/-!
# The spinlocks of the coroutine primitives

`ScopedLockMutex`, `RunMutex` and `coro::WaitGroup` keep a list of waiting coroutines under a spinlock.
`Unlock` and `Done` schedule waiters from inside the locked section, and `Schedule()` runs the waiter
on the spot when its coroutine has no scheduler, or has `sched::Inline()`. What the resumed coroutine
does next is user code, so a thread is a stack of calls: user code at the top may call the primitives
again while a call below holds a spinlock.

User code is arbitrary: a coroutine, or the function of a critical section, may make any call at any
time, start coroutines and run submitted tasks. `RunLoop` and thread pools only differ in which thread
takes a task, and here any thread may.
-/

namespace CppConcur.Coro

open Logic

variable {Tid Cid Oid : Type}

/-- The primitives. -/
inductive Kind
  | scopedLock
  | run
  | waitGroup
  deriving DecidableEq

/-- The scheduler of a coroutine: none, `sched::Inline()`, or one whose `Submit` only enqueues. -/
inductive Sched
  | null
  | inline
  | queue
  deriving DecidableEq

/-- The fields of a primitive next to its spinlock: `locked_` of the mutexes, `n_wait_` of the wait
group, and the coroutines in `waiters_`. -/
structure Obj (Cid : Type) where
  locked : Bool
  nWait : Nat
  waiters : List Cid

/-- The functions that take the spinlock: `Lock` for the awaiter of a coroutine, `Unlock`, `Add`,
`Done`, and `WaitSuspend` for the awaiter of a coroutine. -/
inductive Call (Cid : Type)
  | lock (c : Cid)
  | unlock
  | add (n : Nat)
  | done
  | wait (c : Cid)

/-- Where a call is. -/
inductive Stage
  /-- `lock_.lock()` is next -/
  | enter
  /-- the spinlock is held and the body is next -/
  | held
  /-- in the loop of `Done`, with the spinlock held -/
  | waking
  /-- `Schedule()` has returned and `lock_.unlock()` is next -/
  | closing
  /-- in `Done`, after `lock_.unlock()` -/
  | last

/-- A frame of a thread's stack: user code, of a coroutine if it can be suspended, or a call. -/
inductive Frame (Oid Cid : Type)
  | code (c : Option Cid)
  | call (o : Oid) (k : Call Cid) (st : Stage)

/-- What is submitted to a scheduler: a waiter of a primitive, or a coroutine that jumped. -/
inductive Task (Oid Cid : Type)
  | waiter (o : Oid) (c : Cid)
  | jumped (c : Cid)

structure Mem (Tid Cid Oid : Type) where
  obj : Oid → Obj Cid
  /-- the thread that holds the spinlock of a primitive -/
  spin : Oid → Option Tid
  /-- the scheduler of each coroutine -/
  sched : Cid → Sched
  /-- the tasks in the schedulers -/
  queued : List (Task Oid Cid)

/-- `Run()` of a waiter: that of `RunMutex` calls its function and unlocks before it resumes the
coroutine. The innermost frame comes first. -/
def resumed (kind : Oid → Kind) (o : Oid) (c : Cid) : List (Frame Oid Cid) :=
  match kind o with
  | .run => [.code none, .call o .unlock .enter, .code (some c)]
  | .scopedLock => [.code (some c)]
  | .waitGroup => [.code (some c)]

/-- `await_suspend` after `Lock` has returned true: `RunMutex` calls its function and unlocks. -/
def acquired (kind : Oid → Kind) (o : Oid) : List (Frame Oid Cid) :=
  match kind o with
  | .run => [.code none, .call o .unlock .enter]
  | .scopedLock => []
  | .waitGroup => []

/-- The frames of a task. -/
def Task.frames (kind : Oid → Kind) : Task Oid Cid → List (Frame Oid Cid)
  | .waiter o c => resumed kind o c
  | .jumped c => [.code (some c)]

/-- The values of `size_t`. -/
def word : Nat := 2 ^ 64

/-- A thread that can do anything: it has nothing to do, or user code runs on it. -/
inductive Free : List (Frame Oid Cid) → Prop
  | idle : Free []
  | code (c : Option Cid) (fs : List (Frame Oid Cid)) : Free (.code c :: fs)

namespace Mem

variable [DecidableEq Oid]

def setObj (m : Mem Tid Cid Oid) (o : Oid) (x : Obj Cid) : Mem Tid Cid Oid :=
  { m with obj := Function.update m.obj o x }

/-- `lock_.lock()`. -/
def acquire (m : Mem Tid Cid Oid) (o : Oid) (t : Tid) : Mem Tid Cid Oid :=
  { m with spin := Function.update m.spin o (some t) }

/-- `lock_.unlock()`. -/
def release (m : Mem Tid Cid Oid) (o : Oid) : Mem Tid Cid Oid :=
  { m with spin := Function.update m.spin o none }

omit [DecidableEq Oid] in
/-- `Submit` of a scheduler that only enqueues. -/
def submit (m : Mem Tid Cid Oid) (task : Task Oid Cid) : Mem Tid Cid Oid :=
  { m with queued := m.queued ++ [task] }

end Mem

section Actions

variable [DecidableEq Oid] [DecidableEq Cid]

/-- One step of a thread. -/
inductive Act (kind : Oid → Kind) (t : Tid) (m : Mem Tid Cid Oid) :
    List (Frame Oid Cid) → Mem Tid Cid Oid → List (Frame Oid Cid) → Prop
  -- user code
  | await {o : Oid} {c : Cid} {fs : List (Frame Oid Cid)} (hkind : kind o ≠ .waitGroup) :
      Act kind t m (.code (some c) :: fs) m (.call o (.lock c) .enter :: .code (some c) :: fs)
  | unlock {o : Oid} {c : Option Cid} {fs : List (Frame Oid Cid)} (hkind : kind o = .scopedLock) :
      Act kind t m (.code c :: fs) m (.call o .unlock .enter :: .code c :: fs)
  | add {o : Oid} {n : Nat} {c : Option Cid} {fs : List (Frame Oid Cid)} (hkind : kind o = .waitGroup) :
      Act kind t m (.code c :: fs) m (.call o (.add n) .enter :: .code c :: fs)
  | done {o : Oid} {c : Option Cid} {fs : List (Frame Oid Cid)} (hkind : kind o = .waitGroup) :
      Act kind t m (.code c :: fs) m (.call o .done .enter :: .code c :: fs)
  | wait {o : Oid} {c : Cid} {fs : List (Frame Oid Cid)} (hkind : kind o = .waitGroup) :
      Act kind t m (.code (some c) :: fs) m (.call o (.wait c) .enter :: .code (some c) :: fs)
  | start {c : Cid} {fs : List (Frame Oid Cid)} (hfree : Free fs) :
      Act kind t m fs { m with sched := Function.update m.sched c .null } (.code (some c) :: fs)
  | run {task : Task Oid Cid} {before after : List (Task Oid Cid)} {fs : List (Frame Oid Cid)}
      (hfree : Free fs) (hqueued : m.queued = before ++ task :: after) :
      Act kind t m fs { m with queued := before ++ after } (task.frames kind ++ fs)
  | ret {c : Option Cid} {fs : List (Frame Oid Cid)} : Act kind t m (.code c :: fs) m fs
  -- `JumpTo`
  | jumpQueue {c : Cid} {fs : List (Frame Oid Cid)} :
      Act kind t m (.code (some c) :: fs)
        ({ m with sched := Function.update m.sched c .queue }.submit (.jumped c)) fs
  | jumpInline {c : Cid} {fs : List (Frame Oid Cid)} :
      Act kind t m (.code (some c) :: fs) { m with sched := Function.update m.sched c .inline }
        (.code (some c) :: fs)
  -- the spinlock
  | lock {o : Oid} {k : Call Cid} {fs : List (Frame Oid Cid)} (hfree : m.spin o = none) :
      Act kind t m (.call o k .enter :: fs) (m.acquire o t) (.call o k .held :: fs)
  -- `Lock`
  | lockFree {o : Oid} {c : Cid} {fs : List (Frame Oid Cid)} (hlocked : (m.obj o).locked = false) :
      Act kind t m (.call o (.lock c) .held :: fs)
        ((m.setObj o { m.obj o with locked := true }).release o) (acquired kind o ++ fs)
  | lockPark {o : Oid} {c : Cid} {fs : List (Frame Oid Cid)} (hlocked : (m.obj o).locked = true) :
      Act kind t m (.call o (.lock c) .held :: .code (some c) :: fs)
        ((m.setObj o { m.obj o with waiters := (m.obj o).waiters ++ [c] }).release o) fs
  -- `Unlock`
  | unlockEmpty {o : Oid} {fs : List (Frame Oid Cid)} (hwaiters : (m.obj o).waiters = []) :
      Act kind t m (.call o .unlock .held :: fs)
        ((m.setObj o { m.obj o with locked := false }).release o) fs
  | unlockQueue {o : Oid} {w : Cid} {ws : List Cid} {fs : List (Frame Oid Cid)}
      (hwaiters : (m.obj o).waiters = w :: ws) (hsched : m.sched w = .queue) :
      Act kind t m (.call o .unlock .held :: fs)
        (((m.setObj o { m.obj o with locked := true, waiters := ws }).submit (.waiter o w)).release o)
        fs
  | unlockInline {o : Oid} {w : Cid} {ws : List Cid} {fs : List (Frame Oid Cid)}
      (hwaiters : (m.obj o).waiters = w :: ws) (hsched : m.sched w ≠ .queue) :
      Act kind t m (.call o .unlock .held :: fs)
        (m.setObj o { m.obj o with locked := true, waiters := ws })
        (resumed kind o w ++ .call o .unlock .closing :: fs)
  | unlockClose {o : Oid} {fs : List (Frame Oid Cid)} :
      Act kind t m (.call o .unlock .closing :: fs) (m.release o) fs
  -- `Add`
  | addBody {o : Oid} {n : Nat} {fs : List (Frame Oid Cid)} :
      Act kind t m (.call o (.add n) .held :: fs)
        ((m.setObj o { m.obj o with nWait := ((m.obj o).nWait + n) % word }).release o) fs
  -- `Done`
  | doneReturn {o : Oid} {n : Nat} {fs : List (Frame Oid Cid)}
      (hn : n = ((m.obj o).nWait + (word - 1)) % word) (hdone : n ≠ 0 ∨ (m.obj o).waiters = []) :
      Act kind t m (.call o .done .held :: fs) ((m.setObj o { m.obj o with nWait := n }).release o) fs
  | doneZero {o : Oid} {fs : List (Frame Oid Cid)} (hn : ((m.obj o).nWait + (word - 1)) % word = 0)
      (hwaiters : (m.obj o).waiters ≠ []) :
      Act kind t m (.call o .done .held :: fs) (m.setObj o { m.obj o with nWait := 0 })
        (.call o .done .waking :: fs)
  | wakeQueue {o : Oid} {w w' : Cid} {ws : List Cid} {fs : List (Frame Oid Cid)}
      (hwaiters : (m.obj o).waiters = w :: w' :: ws) (hsched : m.sched w = .queue) :
      Act kind t m (.call o .done .waking :: fs)
        ((m.setObj o { m.obj o with waiters := w' :: ws }).submit (.waiter o w))
        (.call o .done .waking :: fs)
  | wakeInline {o : Oid} {w w' : Cid} {ws : List Cid} {fs : List (Frame Oid Cid)}
      (hwaiters : (m.obj o).waiters = w :: w' :: ws) (hsched : m.sched w ≠ .queue) :
      Act kind t m (.call o .done .waking :: fs) (m.setObj o { m.obj o with waiters := w' :: ws })
        (resumed kind o w ++ .call o .done .waking :: fs)
  | wakeLast {o : Oid} {fs : List (Frame Oid Cid)} (hwaiters : (m.obj o).waiters.length ≤ 1) :
      Act kind t m (.call o .done .waking :: fs) (m.release o) (.call o .done .last :: fs)
  | lastQueue {o : Oid} {w : Cid} {ws : List Cid} {fs : List (Frame Oid Cid)}
      (hwaiters : (m.obj o).waiters = w :: ws) (hsched : m.sched w = .queue) :
      Act kind t m (.call o .done .last :: fs)
        ((m.setObj o { m.obj o with waiters := ws }).submit (.waiter o w)) fs
  | lastInline {o : Oid} {w : Cid} {ws : List Cid} {fs : List (Frame Oid Cid)}
      (hwaiters : (m.obj o).waiters = w :: ws) (hsched : m.sched w ≠ .queue) :
      Act kind t m (.call o .done .last :: fs) (m.setObj o { m.obj o with waiters := ws })
        (resumed kind o w ++ fs)
  -- `WaitSuspend`
  | waitReturn {o : Oid} {c : Cid} {fs : List (Frame Oid Cid)} (hn : (m.obj o).nWait = 0) :
      Act kind t m (.call o (.wait c) .held :: fs) (m.release o) fs
  | waitPark {o : Oid} {c : Cid} {fs : List (Frame Oid Cid)} (hn : (m.obj o).nWait ≠ 0) :
      Act kind t m (.call o (.wait c) .held :: .code (some c) :: fs)
        ((m.setObj o { m.obj o with waiters := (m.obj o).waiters ++ [c] }).release o) fs

variable [DecidableEq Tid]

def program (kind : Oid → Kind) : Program Tid (Mem Tid Cid Oid) (List (Frame Oid Cid)) :=
  fun t m fs m' fs' => Act kind t m fs m' fs'

/-- New primitives, no coroutines, and threads with nothing to do. -/
def Initial (c : Conf Tid (Mem Tid Cid Oid) (List (Frame Oid Cid))) : Prop :=
  (∀ o, c.mem.obj o = ⟨false, 0, []⟩ ∧ c.mem.spin o = none) ∧ c.mem.queued = [] ∧ ∀ t, c.pc t = []

def system (Tid Cid : Type) {Oid : Type} [DecidableEq Tid] [DecidableEq Cid] [DecidableEq Oid]
    (kind : Oid → Kind) : System (Conf Tid (Mem Tid Cid Oid) (List (Frame Oid Cid))) :=
  (program kind).system Initial

end Actions

end CppConcur.Coro
