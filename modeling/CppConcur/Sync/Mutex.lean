import CppConcur.Logic.Handoff
import CppConcur.Logic.Transition

/-!
# The mutexes of fibers and coroutines

`fiber::Mutex`, `ScopedLockMutex` and `RunMutex` keep a flag and a list of waiters under a spinlock. An
`Unlock` that finds waiters leaves the flag set and schedules the first of them, which then has the
mutex before it runs. They differ in what happens around the locked sections: a fiber is always
suspended by `Lock`, and its awaiter schedules it again when the mutex is free; a coroutine goes on
when the mutex is free, and with `RunMutex` the function of the critical section is called, and the
mutex given back, before the coroutine continues.

A participant is a fiber or a coroutine. Its code runs on one thread at a time. Which one that is, and
what the thread does in between, is left open: a scheduler only collects what is submitted to it, and
a participant in a scheduler may be resumed at any time. It may then run, and call `Unlock`, while the
awaiter that put it there has not returned and holds the spinlock.
-/

namespace CppConcur.Sync

open Logic Logic.Handoff

variable {P : Type}

/-- The mutexes. -/
inductive Flavor
  | fiber
  | scopedLock
  | run
  deriving DecidableEq

/-- The spinlock. -/
inductive Spin (P : Type)
  | free
  /-- taken by a call of `p` that has not returned -/
  | held (p : P)
  /-- taken by the awaiter of `p`, which has suspended or scheduled `p` and is about to return -/
  | returning (p : P)

/-- The fields of a mutex, the participants in the schedulers, and the history of the mutex. -/
structure Mem (P : Type) where
  spin : Spin P
  locked : Bool
  waiters : List P
  queued : List P
  log : List (Event P)

namespace Mem

/-- `locked_ = true` in the name of a participant that found the mutex free. -/
def acquire (m : Mem P) (p : P) : Mem P :=
  { m with locked := true, log := m.log ++ [.acquire p] }

/-- `waiters_.PushBack`. -/
def push (m : Mem P) (p : P) : Mem P :=
  { m with waiters := m.waiters ++ [p], log := m.log ++ [.push p] }

/-- `Schedule`, with a scheduler whose `Submit` only enqueues. -/
def schedule (m : Mem P) (p : P) : Mem P :=
  { m with queued := m.queued ++ [p], log := m.log ++ [.schedule p] }

/-- The awaiter of `fiber::Mutex::Lock`. -/
def awaitLock (m : Mem P) (p : P) : Mem P :=
  if !m.locked then (m.acquire p).schedule p else m.push p

/-- `ScopedLockMutex::Lock` and `RunMutex::Lock`. -/
def lock (m : Mem P) (p : P) : Bool × Mem P :=
  if !m.locked then (true, m.acquire p) else (false, m.push p)

/-- `fiber::Mutex::TryLock`. -/
def tryLock (m : Mem P) (p : P) : Bool × Mem P :=
  if !m.locked then (true, m.acquire p) else (false, m)

/-- `Unlock`, of all mutexes. -/
def unlock (m : Mem P) : Mem P :=
  match m.waiters with
  | [] => { m with locked := false, log := m.log ++ [.release] }
  | w :: ws => { m with locked := true, waiters := ws, log := m.log ++ [Event.handOver w] }.schedule w

end Mem

/-- Before the spinlock is taken, and in the locked section. -/
inductive Stage
  | enter
  | held

/-- Where a participant is. `owns` says whether it has the mutex from an earlier call. -/
inductive Pc
  /-- in its own code -/
  | code (owns : Bool)
  /-- in `Lock`; a fiber has been switched out and its awaiter runs -/
  | lock (owns : Bool) (st : Stage)
  /-- `Lock` of a coroutine returns true -/
  | acquired
  /-- suspended in `Lock` -/
  | suspended (owns : Bool)
  | tryLock (owns : Bool) (st : Stage)
  /-- `TryLock` returns -/
  | tried (owns : Bool)
  /-- in the function of a critical section of `RunMutex` -/
  | critical
  | unlock (st : Stage)
  /-- `Unlock` returns -/
  | unlocked

/-- Where a participant goes on when it has the mutex. -/
def entered : Flavor → Pc
  | .fiber => .code true
  | .scopedLock => .code true
  | .run => .critical

section Actions

variable [DecidableEq P]

/-- One step of a participant, or of its awaiter. Only a participant that has the mutex calls `Unlock`. -/
inductive Act (flavor : Flavor) (p : P) (m : Mem P) : Pc → Mem P → Pc → Prop
  | callLock {owns : Bool} : Act flavor p m (.code owns) m (.lock owns .enter)
  | callTryLock {owns : Bool} (hflavor : flavor = .fiber) :
      Act flavor p m (.code owns) m (.tryLock owns .enter)
  | callUnlock (hflavor : flavor ≠ .run) : Act flavor p m (.code true) m (.unlock .enter)
  | criticalEnd : Act flavor p m .critical m (.unlock .enter)
  -- `lock_.lock()`
  | lockSpin {owns : Bool} (hspin : m.spin = .free) :
      Act flavor p m (.lock owns .enter) { m with spin := .held p } (.lock owns .held)
  | tryLockSpin {owns : Bool} (hspin : m.spin = .free) :
      Act flavor p m (.tryLock owns .enter) { m with spin := .held p } (.tryLock owns .held)
  | unlockSpin (hspin : m.spin = .free) :
      Act flavor p m (.unlock .enter) { m with spin := .held p } (.unlock .held)
  -- the locked sections
  | lockFiber {owns : Bool} (hflavor : flavor = .fiber) :
      Act flavor p m (.lock owns .held) { m.awaitLock p with spin := .returning p } (.suspended owns)
  | lockTrue {owns : Bool} {m' : Mem P} (hflavor : flavor ≠ .fiber) (hlock : m.lock p = (true, m')) :
      Act flavor p m (.lock owns .held) m' .acquired
  | lockFalse {owns : Bool} {m' : Mem P} (hflavor : flavor ≠ .fiber) (hlock : m.lock p = (false, m')) :
      Act flavor p m (.lock owns .held) { m' with spin := .returning p } (.suspended owns)
  | tryLock {owns got : Bool} {m' : Mem P} (htry : m.tryLock p = (got, m')) :
      Act flavor p m (.tryLock owns .held) m' (.tried (got || owns))
  | unlock : Act flavor p m (.unlock .held) m.unlock .unlocked
  -- `lock_.unlock()`
  | awaiterReturn {pc : Pc} (hspin : m.spin = .returning p) : Act flavor p m pc { m with spin := .free } pc
  | lockReturn : Act flavor p m .acquired { m with spin := .free } (entered flavor)
  | tryLockReturn {owns : Bool} : Act flavor p m (.tried owns) { m with spin := .free } (.code owns)
  | unlockReturn : Act flavor p m .unlocked { m with spin := .free } (.code false)
  -- a scheduler resumes the participant
  | resume {owns : Bool} (hmem : p ∈ m.queued) :
      Act flavor p m (.suspended owns) { m with queued := m.queued.erase p } (entered flavor)

/-- A new mutex, and participants that have called nothing. -/
def initial : Conf P (Mem P) Pc :=
  ⟨⟨.free, false, [], [], []⟩, fun _ => .code false⟩

def system (P : Type) [DecidableEq P] (flavor : Flavor) : System (Conf P (Mem P) Pc) :=
  Program.system (fun p m pc m' pc' => Act flavor p m pc m' pc') fun c => c = initial

end Actions

end CppConcur.Sync
