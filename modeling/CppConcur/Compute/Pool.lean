import CppConcur.Logic.Transition
import Mathlib.Data.Fintype.Basic

/-!
# The thread pool over a blocking queue

`IntrusiveUnboundedBlockingQueue` and `ThreadPool` of `tp::compute`: `Push`, `Pop` and `Close` under
one mutex with one condition variable, workers that pop and run tasks until `Pop` returns nothing,
and `Stop`, which closes the queue and joins the workers.

Taking and releasing the mutex, the reads and writes of the queue, the calls of `notify_one` and
`notify_all` and the parts of `CV.wait` are separate steps. `CV.wait` releases the mutex and goes to
sleep in one step; a sleeping worker is woken by a notification or for no reason at all, and takes
the mutex again before it looks at the predicate.

A task is named by the number of the `Submit` call that submitted it. `log` is the order in which
calls of `Push` and `Close` took the mutex; it and the histories `submitted`, `popped`, `started` and
`finished` are not part of the source. `waiters_` is an `Int` here, so that a decrement of zero would
be seen as a negative value.
-/

namespace CppConcur.Compute

/-- The number of the `Submit` call that submitted the task. -/
abbrev Task := Nat

/-- The threads: the workers, threads outside the pool that call `Submit`, and one that calls `Stop`. -/
inductive Thread (n : Nat) (Client : Type*) where
  | worker (i : Fin n)
  | client (e : Client)
  | stopper
  deriving DecidableEq

/-- A call that took the mutex. -/
inductive Entry where
  | push (task : Task)
  | close
  deriving DecidableEq

/-- The queue and the pool: `mutex_`, `queue_`, `closed_`, `waiters_`, the workers that sleep on `CV`
without a notification, and those whose thread has ended. -/
structure Mem (n : Nat) (Client : Type*) where
  mutex : Option (Thread n Client)
  queue : List Task
  closed : Bool
  waiters : Int
  sleeping : Fin n → Bool
  exited : Fin n → Bool
  submitted : Nat
  log : List Entry
  popped : List Task
  started : List Task
  finished : List Task

/-- A pool after `Start`. -/
def Mem.start (n : Nat) (Client : Type*) : Mem n Client where
  mutex := none
  queue := []
  closed := false
  waiters := 0
  sleeping := fun _ => false
  exited := fun _ => false
  submitted := 0
  log := []
  popped := []
  started := []
  finished := []

/-- Where a thread is, with its local variables. In `Push`, `current` is the task that calls `Submit`,
or `none` for a thread outside the pool. -/
inductive Pc (n : Nat) where
  | idle
  -- `Push`
  | pushLock (current : Option Task) (task : Task)
  | pushBody (current : Option Task) (task : Task)
  | pushNotify (current : Option Task)
  | pushUnlock (current : Option Task)
  -- `Pop` and the loop of a worker around it
  | popLock
  | popEnter
  | popTest
  | blocked
  | relock
  | popTake
  | popUnlock (result : Option Task)
  | running (current : Task)
  | exited
  | crashed
  -- `Close` and `Stop`
  | closeLock
  | closeSet
  | closeNotify
  | closeUnlock
  | join (i : Fin n)
  | stopReturned

variable {n : Nat} {Client : Type*}

/-- The return of `Submit`: to the running task, or out of the pool. -/
def submitDone : Option Task → Pc n
  | none => .idle
  | some current => .running current

/-- The head of the loop of `Stop` that joins the workers. -/
def joinNext (j : Nat) : Pc n := if h : j < n then .join ⟨j, h⟩ else .stopReturned

/-- The actions of a thread. -/
inductive Act : Thread n Client → Mem n Client → Pc n → Mem n Client → Pc n → Prop
  -- `Submit`, from outside or from a running task
  | call {e : Client} {m : Mem n Client} :
      Act (.client e) m .idle { m with submitted := m.submitted + 1 } (.pushLock none m.submitted)
  | callInside {i : Fin n} {m : Mem n Client} {current : Task} :
      Act (.worker i) m (.running current) { m with submitted := m.submitted + 1 } (.pushLock (some current) m.submitted)
  | pushLock {t : Thread n Client} {m : Mem n Client} {current : Option Task} {task : Task} (hfree : m.mutex = none) :
      Act t m (.pushLock current task) { m with mutex := some t, log := m.log ++ [.push task] } (.pushBody current task)
  | pushClosed {t : Thread n Client} {m : Mem n Client} {current : Option Task} {task : Task} (hclosed : m.closed = true) :
      Act t m (.pushBody current task) m (.pushUnlock current)
  | pushBack {t : Thread n Client} {m : Mem n Client} {current : Option Task} {task : Task} (hopen : m.closed = false) :
      Act t m (.pushBody current task) { m with queue := m.queue ++ [task] }
        (if 0 < m.waiters then .pushNotify current else .pushUnlock current)
  | notifyOne {t : Thread n Client} {m : Mem n Client} {current : Option Task} (v : Fin n) (hsleeping : m.sleeping v = true) :
      Act t m (.pushNotify current) { m with sleeping := Function.update m.sleeping v false } (.pushUnlock current)
  | notifyNone {t : Thread n Client} {m : Mem n Client} {current : Option Task} (hnone : ∀ v, m.sleeping v = false) :
      Act t m (.pushNotify current) m (.pushUnlock current)
  | pushUnlock {t : Thread n Client} {m : Mem n Client} {current : Option Task} :
      Act t m (.pushUnlock current) { m with mutex := none } (submitDone current)
  -- `Pop`
  | popLock {i : Fin n} {m : Mem n Client} (hfree : m.mutex = none) :
      Act (.worker i) m .popLock { m with mutex := some (.worker i) } .popEnter
  | popEnter {i : Fin n} {m : Mem n Client} : Act (.worker i) m .popEnter { m with waiters := m.waiters + 1 } .popTest
  | popReady {i : Fin n} {m : Mem n Client} (hready : m.queue ≠ [] ∨ m.closed = true) :
      Act (.worker i) m .popTest { m with waiters := m.waiters - 1 } .popTake
  | popWait {i : Fin n} {m : Mem n Client} (hempty : m.queue = []) (hopen : m.closed = false) :
      Act (.worker i) m .popTest { m with mutex := none, sleeping := Function.update m.sleeping i true } .blocked
  | wake {i : Fin n} {m : Mem n Client} (hnotified : m.sleeping i = false) : Act (.worker i) m .blocked m .relock
  | wakeSpuriously {i : Fin n} {m : Mem n Client} :
      Act (.worker i) m .blocked { m with sleeping := Function.update m.sleeping i false } .relock
  | relock {i : Fin n} {m : Mem n Client} (hfree : m.mutex = none) :
      Act (.worker i) m .relock { m with mutex := some (.worker i) } .popTest
  | popNull {i : Fin n} {m : Mem n Client} (hclosed : m.closed = true) (hempty : m.queue = []) :
      Act (.worker i) m .popTake m (.popUnlock none)
  | popFront {i : Fin n} {m : Mem n Client} {task : Task} {rest : List Task} (hqueue : m.queue = task :: rest) :
      Act (.worker i) m .popTake { m with queue := rest, popped := m.popped ++ [task] } (.popUnlock (some task))
  | popFrontEmpty {i : Fin n} {m : Mem n Client} (hopen : m.closed = false) (hempty : m.queue = []) :
      Act (.worker i) m .popTake m .crashed
  -- the loop of the worker
  | run {i : Fin n} {m : Mem n Client} {task : Task} :
      Act (.worker i) m (.popUnlock (some task)) { m with mutex := none, started := m.started ++ [task] } (.running task)
  | finish {i : Fin n} {m : Mem n Client} {current : Task} :
      Act (.worker i) m (.running current) { m with finished := m.finished ++ [current] } .popLock
  | exit {i : Fin n} {m : Mem n Client} :
      Act (.worker i) m (.popUnlock none) { m with mutex := none, exited := Function.update m.exited i true } .exited
  -- `Close` and `Stop`
  | stop {m : Mem n Client} : Act .stopper m .idle m .closeLock
  | closeLock {m : Mem n Client} (hfree : m.mutex = none) :
      Act .stopper m .closeLock { m with mutex := some .stopper, log := m.log ++ [.close] } .closeSet
  | closeSet {m : Mem n Client} : Act .stopper m .closeSet { m with closed := true } .closeNotify
  | notifyAll {m : Mem n Client} : Act .stopper m .closeNotify { m with sleeping := fun _ => false } .closeUnlock
  | closeUnlock {m : Mem n Client} : Act .stopper m .closeUnlock { m with mutex := none } (joinNext 0)
  | join {m : Mem n Client} {i : Fin n} (hexited : m.exited i = true) : Act .stopper m (.join i) m (joinNext (i + 1))

/-- Where a thread starts. -/
def Thread.start : Thread n Client → Pc n
  | .worker _ => .popLock
  | .client _ => .idle
  | .stopper => .idle

/-- Every interleaving of the workers of a pool, its clients and one call of `Stop`. -/
def system (n : Nat) (Client : Type*) [DecidableEq Client] :
    Logic.System (Logic.Conf (Thread n Client) (Mem n Client) (Pc n)) :=
  Logic.Program.system Act fun c => c.mem = .start n Client ∧ ∀ t, c.pc t = t.start

/-- The tasks whose `Push` took the mutex before `Close` did, in this order. -/
def admitted : List Entry → List Task
  | [] => []
  | .push task :: log => task :: admitted log
  | .close :: _ => []

end CppConcur.Compute
