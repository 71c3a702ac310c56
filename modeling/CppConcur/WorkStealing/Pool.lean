import CppConcur.WorkStealing.Queue
import Mathlib.Data.Fintype.Sum
import Mathlib.Data.List.FinRange
import Mathlib.Data.List.ReduceOption
import Mathlib.Tactic.DeriveFintype

/-!
# The work-stealing thread pool

`ThreadPool` of `tp::fast` with its `Worker`s: the scheduling loop, picking, stealing and offloading
of tasks, parking on the futex `wakeups_`, waking from `Submit` and from `TryWakeOneWorker`, and the
handshake of `Stop`.

Each step is one atomic operation of the source with the private computation around it. The critical
sections of the two spinlocks (the global queue and the deque of waiters) are single steps, and an
operation on a local queue runs through the steps of `WorkStealing.step` on the queue of the worker
it is called for. `futex::Wait(a, old)` is a step that returns once `a` differs from `old`; a
`WakeOne` has no effect of its own on such a `Wait`.

A task is named by the number of the `Submit` call that submitted it. The histories `submitted`,
`started` and `finished` are not part of the source, and neither are the numbers `wakes`: `wakeups_`
is a `uint32_t`, which is `wakes` modulo `2^32`.
-/

namespace CppConcur.WorkStealing.Pool

/-- The number of the `Submit` call that submitted the task. -/
abbrev Task := Nat

/-- `SchedulerHint`. -/
inductive Hint where
  | upToYou
  | next
  | yield

/-- The fields of a `Worker` that are read by its own thread or by others: `local_tasks_`,
`lifo_slot_`, `iter_`, the number of increments of `wakeups_`, `worker_stop_`, and whether its thread
has ended. -/
structure WorkerState where
  queue : Queue Task
  lifo : Option Task
  iter : Nat
  wakes : Nat
  stop : Bool
  exited : Bool

/-- A worker as its constructor leaves it. -/
def WorkerState.start : WorkerState where
  queue := .empty
  lifo := none
  iter := 0
  wakes := 0
  stop := false
  exited := false

/-- The value of a `uint32_t` counter after this many increments. -/
def wakeups (wakes : Nat) : Nat := wakes % 2 ^ 32

/-- The memory of a pool with `n` workers: the workers, `global_tasks_`, `waiters_`, `n_spinning_`,
`n_parked_`, `ready_to_stop_`, `stopped_`, and the histories of the tasks. -/
structure Mem (n : Nat) where
  worker : Fin n → WorkerState
  global : List Task
  waiters : List (Fin n)
  nSpinning : Int
  nParked : Int
  readyToStop : Bool
  stopped : Bool
  submitted : Nat
  started : List Task
  finished : List Task

/-- A pool after `Start`. -/
def Mem.start (n : Nat) : Mem n where
  worker := fun _ => .start
  global := []
  waiters := []
  nSpinning := 0
  nParked := 0
  readyToStop := false
  stopped := false
  submitted := 0
  started := []
  finished := []

variable {n : Nat}

/-- Replace the state of one worker. -/
def Mem.setWorker (m : Mem n) (i : Fin n) (w : WorkerState) : Mem n :=
  { m with worker := Function.update m.worker i w }

/-- A part of the workers' states that the new state of one worker does not change. -/
theorem Mem.part_setWorker {β : Type*} (part : WorkerState → β) (m : Mem n) (i j : Fin n) {w : WorkerState}
    (h : part w = part (m.worker i)) : part ((m.setWorker i w).worker j) = part (m.worker j) := by
  unfold Mem.setWorker
  by_cases hj : j = i
  · subst hj
    simpa only [Function.update_self] using h
  · simp only [ne_eq, hj, not_false_eq_true, Function.update_of_ne]

/-- The increment of `wakeups_` in `Worker::Wake`. -/
def Mem.wake (m : Mem n) (i : Fin n) : Mem n :=
  m.setWorker i { m.worker i with wakes := (m.worker i).wakes + 1 }

/-- The store to `worker_stop_`. -/
def Mem.setStop (m : Mem n) (i : Fin n) : Mem n :=
  m.setWorker i { m.worker i with stop := true }

/-- The two calls of `TryStealTasks`: before parking, and the final attempt after `wakeups_` was
loaded at `old` increments. -/
inductive Attempt where
  | first
  | final (old : Nat)

/-- What a worker does with the local queue it operates on. -/
inductive Use (n : Nat) where
  | pick (parked : Bool)
  | push (current task : Task)
  | offload (current task : Task)
  | size (attempt : Attempt) (victims : List (Fin n))
  | grab (attempt : Attempt) (victims : List (Fin n))
  | keep (attempt : Attempt) (stolen task : Task) (rest : List Task)

/-- Where a thread is, with its local variables. In `TryPickTask`, `parked` tells the call after
`futex::Wait` from the one at the head of `PickTask`. In `Submit`, `current` is the task that calls
it, or `none` for a thread outside the pool. -/
inductive Pc (n : Nat) where
  -- `Work` and `TryPickTask`
  | loop
  | pickGlobalFirst (parked : Bool)
  | pickLifo (parked : Bool)
  | pickGlobal (parked : Bool)
  | queue (victim : Fin n) (pc : WorkStealing.Pc Task) (use : Use n)
  | take (task : Task)
  | running (current : Task)
  -- `Worker::Push` and `Submit`
  | push (current task : Task) (hint : Hint)
  | offloadMany (current : Task) (tasks : List Task)
  | submitGlobal (current : Option Task) (task : Task)
  | submitCheck (current : Option Task)
  | submitPop (current : Option Task)
  | submitWake (current : Option Task) (waiter : Fin n)
  -- `TryPickTaskBeforePark`
  | spin
  | spinFound (task : Task)
  | wakePop (left : Nat) (task : Task)
  | wakeOne (left : Nat) (task : Task) (waiter : Fin n)
  | loadWakeups
  | pushWaiter (old : Nat)
  | unspin (old : Nat)
  | recheck (old : Nat)
  | park (old : Nat)
  | checkReady (old : Nat)
  | checkStopped (old : Nat)
  | wait (old : Nat)
  | unpark
  | stopSelf
  | signalLoad
  | signalStore
  | quit
  | exited
  | aborted (attempt : Attempt) (tasks : List Task)
  -- `Stop`, and the loop of `StoppingWake` that it shares with the last worker to park
  | idle
  | stopReady
  | stopLoad
  | stopWait
  | stopStore
  | stopSet (fromStop : Bool) (i : Fin n)
  | stopWake (fromStop : Bool) (i : Fin n)
  | join (i : Fin n)
  | stopReturned

/-! ### Picking and stealing -/

/-- The start of `TryPickTask`: every 61st iteration polls the global queue first. -/
def pickFirst (parked : Bool) (iter : Nat) : Pc n :=
  if iter % 61 = 0 then .pickGlobalFirst parked else .pickLifo parked

/-- The victims of worker `i`: the shuffled `stealing_order_`, with the last worker in its own place. -/
def victims (i : Fin n) (order : List (Fin n)) : List (Fin n) :=
  if n ≤ 1 then [] else order.map fun v => if v = i then ⟨n - 1, Nat.sub_one_lt_of_lt i.pos⟩ else v

/-- The head of the loop of `TryStealTasks` over the victims, and what follows when none is left. -/
def stealNext (attempt : Attempt) : List (Fin n) → Pc n
  | [] =>
    match attempt with
    | .first => .loadWakeups
    | .final old => .park old
  | v :: rest => .queue v .sizeLoadHead (.size attempt rest)

/-- What follows a successful `TryStealTasks`: one or two calls of `TryWakeOneWorker`, each of three rounds. -/
def stealFound (attempt : Attempt) (task : Task) : Pc n :=
  match attempt with
  | .first => .spinFound task
  | .final _ => .wakePop 5 task

/-- The loop that pushes all stolen tasks but the last to the thief's own queue. -/
def keepRest (i : Fin n) (attempt : Attempt) (stolen : Task) : List Task → Pc n
  | [] => stealFound attempt stolen
  | task :: rest => .queue i (.pushLoadTail task) (.keep attempt stolen task rest)

/-- The tasks of the first `grabbed` entries of the buffer `Grab` has filled. -/
def grabbedTasks (out : List (Option Task)) (grabbed : Nat) : List Task := (out.take grabbed).reduceOption

/-- What the caller of `StealTasks` does with the tasks it got. -/
def stolenTasks (i : Fin n) (attempt : Attempt) (rest : List (Fin n)) (tasks : List Task) : Pc n :=
  match tasks.getLast? with
  | none => stealNext attempt rest
  | some stolen => keepRest i attempt stolen tasks.dropLast

/-- How many tasks `StealTasks` asks for: half of the estimate, rounded up, within the span. -/
def stealCount (cap size : Nat) : Nat := min (add64 size 1 / 2) (cap / 2)

/-- How worker `i` goes on when its operation on the queue of worker `v` has returned. -/
def resume (cap : Nat) (i v : Fin n) : Use n → WorkStealing.Pc Task → Option (Pc n)
  | .pick parked, .popRet none => some (.pickGlobal parked)
  | .pick _, .popRet (some task) => some (.take task)
  | .push current _, .pushRet true => some (.submitCheck (some current))
  | .push current task, .pushRet false =>
      some (.queue i (.grabLoadTail (List.replicate (cap / 2) none)) (.offload current task))
  | .offload current task, .grabRet out grabbed => some (.offloadMany current (grabbedTasks out grabbed ++ [task]))
  | .size attempt rest, .sizeRet size =>
      if stealCount cap size = 0 then some (stealNext attempt rest)
      else some (.queue v (.grabLoadTail (List.replicate (stealCount cap size) none)) (.grab attempt rest))
  | .grab attempt rest, .grabRet out grabbed => some (stolenTasks i attempt rest (grabbedTasks out grabbed))
  | .keep attempt stolen _ rest, .pushRet true => some (keepRest i attempt stolen rest)
  | .keep attempt stolen task rest, .pushRet false => some (.aborted attempt (stolen :: task :: rest))
  | _, _ => none

/-! ### Waking and stopping -/

/-- The head of the loop of `TryWakeOneWorker`. -/
def wakeNext (left : Nat) (task : Task) : Pc n :=
  match left with
  | 0 => .take task
  | left + 1 => .wakePop left task

/-- The return of `Submit`: to the running task, or out of the pool. -/
def submitDone : Option Task → Pc n
  | none => .idle
  | some current => .running current

/-- The head of the loop of `Stop` that joins the workers. -/
def joinNext (j : Nat) : Pc n := if h : j < n then .join ⟨j, h⟩ else .stopReturned

/-- The head of the loop that calls `StoppingWake` on every worker. -/
def stopNext (fromStop : Bool) (j : Nat) : Pc n :=
  if h : j < n then .stopSet fromStop ⟨j, h⟩ else if fromStop then joinNext 0 else .loop

/-! ### The steps -/

/-- The steps of `Submit` after the task has left the worker's own containers. -/
def submitStep (m : Mem n) : Pc n → Mem n × Pc n
  | .submitGlobal current task => ({ m with global := m.global ++ [task] }, .submitCheck current)
  | .submitCheck current => (m, if m.nSpinning = 0 then .submitPop current else submitDone current)
  | .submitPop current =>
      match m.waiters with
      | [] => (m, submitDone current)
      | v :: rest => ({ m with waiters := rest }, .submitWake current v)
  | .submitWake current v => (m.wake v, submitDone current)
  | pc => (m, pc)

/-- The steps of `Stop`. -/
def stopStep (m : Mem n) : Pc n → Mem n × Pc n
  | .stopReady => ({ m with readyToStop := true }, .stopLoad)
  | .stopLoad => (m, if m.nParked = n then .stopStore else .stopWait)
  | .stopWait => (m, if m.stopped then stopNext true 0 else .stopWait)
  | .stopStore => ({ m with stopped := true }, stopNext true 0)
  | .stopSet fromStop i => (m.setStop i, .stopWake fromStop i)
  | .stopWake fromStop i => (m.wake i, stopNext fromStop (i + 1))
  | .join i => (m, if (m.worker i).exited then joinNext (i + 1) else .join i)
  | pc => (m, pc)

/-- One step of worker `i`. The list `order` is the result of the shuffle in a step that starts `TryStealTasks`. -/
def workerStep (cap : Nat) (i : Fin n) (order : List (Fin n)) (m : Mem n) : Pc n → Mem n × Pc n
  | .loop =>
      if (m.worker i).stop then (m.setWorker i { m.worker i with exited := true }, .exited)
      else (m.setWorker i { m.worker i with iter := (m.worker i).iter + 1 }, pickFirst false ((m.worker i).iter + 1))
  | .pickGlobalFirst parked =>
      match m.global with
      | [] => (m, .pickLifo parked)
      | task :: rest => ({ m with global := rest }, .take task)
  | .pickLifo parked =>
      match (m.worker i).lifo with
      | none => (m, .queue i .popLoadHead (.pick parked))
      | some task => (m.setWorker i { m.worker i with lifo := none }, .take task)
  | .pickGlobal parked =>
      match m.global with
      | [] => (m, if parked then .loop else .spin)
      | task :: rest => ({ m with global := rest }, .take task)
  | .queue v pc use =>
      match resume cap i v use pc with
      | some pc' => (m, pc')
      | none =>
        let next := WorkStealing.step cap (m.worker v).queue pc
        (m.setWorker v { m.worker v with queue := next.1 }, .queue v next.2 use)
  | .take task => ({ m with started := m.started ++ [task] }, .running task)
  | .running current => ({ m with finished := m.finished ++ [current] }, .loop)
  | .push current task .yield => (m, .submitGlobal (some current) task)
  | .push current task .next =>
      (m.setWorker i { m.worker i with lifo := some task },
        match (m.worker i).lifo with
        | none => .submitCheck (some current)
        | some old => .queue i (.pushLoadTail old) (.push current old))
  | .push current task .upToYou => (m, .queue i (.pushLoadTail task) (.push current task))
  | .offloadMany current tasks => ({ m with global := m.global ++ tasks }, .submitCheck (some current))
  | .spin => ({ m with nSpinning := m.nSpinning + 1 }, stealNext .first (victims i order))
  | .spinFound task => ({ m with nSpinning := m.nSpinning - 1 }, .wakePop 2 task)
  | .wakePop left task =>
      match m.waiters with
      | [] => (m, wakeNext left task)
      | v :: rest => ({ m with waiters := rest }, .wakeOne left task v)
  | .wakeOne left task v => (m.wake v, wakeNext left task)
  | .loadWakeups => (m, .pushWaiter (m.worker i).wakes)
  | .pushWaiter old => ({ m with waiters := m.waiters ++ [i] }, .unspin old)
  | .unspin old => ({ m with nSpinning := m.nSpinning - 1 }, .recheck old)
  | .recheck old =>
      match m.global with
      | [] => (m, stealNext (.final old) (victims i order))
      | task :: rest => ({ m with global := rest }, .wakePop 5 task)
  | .park old =>
      ({ m with nParked := m.nParked + 1 }, if m.nParked + 1 = n then .checkReady old else .checkStopped old)
  | .checkReady old => (m, if m.readyToStop then .stopSelf else .checkStopped old)
  | .checkStopped old => (m, if m.stopped then .quit else .wait old)
  | .wait old => (m, if wakeups (m.worker i).wakes = wakeups old then .wait old else .unpark)
  | .unpark => ({ m with nParked := m.nParked - 1 }, pickFirst true (m.worker i).iter)
  | .stopSelf => (m.setStop i, .signalLoad)
  | .signalLoad => (m, if m.readyToStop then .signalStore else stopNext false 0)
  | .signalStore => ({ m with stopped := true }, stopNext false 0)
  | .stopSet fromStop j => stopStep m (.stopSet fromStop j)
  | .stopWake fromStop j => stopStep m (.stopWake fromStop j)
  | .quit => (m.setStop i, .loop)
  | pc => submitStep m pc

/-! ### The pool and its clients -/

/-- The threads: the workers, threads outside the pool that call `Submit`, and one that calls `Stop`. -/
inductive Thread (n : Nat) (Client : Type*) where
  | worker (i : Fin n)
  | client (e : Client)
  | stopper
  deriving DecidableEq, Fintype

variable {Client : Type*}

/-- One step of a thread. -/
def step (cap : Nat) (order : List (Fin n)) (m : Mem n) : Thread n Client → Pc n → Mem n × Pc n
  | .worker i, pc => workerStep cap i order m pc
  | .client _, pc => submitStep m pc
  | .stopper, pc => stopStep m pc

/-- The actions of a thread: the next step, a `Submit` from outside or from a running task, or the
one call of `Stop`. -/
inductive Act (cap : Nat) : Thread n Client → Mem n → Pc n → Mem n → Pc n → Prop
  | step {t : Thread n Client} {m : Mem n} {pc : Pc n} (order : List (Fin n))
      (horder : order.Perm ((List.finRange n).take (n - 1))) :
      Act cap t m pc (step cap order m t pc).1 (step cap order m t pc).2
  | submit {e : Client} {m : Mem n} :
      Act cap (.client e) m .idle { m with submitted := m.submitted + 1 } (.submitGlobal none m.submitted)
  | submitInside {i : Fin n} {m : Mem n} {current : Task} (hint : Hint) :
      Act cap (.worker i) m (.running current) { m with submitted := m.submitted + 1 } (.push current m.submitted hint)
  | stop {m : Mem n} : Act cap .stopper m .idle m .stopReady

/-- Where a thread starts. -/
def Thread.start : Thread n Client → Pc n
  | .worker _ => .loop
  | .client _ => .idle
  | .stopper => .idle

variable [DecidableEq Client]

/-- Every interleaving of the workers of a pool, its clients and one call of `Stop`. -/
def system (cap n : Nat) (Client : Type*) [DecidableEq Client] :
    Logic.System (Logic.Conf (Thread n Client) (Mem n) (Pc n)) :=
  Logic.Program.system (Act cap) fun c => c.mem = .start n ∧ ∀ t, c.pc t = t.start

/-- The runs in which fewer than `2^64` tasks are pushed to each local queue. -/
def boundedSystem (cap n : Nat) (Client : Type*) [DecidableEq Client] :
    Logic.System (Logic.Conf (Thread n Client) (Mem n) (Pc n)) :=
  (system cap n Client).restrict fun _ c' => ∀ i, (c'.mem.worker i).queue.pushed.length < word

end CppConcur.WorkStealing.Pool
