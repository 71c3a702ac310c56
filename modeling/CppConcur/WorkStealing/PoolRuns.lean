import CppConcur.WorkStealing.PoolQueues

/-!
# Runs of the pool, thread by thread

What one thread computes when it takes a number of steps alone is `run`. A run of the pool is put
together from such pieces, in any system that takes the steps of the pool between states that satisfy
some condition.

With one worker and many clients there is a run in which any number of `Submit` calls have popped the
worker from `waiters_` and have not incremented its `wakeups_` yet, although the tasks they submitted
have all been run. Such increments reach the worker later, when it waits for something else.
-/

namespace CppConcur.WorkStealing.Pool

open Logic.System

variable {n : Nat} {Client : Type*}

/-- What a thread computes in a number of steps alone, with one order of the victims. -/
def run (cap : Nat) (order : List (Fin n)) (t : Thread n Client) : Nat → Mem n × Pc n → Mem n × Pc n
  | 0, s => s
  | k + 1, s => run cap order t k (step cap order s.1 t s.2)

section Run

variable (cap : Nat) (order : List (Fin n)) (t : Thread n Client)

@[simp] theorem run_zero (s : Mem n × Pc n) : run cap order t 0 s = s := rfl

theorem run_succ (k : Nat) (m : Mem n) (pc : Pc n) :
    run cap order t (k + 1) (m, pc) = run cap order t k (step cap order m t pc) := rfl

theorem run_add (j k : Nat) (s : Mem n × Pc n) : run cap order t (j + k) s = run cap order t k (run cap order t j s) := by
  induction j generalizing s with
  | zero => rw [Nat.zero_add, run]
  | succ j ih => rw [Nat.succ_add, run, run, ih]

theorem pushed_queueStep_le (q : Queue Task) (pc : WorkStealing.Pc Task) :
    (WorkStealing.step cap q pc).1.pushed.length ≤ q.pushed.length + 1 := by
  cases pc <;> simp only [WorkStealing.step]
  all_goals repeat' split
  all_goals simp

theorem pushed_step_le (m : Mem n) (pc : Pc n) (i : Fin n) :
    ((step cap order m t pc).1.worker i).queue.pushed.length ≤ (m.worker i).queue.pushed.length + 1 := by
  have hsame : ∀ m' : Mem n, SameQueues m m' → (m'.worker i).queue.pushed.length ≤ (m.worker i).queue.pushed.length + 1 := by
    intro m' hsame
    rw [hsame i]
    exact Nat.le_succ _
  cases t with
  | client e => exact hsame _ (submitStep_sameQueues m pc)
  | stopper => exact hsame _ (stopStep_sameQueues m pc)
  | worker j =>
    rcases workerStep_cases cap j order m pc with ⟨v, qpc, use, rfl, hresume⟩ | ⟨hqueues, _⟩
    · simp only [step, workerStep, hresume, Mem.setWorker]
      by_cases hi : i = v
      · subst hi
        simpa only [Function.update_self] using pushed_queueStep_le cap _ qpc
      · simp only [ne_eq, hi, not_false_eq_true, Function.update_of_ne]
        exact Nat.le_succ _
    · exact hsame _ hqueues

theorem pushed_run_le (k : Nat) (s : Mem n × Pc n) (i : Fin n) :
    ((run cap order t k s).1.worker i).queue.pushed.length ≤ (s.1.worker i).queue.pushed.length + k := by
  induction k generalizing s with
  | zero => exact le_rfl
  | succ k ih =>
    have hstep := pushed_step_le cap order t s.1 s.2 i
    have hrest := ih (step cap order s.1 t s.2)
    simp only [run]
    omega

end Run

/-! ### What one worker and its clients compute -/

theorem update_one {α : Type*} (f : Fin 1 → α) (a : α) : Function.update f 0 a = fun _ => a := by
  funext i
  rw [Fin.fin_one_eq_zero i, Function.update_self]

/-- The memory after `k` tasks have been submitted and run one after another, with the worker at the
head of its loop and no wakeup delivered. -/
def roundMem (k : Nat) : Mem 1 :=
  { Mem.start 1 with
    worker := fun _ => { WorkerState.start with iter := k }
    submitted := k
    started := List.range k
    finished := List.range k }

/-- The same memory once the worker has registered as a waiter. -/
def roundMemWaiting (k : Nat) : Mem 1 :=
  { roundMem k with
    worker := fun _ => { WorkerState.start with iter := k + 1 }
    waiters := [0] }

section Rounds

variable (cap k : Nat)

/-- The worker finds nothing, registers as a waiter and stops spinning. -/
theorem exists_run_recheck : ∃ j, j < word ∧
    run cap [] (.worker 0 : Thread 1 Client) j (roundMem k, .loop) = (roundMemWaiting k, .recheck 0) := by
  by_cases hk : (k + 1) % 61 = 0
  · refine ⟨11, by decide, ?_⟩
    simp [run_succ, step, workerStep, roundMem, roundMemWaiting, pickFirst, hk, WorkerState.start, Mem.start, Mem.setWorker,
      update_one, resume, WorkStealing.step, Queue.empty, stealNext, victims]
  · refine ⟨10, by decide, ?_⟩
    simp [run_succ, step, workerStep, roundMem, roundMemWaiting, pickFirst, hk, WorkerState.start, Mem.start, Mem.setWorker,
      update_one, resume, WorkStealing.step, Queue.empty, stealNext, victims]

/-- The worker takes the task it finds on the last look at the global queue, and runs it. -/
theorem run_recheck_task (m : Mem 1) (task : Task) (hglobal : m.global = [task]) (hwaiters : m.waiters = []) :
    run cap [] (.worker 0 : Thread 1 Client) 9 (m, .recheck 0) =
      ({ m with global := [], started := m.started ++ [task], finished := m.finished ++ [task] }, .loop) := by
  simp [run_succ, step, workerStep, hglobal, hwaiters, wakeNext]

/-- The worker finds nothing on the last look either and waits. -/
theorem run_recheck_wait (m : Mem 1) (hglobal : m.global = []) (hparked : m.nParked = 0) (hready : m.readyToStop = false)
    (hstopped : m.stopped = false) :
    run cap [] (.worker 0 : Thread 1 Client) 4 (m, .recheck 0) = ({ m with nParked := 1 }, .wait 0) := by
  simp [run_succ, step, workerStep, hglobal, hparked, hready, hstopped, stealNext, victims]

/-- A client pushes its task to the global queue and pops the worker from the waiters. -/
theorem run_submit (m : Mem 1) (e : Client) (task : Task) (hspinning : m.nSpinning = 0) (v : Fin 1) (rest : List (Fin 1))
    (hwaiters : m.waiters = v :: rest) :
    run cap [] (.client e : Thread 1 Client) 3 (m, .submitGlobal none task) =
      ({ m with global := m.global ++ [task], waiters := rest }, .submitWake none v) := by
  simp [run_succ, step, submitStep, hspinning, hwaiters]

/-- A short run leaves a local queue that nothing was pushed to with few pushes. -/
theorem pushed_run_lt (t : Thread 1 Client) {s : Mem 1 × Pc 1} (hempty : (s.1.worker 0).queue.pushed = []) {k j : Nat}
    (hk : k < word) (hj : j ≤ k) (i : Fin 1) :
    ((run cap [] t j s).1.worker i).queue.pushed.length < word := by
  have hle := pushed_run_le cap [] t j s i
  rw [Fin.fin_one_eq_zero i] at hle ⊢
  simp only [hempty, List.length_nil, Nat.zero_add] at hle
  exact (hle.trans hj).trans_lt hk

end Rounds

/-! ### Pieces of runs -/

/-- Fewer than `2^64` tasks have been pushed to each local queue. -/
def FewPushed (c : Logic.Conf (Thread n Client) (Mem n) (Pc n)) : Prop :=
  ∀ i, (c.mem.worker i).queue.pushed.length < word

theorem few_of_empty {m : Mem 1} (hempty : (m.worker 0).queue.pushed = []) (pcs : Thread 1 Client → Pc 1) :
    FewPushed ⟨m, pcs⟩ := by
  intro i
  rw [Fin.fin_one_eq_zero i]
  simp only [hempty]
  exact Nat.two_pow_pos 64

variable [DecidableEq Client]

/-- The system takes every step of the pool between two states that are fine. -/
def Admits (cap : Nat) (S : Logic.System (Logic.Conf (Thread n Client) (Mem n) (Pc n)))
    (ok : Logic.Conf (Thread n Client) (Mem n) (Pc n) → Prop) : Prop :=
  ∀ c c', (system cap n Client).step c c' → ok c → ok c' → S.step c c'

section Admits

variable {cap : Nat} {S : Logic.System (Logic.Conf (Thread n Client) (Mem n) (Pc n))}
  {ok : Logic.Conf (Thread n Client) (Mem n) (Pc n) → Prop}

theorem Admits.act (h : Admits cap S ok) {t : Thread n Client} {m m' : Mem n} {pc pc' : Pc n}
    (hact : Act cap t m pc m' pc') (pcs : Thread n Client → Pc n) (hbefore : ok ⟨m, Function.update pcs t pc⟩)
    (hafter : ok ⟨m', Function.update pcs t pc'⟩) :
    S.step ⟨m, Function.update pcs t pc⟩ ⟨m', Function.update pcs t pc'⟩ := by
  refine h _ _ ⟨t, m', pc', ?_, ?_⟩ hbefore hafter
  · simpa only [Function.update_self] using hact
  · simp only [Function.update_idem]

/-- A thread takes some steps alone. -/
theorem Admits.steps (h : Admits cap S ok) {order : List (Fin n)} (horder : order.Perm ((List.finRange n).take (n - 1)))
    (t : Thread n Client) (pcs : Thread n Client → Pc n) (k : Nat) (s : Mem n × Pc n)
    (hok : ∀ j, j ≤ k → ok ⟨(run cap order t j s).1, Function.update pcs t (run cap order t j s).2⟩) :
    S.Steps ⟨s.1, Function.update pcs t s.2⟩
      ⟨(run cap order t k s).1, Function.update pcs t (run cap order t k s).2⟩ := by
  induction k generalizing s with
  | zero => exact .refl
  | succ k ih =>
    have hfirst := h.act (.step order horder) pcs (hok 0 (Nat.zero_le _)) (hok 1 (Nat.le_add_left 1 k))
    have hrest := ih (step cap order s.1 t s.2) fun j hj => hok (j + 1) (Nat.succ_le_succ hj)
    exact Steps.trans (.tail .refl hfirst) hrest

end Admits

theorem admits_boundedSystem (cap : Nat) : Admits cap (boundedSystem cap n Client) FewPushed :=
  fun _ _ hstep _ hafter => ⟨hstep, hafter⟩

/-! ### One worker -/

/-- The places of the threads of a pool with one worker. -/
def solo (worker : Pc 1) (clients : Client → Pc 1) (stopper : Pc 1) : Thread 1 Client → Pc 1
  | .worker _ => worker
  | .client e => clients e
  | .stopper => stopper

section Solo

variable (worker stopper pc : Pc 1) (clients : Client → Pc 1)

@[simp] theorem update_solo_worker :
    Function.update (solo worker clients stopper) (.worker 0) pc = solo pc clients stopper := by
  funext t
  cases t with
  | worker i => rw [Fin.fin_one_eq_zero i, Function.update_self, solo]
  | client e => rfl
  | stopper => rfl

@[simp] theorem update_solo_client (e : Client) :
    Function.update (solo worker clients stopper) (.client e) pc = solo worker (Function.update clients e pc) stopper := by
  funext t
  cases t with
  | worker i => rfl
  | stopper => rfl
  | client u =>
    by_cases hu : u = e
    · subst hu
      simp only [Function.update_self, solo]
    · simp only [ne_eq, Thread.client.injEq, hu, not_false_eq_true, Function.update_of_ne, solo]

@[simp] theorem update_solo_stopper :
    Function.update (solo worker clients stopper) .stopper pc = solo worker clients pc := by
  funext t
  cases t <;> rfl

end Solo

section Pieces

variable {cap : Nat} {S : Logic.System (Logic.Conf (Thread 1 Client) (Mem 1) (Pc 1))}
  {ok : Logic.Conf (Thread 1 Client) (Mem 1) (Pc 1) → Prop} {m m' : Mem 1} {pc pc' : Pc 1}

theorem order_perm : ([] : List (Fin 1)).Perm ((List.finRange 1).take (1 - 1)) := .refl _

theorem Admits.steps_worker (h : Admits cap S ok) (clients : Client → Pc 1) (stopper : Pc 1) {k : Nat}
    (hrun : run cap [] (.worker 0 : Thread 1 Client) k (m, pc) = (m', pc'))
    (hok : ∀ j, j ≤ k → ok ⟨(run cap [] (.worker 0 : Thread 1 Client) j (m, pc)).1,
      solo (run cap [] (.worker 0 : Thread 1 Client) j (m, pc)).2 clients stopper⟩) :
    S.Steps ⟨m, solo pc clients stopper⟩ ⟨m', solo pc' clients stopper⟩ := by
  have hsteps := h.steps order_perm (.worker 0) (solo pc clients stopper) k (m, pc) (by simpa only [update_solo_worker])
  simpa only [hrun, update_solo_worker] using hsteps

theorem Admits.steps_client (h : Admits cap S ok) (worker : Pc 1) {clients : Client → Pc 1} (stopper : Pc 1) (e : Client)
    (hpc : clients e = pc) {k : Nat} (hrun : run cap [] (.client e) k (m, pc) = (m', pc'))
    (hok : ∀ j, j ≤ k → ok ⟨(run cap [] (.client e) j (m, pc)).1,
      solo worker (Function.update clients e (run cap [] (.client e) j (m, pc)).2) stopper⟩) :
    S.Steps ⟨m, solo worker clients stopper⟩ ⟨m', solo worker (Function.update clients e pc') stopper⟩ := by
  have hsteps := h.steps order_perm (.client e) (solo worker clients stopper) k (m, pc) (by simpa only [update_solo_client])
  subst hpc
  simpa only [hrun, update_solo_client, Function.update_eq_self] using hsteps

theorem Admits.steps_stopper (h : Admits cap S ok) (worker : Pc 1) (clients : Client → Pc 1) {k : Nat}
    (hrun : run cap [] (.stopper : Thread 1 Client) k (m, pc) = (m', pc'))
    (hok : ∀ j, j ≤ k → ok ⟨(run cap [] (.stopper : Thread 1 Client) j (m, pc)).1,
      solo worker clients (run cap [] (.stopper : Thread 1 Client) j (m, pc)).2⟩) :
    S.Steps ⟨m, solo worker clients pc⟩ ⟨m', solo worker clients pc'⟩ := by
  have hsteps := h.steps order_perm .stopper (solo worker clients pc) k (m, pc) (by simpa only [update_solo_stopper])
  simpa only [hrun, update_solo_stopper] using hsteps

theorem Admits.submit (h : Admits cap S ok) (worker : Pc 1) {clients : Client → Pc 1} (stopper : Pc 1) (e : Client)
    (hidle : clients e = .idle) (hbefore : ok ⟨m, solo worker clients stopper⟩)
    (hafter : ok ⟨{ m with submitted := m.submitted + 1 },
      solo worker (Function.update clients e (.submitGlobal none m.submitted)) stopper⟩) :
    S.step ⟨m, solo worker clients stopper⟩ ⟨{ m with submitted := m.submitted + 1 },
      solo worker (Function.update clients e (.submitGlobal none m.submitted)) stopper⟩ := by
  refine h _ _ ⟨.client e, { m with submitted := m.submitted + 1 }, .submitGlobal none m.submitted, ?_, ?_⟩ hbefore hafter
  · simp only [solo, hidle]
    exact .submit
  · simp only [update_solo_client]

theorem Admits.stop (h : Admits cap S ok) (worker : Pc 1) (clients : Client → Pc 1)
    (hbefore : ok ⟨m, solo worker clients .idle⟩) (hafter : ok ⟨m, solo worker clients .stopReady⟩) :
    S.step ⟨m, solo worker clients .idle⟩ ⟨m, solo worker clients .stopReady⟩ := by
  refine h _ _ ⟨.stopper, _, .stopReady, .stop, ?_⟩ hbefore hafter
  simp only [update_solo_stopper]

end Pieces

/-! ### Submits that stall before the wakeup -/

/-- The first `k` clients have popped a waiter in `Submit` and have not woken it yet. -/
def stalled (k : Nat) (e : Nat) : Pc 1 := if e < k then .submitWake none 0 else .idle

theorem update_stalled (k : Nat) : Function.update (stalled k) k (.submitWake none 0) = stalled (k + 1) := by
  funext e
  by_cases he : e = k
  · subst he
    simp [stalled]
  · have hiff : e < k + 1 ↔ e < k := by omega
    simp [stalled, he, hiff]

theorem update_stalled_idle (k : Nat) : Function.update (stalled (k + 1)) k .idle = stalled k := by
  rw [← update_stalled, Function.update_idem, Function.update_eq_self_iff]
  exact (if_neg (lt_irrefl k)).symm

section Stalled

variable (cap k : Nat)

theorem register_steps (clients : Client → Pc 1) :
    (boundedSystem cap 1 Client).Steps ⟨roundMem k, solo .loop clients .idle⟩
      ⟨roundMemWaiting k, solo (.recheck 0) clients .idle⟩ := by
  obtain ⟨j, hj, hrun⟩ := exists_run_recheck cap k
  exact (admits_boundedSystem cap).steps_worker clients .idle hrun fun _ hi => pushed_run_lt cap _ rfl hj hi

theorem submit_steps {m : Mem 1} (worker stopper : Pc 1) {clients : Client → Pc 1} (e : Client)
    (hempty : (m.worker 0).queue.pushed = []) (hidle : clients e = .idle) (hspinning : m.nSpinning = 0) (v : Fin 1)
    (rest : List (Fin 1)) (hwaiters : m.waiters = v :: rest) :
    (boundedSystem cap 1 Client).Steps ⟨m, solo worker clients stopper⟩
      ⟨{ m with submitted := m.submitted + 1, global := m.global ++ [m.submitted], waiters := rest },
        solo worker (Function.update clients e (.submitWake none v)) stopper⟩ := by
  have hadmits : Admits cap (boundedSystem cap 1 Client) FewPushed := admits_boundedSystem cap
  have hcall := hadmits.submit worker stopper e hidle (few_of_empty hempty _)
    (few_of_empty (m := { m with submitted := m.submitted + 1 }) hempty _)
  have hrun := run_submit cap { m with submitted := m.submitted + 1 } e m.submitted hspinning v rest hwaiters
  have hrest := hadmits.steps_client worker stopper e (Function.update_self e _ clients) hrun
    fun _ hj => pushed_run_lt cap _ hempty (by decide) hj
  rw [Function.update_idem] at hrest
  exact .trans (.tail .refl hcall) hrest

/-- One more client stalls. -/
theorem round_steps :
    (boundedSystem cap 1 Nat).Steps ⟨roundMem k, solo .loop (stalled k) .idle⟩
      ⟨roundMem (k + 1), solo .loop (stalled (k + 1)) .idle⟩ := by
  have hidle : stalled k k = .idle := if_neg (lt_irrefl k)
  have hsubmit := submit_steps cap (.recheck 0) .idle k (m := roundMemWaiting k) rfl hidle rfl 0 [] rfl
  rw [update_stalled] at hsubmit
  have htask := (admits_boundedSystem cap).steps_worker (stalled (k + 1)) .idle
    (run_recheck_task cap { roundMemWaiting k with submitted := k + 1, global := [k], waiters := [] } k rfl rfl)
    fun _ hj => pushed_run_lt cap _ rfl (by decide) hj
  have hmem : roundMem (k + 1) = { roundMemWaiting k with
      submitted := k + 1, global := [], waiters := [], started := List.range k ++ [k], finished := List.range k ++ [k] } := by
    simp only [roundMem, roundMemWaiting, List.range_succ]
    rfl
  rw [hmem]
  exact (register_steps cap k (stalled k)).trans (hsubmit.trans htask)

theorem stalled_reachable :
    (boundedSystem cap 1 Nat).Reachable ⟨roundMem k, solo .loop (stalled k) .idle⟩ := by
  induction k with
  | zero => exact .init ⟨rfl, fun t => by cases t <;> rfl⟩
  | succ k ih => exact ih.steps (round_steps cap k)

/-- The memory once the worker has found nothing on its last look and waits. -/
def parkedMem (k : Nat) : Mem 1 := { roundMemWaiting k with nParked := 1 }

theorem parked_reachable :
    (boundedSystem cap 1 Nat).Reachable ⟨parkedMem k, solo (.wait 0) (stalled k) .idle⟩ := by
  have hpark := (admits_boundedSystem cap).steps_worker (stalled k) .idle
    (run_recheck_wait cap (roundMemWaiting k) rfl rfl rfl rfl) fun _ hj => pushed_run_lt cap _ rfl (by decide) hj
  exact (stalled_reachable cap k).steps ((register_steps cap k (stalled k)).trans hpark)

/-- The stalled clients wake the worker one after another. -/
theorem wake_steps (m : Mem 1) (worker stopper : Pc 1) (hempty : (m.worker 0).queue.pushed = []) :
    (boundedSystem cap 1 Nat).Steps ⟨m, solo worker (stalled k) stopper⟩
      ⟨{ m with worker := fun _ => { m.worker 0 with wakes := (m.worker 0).wakes + k } },
        solo worker (fun _ => .idle) stopper⟩ := by
  induction k generalizing m with
  | zero =>
    have hmem : { m with worker := fun _ => m.worker 0 } = m := by
      have hworker : (fun _ => m.worker 0) = m.worker := by
        funext i
        rw [Fin.fin_one_eq_zero i]
      rw [hworker]
    simp only [Nat.add_zero]
    rw [hmem]
    exact .refl
  | succ k ih =>
    have hpc : stalled (k + 1) k = .submitWake none 0 := if_pos (Nat.lt_succ_self k)
    have hrun : run cap [] (.client k : Thread 1 Nat) 1 (m, .submitWake none 0) = (m.wake 0, .idle) := rfl
    have hwoken := (admits_boundedSystem cap).steps_client worker stopper k hpc hrun
      fun _ hj => pushed_run_lt cap _ hempty (by decide) hj
    rw [update_stalled_idle] at hwoken
    have hrest := ih (m.wake 0) (by simpa only [Mem.wake, Mem.setWorker, Function.update_self] using hempty)
    have hmem : { m.wake 0 with worker := fun _ => { (m.wake 0).worker 0 with wakes := ((m.wake 0).worker 0).wakes + k } } =
        { m with worker := fun _ => { m.worker 0 with wakes := (m.worker 0).wakes + (k + 1) } } := by
      simp only [Mem.wake, Mem.setWorker, Function.update_self, Nat.add_assoc, Nat.add_comm 1 k]
    rw [hmem] at hrest
    exact hwoken.trans hrest

/-- The memory when one more client has submitted a task to the waiting worker, and all clients have
woken it since. -/
def overdueMem (k : Nat) : Mem 1 :=
  { parkedMem k with
    worker := fun _ => { WorkerState.start with iter := k + 1, wakes := k + 1 }
    global := [k]
    waiters := []
    submitted := k + 1 }

theorem overdue_reachable :
    (boundedSystem cap 1 Nat).Reachable ⟨overdueMem k, solo (.wait 0) (fun _ => .idle) .idle⟩ := by
  have hidle : stalled k k = .idle := if_neg (lt_irrefl k)
  have hsubmit := submit_steps cap (.wait 0) .idle k (m := parkedMem k) rfl hidle rfl 0 [] rfl
  rw [update_stalled] at hsubmit
  have hwake := wake_steps cap (k + 1) { parkedMem k with submitted := k + 1, global := [k], waiters := [] }
    (.wait 0) .idle rfl
  have hmem : overdueMem k = { parkedMem k with
      submitted := k + 1, global := [k], waiters := [],
      worker := fun _ => { WorkerState.start with iter := k + 1, wakes := 0 + (k + 1) } } := by
    simp only [overdueMem, Nat.zero_add]
  rw [hmem]
  exact (parked_reachable cap k).steps (hsubmit.trans hwake)

/-- The memory when `Stop` has found the worker parked and has woken it, and the worker has been woken
`wakes` times in all. -/
def stoppedMem (k wakes : Nat) : Mem 1 :=
  { parkedMem k with
    worker := fun _ => { WorkerState.start with iter := k + 1, wakes := wakes, stop := true }
    readyToStop := true
    stopped := true }

omit [DecidableEq Client] in
theorem run_stop : run cap [] (.stopper : Thread 1 Client) 5 (parkedMem k, .stopReady) = (stoppedMem k 1, .join 0) := by
  simp [run_succ, step, stopStep, parkedMem, stoppedMem, roundMemWaiting, WorkerState.start, stopNext, joinNext, Mem.setStop,
    Mem.wake, Mem.setWorker, update_one]

theorem stopped_reachable :
    (boundedSystem cap 1 Nat).Reachable ⟨stoppedMem k 1, solo (.wait 0) (stalled k) (.join 0)⟩ := by
  have hadmits : Admits cap (boundedSystem cap 1 Nat) FewPushed := admits_boundedSystem cap
  have hcall := hadmits.stop (.wait 0) (stalled k) (few_of_empty (m := parkedMem k) rfl _) (few_of_empty rfl _)
  have hstop := hadmits.steps_stopper (.wait 0) (stalled k) (run_stop cap k) fun _ hj =>
    pushed_run_lt cap _ rfl (by decide) hj
  exact ((parked_reachable cap k).step hcall).steps hstop

/-- The clients that stalled before `Stop` wake the worker after it. -/
theorem woken_reachable :
    (boundedSystem cap 1 Nat).Reachable ⟨stoppedMem k (1 + k), solo (.wait 0) (fun _ => .idle) (.join 0)⟩ :=
  (stopped_reachable cap k).steps (wake_steps cap k (stoppedMem k 1) (.wait 0) (.join 0) rfl)

end Stalled

/-! ### A task that submits the next one to the local queue -/

/-- A queue after a successful `TryPush`. -/
def afterPush (cap : Nat) (q : Queue Task) (task : Task) : Queue Task :=
  { q with
    buffer := Function.update q.buffer (q.tail % cap) (some task)
    tail := add64 q.tail 1
    pushed := q.pushed ++ [task] }

section LocalTasks

variable {cap : Nat} {order : List (Fin n)} {i : Fin n} {m : Mem n}

omit [DecidableEq Client] in
theorem run_pushQueue (current task : Task) (hroom : sub64 (m.worker i).queue.tail (m.worker i).queue.head ≠ cap) :
    run cap order (.worker i : Thread n Client) 6 (m, .push current task .upToYou) =
      (m.setWorker i { m.worker i with queue := afterPush cap (m.worker i).queue task }, .submitCheck (some current)) := by
  simp [run_succ, step, workerStep, resume, WorkStealing.step, Mem.setWorker, hroom, afterPush]

omit [DecidableEq Client] in
/-- The worker ends its task and takes the next one from its queue. -/
theorem exists_run_popQueue (current task : Task) (hrunning : (m.worker i).stop = false) (hlifo : (m.worker i).lifo = none)
    (hglobal : m.global = []) (hne : (m.worker i).queue.tail ≠ (m.worker i).queue.head)
    (hslot : (m.worker i).queue.buffer ((m.worker i).queue.head % cap) = some task) :
    ∃ j, run cap order (.worker i : Thread n Client) j (m, .running current) =
      ({ m.setWorker i { m.worker i with
            iter := (m.worker i).iter + 1
            queue := { (m.worker i).queue with
              head := add64 (m.worker i).queue.head 1
              handed := (m.worker i).queue.handed ++ [some task] } } with
          started := m.started ++ [task]
          finished := m.finished ++ [current] }, .running task) := by
  by_cases hiter : ((m.worker i).iter + 1) % 61 = 0
  · refine ⟨10, ?_⟩
    simp [run_succ, step, workerStep, resume, WorkStealing.step, Mem.setWorker, hrunning, hlifo, hglobal, hne, hslot,
      pickFirst, hiter]
  · refine ⟨9, ?_⟩
    simp [run_succ, step, workerStep, resume, WorkStealing.step, Mem.setWorker, hrunning, hlifo, hglobal, hne, hslot,
      pickFirst, hiter]

omit [DecidableEq Client] in
/-- The worker ends its task and finds nothing to do. -/
theorem exists_run_spin (current : Task) (hrunning : (m.worker i).stop = false) (hlifo : (m.worker i).lifo = none)
    (hglobal : m.global = []) (hempty : (m.worker i).queue.tail = (m.worker i).queue.head) :
    ∃ j, run cap order (.worker i : Thread n Client) j (m, .running current) =
      ({ m.setWorker i { m.worker i with iter := (m.worker i).iter + 1 } with finished := m.finished ++ [current] }, .spin) := by
  by_cases hiter : ((m.worker i).iter + 1) % 61 = 0
  · refine ⟨8, ?_⟩
    simp [run_succ, step, workerStep, resume, WorkStealing.step, Mem.setWorker, hrunning, hlifo, hglobal, hempty, pickFirst,
      hiter]
  · refine ⟨7, ?_⟩
    simp [run_succ, step, workerStep, resume, WorkStealing.step, Mem.setWorker, hrunning, hlifo, hglobal, hempty, pickFirst,
      hiter]

end LocalTasks

/-- A worker that runs task `k`, after `k` tasks have been pushed to its queue and popped again. -/
structure Cycling (k : Nat) (m : Mem 1) : Prop where
  head : (m.worker 0).queue.head = k
  tail : (m.worker 0).queue.tail = k
  running : (m.worker 0).stop = false
  lifo : (m.worker 0).lifo = none
  global : m.global = []
  waiters : m.waiters = []
  spinning : m.nSpinning = 0
  submitted : m.submitted = k + 1
  started : ∀ task ∈ m.started, task ≤ k

/-- The memory after a running task has submitted another one to the local queue. -/
def pushMem (cap : Nat) (m : Mem 1) : Mem 1 :=
  { m with
    worker := fun _ => { m.worker 0 with queue := afterPush cap (m.worker 0).queue m.submitted }
    submitted := m.submitted + 1 }

section Cycling

variable {cap k : Nat} {m : Mem 1}

omit [DecidableEq Client] in
theorem run_push (current task : Task) (hroom : sub64 (m.worker 0).queue.tail (m.worker 0).queue.head ≠ cap)
    (hspinning : m.nSpinning = 0) (hwaiters : m.waiters = []) :
    run cap [] (.worker 0 : Thread 1 Client) 8 (m, .push current task .upToYou) =
      ({ m with worker := fun _ => { m.worker 0 with queue := afterPush cap (m.worker 0).queue task } }, .running current) := by
  rw [run_add cap [] _ 6 2, run_pushQueue current task hroom]
  simp [run_succ, step, workerStep, Mem.setWorker, update_one, hspinning, hwaiters, submitStep, submitDone]

theorem push_steps (current : Task) (clients : Client → Pc 1) (stopper : Pc 1)
    (hroom : sub64 (m.worker 0).queue.tail (m.worker 0).queue.head ≠ cap) (hspinning : m.nSpinning = 0)
    (hwaiters : m.waiters = []) :
    (system cap 1 Client).Steps ⟨m, solo (.running current) clients stopper⟩
      ⟨pushMem cap m, solo (.running current) clients stopper⟩ := by
  have hadmits : Admits cap (system cap 1 Client) fun _ => True := fun _ _ hstep _ _ => hstep
  have hcall : (system cap 1 Client).step ⟨m, solo (.running current) clients stopper⟩
      ⟨{ m with submitted := m.submitted + 1 }, solo (.push current m.submitted .upToYou) clients stopper⟩ := by
    refine ⟨.worker 0, _, _, .submitInside .upToYou, ?_⟩
    simp only [update_solo_worker]
  have hpush := hadmits.steps_worker clients stopper
    (run_push (m := { m with submitted := m.submitted + 1 }) current m.submitted hroom hspinning hwaiters) fun _ _ => trivial
  exact .trans (.tail .refl hcall) hpush

omit [DecidableEq Client] in
theorem exists_run_pop (current task : Task) (hrunning : (m.worker 0).stop = false) (hlifo : (m.worker 0).lifo = none)
    (hglobal : m.global = []) (hne : (m.worker 0).queue.tail ≠ (m.worker 0).queue.head)
    (hslot : (m.worker 0).queue.buffer ((m.worker 0).queue.head % cap) = some task) :
    ∃ j, run cap [] (.worker 0 : Thread 1 Client) j (m, .running current) =
      ({ m with
          worker := fun _ => { m.worker 0 with
            iter := (m.worker 0).iter + 1
            queue := { (m.worker 0).queue with
              head := add64 (m.worker 0).queue.head 1
              handed := (m.worker 0).queue.handed ++ [some task] } }
          started := m.started ++ [task]
          finished := m.finished ++ [current] }, .running task) := by
  obtain ⟨j, hrun⟩ := exists_run_popQueue current task hrunning hlifo hglobal hne hslot
  exact ⟨j, by rw [hrun, Mem.setWorker, update_one]⟩

theorem sub64_self {x : Nat} (hx : x < word) : sub64 x x = 0 := by
  unfold sub64
  rw [Nat.add_sub_cancel' hx.le, Nat.mod_self]

theorem add64_one {x : Nat} (hx : x + 1 < word) : add64 x 1 = x + 1 := Nat.mod_eq_of_lt hx

/-- The running task submits the next one, which the worker then pops and runs. -/
theorem Cycling.round (h : Cycling k m) (hcap : cap ≠ 0) (hk : k + 1 < word) (clients : Client → Pc 1) (stopper : Pc 1) :
    ∃ m', Cycling (k + 1) m' ∧ (system cap 1 Client).Steps ⟨m, solo (.running k) clients stopper⟩
      ⟨m', solo (.running (k + 1)) clients stopper⟩ := by
  have hadmits : Admits cap (system cap 1 Client) fun _ => True := fun _ _ hstep _ _ => hstep
  have hroom : sub64 (m.worker 0).queue.tail (m.worker 0).queue.head ≠ cap := by
    rw [h.head, h.tail, sub64_self (by omega)]
    exact hcap.symm
  have hpush := push_steps k clients stopper hroom h.spinning h.waiters
  have htail : ((pushMem cap m).worker 0).queue.tail = k + 1 := by
    simp only [pushMem, afterPush, h.tail, add64_one hk]
  have hslot : ((pushMem cap m).worker 0).queue.buffer (((pushMem cap m).worker 0).queue.head % cap) = some (k + 1) := by
    simp only [pushMem, afterPush, h.tail, h.head, h.submitted, Function.update_self]
  have hne : ((pushMem cap m).worker 0).queue.tail ≠ ((pushMem cap m).worker 0).queue.head := by
    rw [htail]
    simp only [pushMem, afterPush, h.head]
    omega
  obtain ⟨j, hrun⟩ := exists_run_pop (m := pushMem cap m) k (k + 1) h.running h.lifo h.global hne hslot
  have hpop := hadmits.steps_worker clients stopper hrun fun _ _ => trivial
  refine ⟨_, ?_, hpush.trans hpop⟩
  exact {
    head := by
      simp only [pushMem, afterPush, h.head, add64_one hk]
    tail := htail
    running := h.running
    lifo := h.lifo
    global := h.global
    waiters := h.waiters
    spinning := h.spinning
    submitted := by
      simp only [pushMem, h.submitted]
    started := by
      intro task htask
      rcases List.mem_append.1 htask with hold | hnew
      · exact (h.started task hold).trans (Nat.le_succ k)
      · exact (List.mem_singleton.1 hnew).le }

/-- A client submits the first task and the worker starts it. -/
theorem cycling_reachable (cap k : Nat) (hcap : cap ≠ 0) (hk : k < word) :
    ∃ m, Cycling k m ∧ (system cap 1 Unit).Reachable ⟨m, solo (.running k) (fun _ => .idle) .idle⟩ := by
  induction k with
  | zero =>
    have hadmits : Admits cap (system cap 1 Unit) fun _ => True := fun _ _ hstep _ _ => hstep
    have h0 : (system cap 1 Unit).Reachable ⟨.start 1, solo .loop (fun _ : Unit => .idle) .idle⟩ :=
      .init ⟨rfl, fun t => by cases t <;> rfl⟩
    have h1 := h0.step (hadmits.submit _ _ () rfl trivial trivial)
    have h2 := h1.steps (hadmits.steps_client (k := 3) _ _ () rfl rfl fun _ _ => trivial)
    have h3 := h2.steps (hadmits.steps_worker (k := 7) _ _ rfl fun _ _ => trivial)
    refine ⟨_, ⟨rfl, rfl, rfl, rfl, rfl, rfl, rfl, rfl, ?_⟩, h3⟩
    intro task htask
    exact (List.mem_singleton.1 htask).le
  | succ k ih =>
    obtain ⟨m, hcycling, hreach⟩ := ih (by omega)
    obtain ⟨m', hnext, hsteps⟩ := hcycling.round hcap hk (fun _ : Unit => .idle) .idle
    exact ⟨m', hnext, hreach.steps hsteps⟩

end Cycling

end CppConcur.WorkStealing.Pool
