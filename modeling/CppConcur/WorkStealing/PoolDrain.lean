import CppConcur.WorkStealing.PoolStop
import CppConcur.WorkStealing.PoolTasks
import CppConcur.WorkStealing.PoolWakeup
import Mathlib.Tactic.IntervalCases

/-!
# When `Stop` drains the pool

A thread passes the shutdown test when `Stop` reads `n_parked_` equal to the number of workers, or
when the last worker to park reads `ready_to_stop_` set. From then on the workers leave their loops
without looking at the queues again. `n_parked_` also counts workers that have been woken and have not
decremented it yet, so the test says nothing about the tasks these workers were woken for.

If every worker is parked and has not been woken when the first thread passes the test, no task is
left, and every task has been run when `Stop` returns.
-/

namespace CppConcur.WorkStealing.Pool

open Logic.Parking

variable {n : Nat}

/-! ### Started and finished tasks -/

section Runs

@[simp] theorem runs_pickFirst (parked : Bool) (iter : Nat) : (pickFirst parked iter : Pc n).runs = [] := by
  unfold pickFirst
  split <;> rfl

@[simp] theorem runs_stealNext (attempt : Attempt) (rest : List (Fin n)) : (stealNext attempt rest).runs = [] := by
  cases rest <;> cases attempt <;> rfl

@[simp] theorem runs_keepRest (i : Fin n) (attempt : Attempt) (stolen : Task) (rest : List Task) :
    (keepRest i attempt stolen rest).runs = [] := by
  cases rest <;> cases attempt <;> rfl

@[simp] theorem runs_wakeNext (left : Nat) (task : Task) : (wakeNext left task : Pc n).runs = [] := by
  cases left <;> rfl

@[simp] theorem runs_submitDone (current : Option Task) : (submitDone current : Pc n).runs = current.toList := by
  cases current <;> rfl

@[simp] theorem runs_stopNext (fromStop : Bool) (j : Nat) : (stopNext fromStop j : Pc n).runs = [] := by
  unfold stopNext joinNext
  repeat' split
  all_goals rfl

/-- The task that is running while its worker operates on a local queue. -/
def Use.runs : Use n → List Task
  | .push current _ => [current]
  | .offload current _ => [current]
  | _ => []

theorem runs_queue (v : Fin n) (qpc : WorkStealing.Pc Task) (use : Use n) : (Pc.queue v qpc use).runs = use.runs := by
  cases use <;> rfl

theorem Resumed.runs {cap : Nat} {i v : Fin n} {use : Use n} {qpc : WorkStealing.Pc Task} {pc : Pc n}
    (h : Resumed cap i v use qpc pc) : pc.runs = use.runs := by
  cases h with
  | sizeZero attempt rest size => exact runs_stealNext attempt rest
  | grab attempt rest out grabbed =>
    unfold stolenTasks
    split
    · exact runs_stealNext attempt rest
    · exact runs_keepRest ..
  | kept attempt stolen task rest => exact runs_keepRest ..
  | _ => rfl

variable (m : Mem n) (pc : Pc n) (task : Task)

/-- What a step does to the histories of started and finished tasks. -/
def RunsMove (m : Mem n) (pc : Pc n) (task : Task) (next : Mem n × Pc n) : Prop :=
  next.1.finished.count task + next.2.runs.count task + m.started.count task =
    m.finished.count task + pc.runs.count task + next.1.started.count task

theorem submitStep_runs : RunsMove m pc task (submitStep m pc) := by
  cases pc <;> simp only [submitStep]
  all_goals repeat' split
  all_goals simp only [RunsMove, runs_submitDone]
  all_goals rfl

theorem stopStep_runs : RunsMove m pc task (stopStep m pc) := by
  cases pc with
  | join i =>
    simp only [stopStep, joinNext]
    repeat' split
    all_goals rfl
  | _ =>
    simp only [stopStep]
    repeat' split
    all_goals simp only [RunsMove, runs_stopNext]
    all_goals rfl

theorem workerStep_runs (cap : Nat) (i : Fin n) (order : List (Fin n)) :
    RunsMove m pc task (workerStep cap i order m pc) := by
  cases pc with
  | queue v qpc use =>
    cases hresume : resume cap i v use qpc with
    | none =>
      simp only [workerStep, hresume, RunsMove, runs_queue]
      rfl
    | some pc' =>
      simp only [workerStep, hresume, RunsMove, runs_queue, (resumed_of_resume hresume).runs]
  | push current pushed hint =>
    cases hint with
    | next =>
      simp only [workerStep, RunsMove]
      split <;> rfl
    | _ => rfl
  | take started =>
    simp only [workerStep, RunsMove, Pc.runs, List.count_append, List.count_nil]
    omega
  | running current =>
    simp only [workerStep, RunsMove, Pc.runs, List.count_append, List.count_nil]
    omega
  | submitGlobal current submitted => exact submitStep_runs m _ task
  | submitCheck current => exact submitStep_runs m _ task
  | submitPop current => exact submitStep_runs m _ task
  | submitWake current v => exact submitStep_runs m _ task
  | _ =>
    simp only [workerStep, stopStep, submitStep]
    repeat' split
    all_goals simp only [RunsMove, runs_pickFirst, runs_stealNext, runs_wakeNext, runs_stopNext]
    all_goals rfl

theorem submitStep_finished_le : m.finished.count task ≤ (submitStep m pc).1.finished.count task := by
  cases pc <;> simp only [submitStep] <;> first | exact le_rfl | (split <;> exact le_rfl)

theorem stopStep_finished_le : m.finished.count task ≤ (stopStep m pc).1.finished.count task := by
  cases pc <;> exact le_rfl

theorem workerStep_finished_le (cap : Nat) (i : Fin n) (order : List (Fin n)) :
    m.finished.count task ≤ (workerStep cap i order m pc).1.finished.count task := by
  cases pc with
  | running current => exact List.Sublist.count_le task (List.sublist_append_left _ _)
  | push current pushed hint => cases hint <;> exact le_rfl
  | _ =>
    simp only [workerStep, stopStep, submitStep]
    repeat' split
    all_goals exact le_rfl

end Runs

section Reachable

variable {Client : Type*} {cap : Nat} {c : Logic.Conf (Thread n Client) (Mem n) (Pc n)}

theorem Act.runs {t : Thread n Client} {m m' : Mem n} {pc pc' : Pc n} (hact : Act cap t m pc m' pc') (task : Task) :
    RunsMove m pc task (m', pc') := by
  cases hact with
  | step order horder =>
    cases t with
    | worker i => exact workerStep_runs m pc task cap i order
    | client e => exact submitStep_runs m pc task
    | stopper => exact stopStep_runs m pc task
  | submit => rfl
  | submitInside hint => rfl
  | stop => rfl

/-- An action submits a task, or leaves the number of submitted tasks alone. -/
theorem Act.submitted_cases {t : Thread n Client} {m m' : Mem n} {pc pc' : Pc n} (hact : Act cap t m pc m' pc') :
    m'.submitted = m.submitted ∨ (∃ e task, t = .client e ∧ pc' = .submitGlobal none task) ∨
      ∃ current, pc = .running current := by
  cases hact with
  | step order horder =>
    left
    cases t with
    | worker i => exact workerStep_submitted cap m i order pc
    | client e => exact submitStep_submitted m pc
    | stopper => exact stopStep_submitted m pc
  | submit => exact .inr (.inl ⟨_, _, rfl, rfl⟩)
  | submitInside hint => exact .inr (.inr ⟨_, rfl⟩)
  | stop => exact .inl rfl

variable [DecidableEq Client] [Fintype Client]

/-- The started tasks are those that are running and those that have finished. -/
def Accounted (c : Logic.Conf (Thread n Client) (Mem n) (Pc n)) : Prop :=
  ∀ task, c.mem.finished.count task + ∑ t, (c.pc t).runs.count task = c.mem.started.count task

theorem accounted_of_reachable (h : (system cap n Client).Reachable c) : Accounted c := by
  refine h.invariant ?_ ?_
  · intro c hinit task
    obtain ⟨hmem, hpcs⟩ := hinit
    have hruns : ∀ t, (c.pc t).runs.count task = 0 := by
      intro t
      rw [hpcs]
      cases t <;> rfl
    simp only [hmem, hruns, Finset.sum_const_zero]
    rfl
  · rintro c c' - haccounted ⟨t, m, pc, hact, rfl⟩ task
    have hmove := hact.runs task
    have hsum := Logic.sum_update_add (fun pc : Pc n => pc.runs.count task) c.pc t pc
    have hold := haccounted task
    simp only [RunsMove] at hmove ⊢
    omega

/-! ### The thread that calls `Stop` -/

/-- The places of the thread that calls `Stop`. -/
def Pc.OfStop : Pc n → Prop
  | .idle => True
  | .stopReady => True
  | .stopLoad => True
  | .stopWait => True
  | .stopStore => True
  | .stopSet fromStop _ => fromStop = true
  | .stopWake fromStop _ => fromStop = true
  | .join _ => True
  | .stopReturned => True
  | _ => False

theorem ofStop_stopNext (k : Nat) : (stopNext true k : Pc n).OfStop ∧ (stopNext true k : Pc n) ≠ .idle := by
  unfold stopNext joinNext
  simp only [if_true]
  repeat' split
  all_goals exact ⟨by trivial, nofun⟩

/-- The thread that calls `Stop` stays in `Stop`, and before it calls it `ready_to_stop_` is not set. -/
structure StopperOk (c : Logic.Conf (Thread n Client) (Mem n) (Pc n)) : Prop where
  ofStop : (c.pc .stopper).OfStop
  ready : c.pc .stopper = .idle → c.mem.readyToStop = false

theorem stopStep_ofStop {m : Mem n} {pc : Pc n} (h : pc.OfStop) :
    (stopStep m pc).2.OfStop ∧ ((stopStep m pc).2 = .idle → pc = .idle) := by
  have hnext : ∀ k, (stopNext true k : Pc n).OfStop ∧ ((stopNext true k : Pc n) = .idle → pc = .idle) :=
    fun k => ⟨(ofStop_stopNext k).1, fun heq => absurd heq (ofStop_stopNext k).2⟩
  cases pc with
  | idle => exact ⟨trivial, id⟩
  | stopReady => exact ⟨trivial, by rintro ⟨⟩⟩
  | stopLoad =>
    simp only [stopStep]
    split <;> exact ⟨trivial, by rintro ⟨⟩⟩
  | stopWait =>
    simp only [stopStep]
    split
    · exact hnext 0
    · exact ⟨trivial, by rintro ⟨⟩⟩
  | stopStore => exact hnext 0
  | stopSet fromStop i => exact ⟨h, by rintro ⟨⟩⟩
  | stopWake fromStop i =>
    cases h
    exact hnext (i + 1)
  | join i =>
    simp only [stopStep, joinNext]
    repeat' split
    all_goals exact ⟨trivial, by rintro ⟨⟩⟩
  | stopReturned => exact ⟨trivial, by rintro ⟨⟩⟩
  | _ => exact h.elim

omit [Fintype Client] in
theorem stopperOk_of_reachable (h : (system cap n Client).Reachable c) : StopperOk c := by
  refine h.invariant ?_ ?_
  · intro c hinit
    obtain ⟨hmem, hpcs⟩ := hinit
    constructor
    · rw [hpcs]
      trivial
    · intro _
      rw [hmem]
      rfl
  · rintro c c' - hok ⟨t, m, pc, hact, rfl⟩
    generalize hpc : c.pc t = pc₀ at hact
    cases t with
    | worker i =>
      have hready : m.readyToStop = c.mem.readyToStop := by
        cases hact with
        | step order horder => exact workerStep_readyToStop c.mem pc₀ cap i order
        | submitInside hint => rfl
      have hstop : Function.update c.pc (.worker i) pc .stopper = c.pc .stopper := Function.update_of_ne (by simp) ..
      exact ⟨by simpa only [hstop] using hok.ofStop, by simpa only [hstop, hready] using hok.ready⟩
    | client e =>
      have hready : m.readyToStop = c.mem.readyToStop := by
        cases hact with
        | step order horder => exact (submitStep_flags c.mem pc₀).2.1
        | submit => rfl
      have hstop : Function.update c.pc (.client e) pc .stopper = c.pc .stopper := Function.update_of_ne (by simp) ..
      exact ⟨by simpa only [hstop] using hok.ofStop, by simpa only [hstop, hready] using hok.ready⟩
    | stopper =>
      cases hact with
      | stop => exact ⟨by simp only [Function.update_self]; trivial, by simp only [Function.update_self]; exact nofun⟩
      | step order horder =>
        have hof := hok.ofStop
        rw [hpc] at hof
        obtain ⟨hnext, hidle⟩ := stopStep_ofStop (m := c.mem) hof
        constructor
        · simp only [Function.update_self]
          exact hnext
        · simp only [Function.update_self]
          intro heq
          have hold := hidle heq
          have hready := hok.ready (hpc.trans hold)
          subst hold
          exact hready

/-! ### Runs in which the shutdown test is sound -/

/-- Nobody has passed the shutdown test yet. -/
def Undecided (c : Logic.Conf (Thread n Client) (Mem n) (Pc n)) : Prop :=
  c.mem.stopped = false ∧ (∀ i, ¬ (c.pc (.worker i)).Decided) ∧ c.pc .stopper ≠ .stopStore

/-- Every worker counts in `n_parked_` and has not been woken since it loaded its `wakeups_`. -/
def StillParked (c : Logic.Conf (Thread n Client) (Mem n) (Pc n)) : Prop :=
  ∀ i, ∃ old, (c.pc (.worker i) = .checkReady old ∨ c.pc (.worker i) = .checkStopped old ∨ c.pc (.worker i) = .wait old) ∧
    (c.mem.worker i).wakes = old

/-- When `Stop` has been called, no thread outside the pool is in a call of `Submit`. -/
def SubmitsReturned (c : Logic.Conf (Thread n Client) (Mem n) (Pc n)) : Prop :=
  c.pc .stopper ≠ .idle → ∀ e, c.pc (.client e) = .idle

/-- The runs in which every `Submit` from outside has returned before `Stop` is called. -/
def stopSystem (cap n : Nat) (Client : Type*) [DecidableEq Client] :
    Logic.System (Logic.Conf (Thread n Client) (Mem n) (Pc n)) :=
  (boundedSystem cap n Client).restrict fun _ c' => SubmitsReturned c'

/-- Of these, the runs in which all workers are still parked when the first thread passes the shutdown test. -/
def drainSystem (cap n : Nat) (Client : Type*) [DecidableEq Client] :
    Logic.System (Logic.Conf (Thread n Client) (Mem n) (Pc n)) :=
  (stopSystem cap n Client).restrict fun c c' => Undecided c → ¬ Undecided c' → StillParked c

/-- Every submitted task has finished, and none can be submitted any more. -/
structure Drained (c : Logic.Conf (Thread n Client) (Mem n) (Pc n)) : Prop where
  called : c.pc .stopper ≠ .idle
  finished : ∀ task, task < c.mem.submitted → 1 ≤ c.mem.finished.count task

omit [DecidableEq Client] [Fintype Client] in
/-- No action takes a task back from the finished ones. -/
theorem Act.finished_le {t : Thread n Client} {m m' : Mem n} {pc pc' : Pc n} (hact : Act cap t m pc m' pc') (task : Task) :
    m.finished.count task ≤ m'.finished.count task := by
  cases hact with
  | step order horder =>
    cases t with
    | worker i => exact workerStep_finished_le m pc task cap i order
    | client e => exact submitStep_finished_le m pc task
    | stopper => exact stopStep_finished_le m pc task
  | submit => exact le_rfl
  | submitInside hint => exact le_rfl
  | stop => exact le_rfl

omit [DecidableEq Client] in
theorem count_started_le (hconserved : Conserved cap c) (task : Task) : c.mem.started.count task ≤ c.mem.ever task := by
  have hsum := hconserved task
  simp only [Mem.stored] at hsum
  omega

omit [DecidableEq Client] [Fintype Client] in
theorem ever_le_one (m : Mem n) (task : Nat) : m.ever task ≤ 1 := by
  unfold Mem.ever
  split <;> omega

omit [DecidableEq Client] in
/-- A task that has finished is not running, so no task is submitted from the pool. -/
theorem Drained.not_running (h : Drained c) (hconserved : Conserved cap c) (haccounted : Accounted c)
    {t : Thread n Client} {current : Task} : c.pc t ≠ .running current := by
  intro hpc
  have hone : 1 ≤ ∑ t, (c.pc t).runs.count current := by
    have hle := Finset.single_le_sum (f := fun t => (c.pc t).runs.count current) (fun _ _ => Nat.zero_le _)
      (Finset.mem_univ t)
    simp only [hpc, Pc.runs, List.count_singleton_self] at hle
    exact hle
  have hrun := haccounted current
  have hle := count_started_le hconserved current
  have hever := ever_le_one c.mem current
  have hsubmitted : current < c.mem.submitted := by
    by_contra hnot
    have hzero : c.mem.ever current = 0 := if_neg hnot
    omega
  have hfinished := h.finished current hsubmitted
  omega

theorem Drained.act {t : Thread n Client} {m : Mem n} {pc : Pc n} (h : Drained c) (hconserved : Conserved cap c)
    (haccounted : Accounted c) (hok : StopperOk c) (hact : Act cap t c.mem (c.pc t) m pc)
    (hreturned : SubmitsReturned ⟨m, Function.update c.pc t pc⟩) : Drained ⟨m, Function.update c.pc t pc⟩ := by
  have hcalled : Function.update c.pc t pc .stopper ≠ .idle := by
    by_cases ht : t = .stopper
    · subst ht
      have hof := hok.ofStop
      have hne := h.called
      rw [Function.update_self]
      generalize c.pc .stopper = pc₀ at hact hof hne
      cases hact with
      | stop => nofun
      | step order horder => exact fun heq => hne ((stopStep_ofStop hof).2 heq)
    · rw [Function.update_of_ne (Ne.symm ht)]
      exact h.called
  refine ⟨hcalled, fun task hlt => ?_⟩
  rcases hact.submitted_cases with hsame | ⟨e, submitted, rfl, rfl⟩ | ⟨current, hpc⟩
  · exact (h.finished task (by simpa only [hsame] using hlt)).trans (hact.finished_le task)
  · have hidle := hreturned hcalled e
    simp only [Function.update_self] at hidle
    cases hidle
  · exact absurd hpc (h.not_running hconserved haccounted)

omit [DecidableEq Client] [Fintype Client] in
theorem not_inCall_of_ofStop {pc : Pc n} (h : pc.OfStop) : ¬ pc.InCall ∧ pc.hands = [] ∧ pc.runs = [] := by
  cases pc <;> first | exact h.elim | exact ⟨id, rfl, rfl⟩

/-- If all workers are parked and not woken when `Stop` has been called, every task has finished. -/
theorem drained_of_stillParked (hn : 0 < n) (h : (boundedSystem cap n Client).Reachable c) (hcalled : c.pc .stopper ≠ .idle)
    (hreturned : SubmitsReturned c) (hparked : StillParked c) : Drained c := by
  have hfree : ∀ t, ¬ (c.pc t).InCall ∧ (c.pc t).hands = [] ∧ (c.pc t).runs = [] := by
    intro t
    cases t with
    | client e =>
      rw [hreturned hcalled e]
      exact ⟨id, rfl, rfl⟩
    | stopper => exact not_inCall_of_ofStop (stopperOk_of_reachable h.of_restrict).ofStop
    | worker i =>
      obtain ⟨old, hpc | hpc | hpc, _⟩ := hparked i <;> rw [hpc] <;> exact ⟨id, rfl, rfl⟩
  have hrest : ∀ i, ∃ old, (c.pc (.worker i)).phase.resting = some old ∧ (c.mem.worker i).wakes ≤ old := by
    intro i
    obtain ⟨old, hpc | hpc | hpc, hwakes⟩ := hparked i <;> exact ⟨old, by rw [hpc]; rfl, hwakes.le⟩
  obtain ⟨hglobal, hlocal⟩ := empty_of_resting hn h (fun t => (hfree t).1) hrest
  refine ⟨hcalled, fun task hlt => ?_⟩
  have hheld : ∀ i, (c.mem.worker i).held cap task = 0 := by
    intro i
    rw [WorkerState.held, (hlocal i).1, (hlocal i).2]
    rfl
  have hconserved := conserved_of_reachable h task
  have haccounted := accounted_of_reachable h.of_restrict task
  simp only [Mem.stored, hglobal, hheld, (hfree _).2.1, List.count_nil, Finset.sum_const_zero, Mem.ever, if_pos hlt] at hconserved
  simp only [(hfree _).2.2, List.count_nil, Finset.sum_const_zero] at haccounted
  omega

omit [Fintype Client] in
/-- Nobody passes the shutdown test before `Stop` is called. -/
theorem called_of_decision {t : Thread n Client} {m : Mem n} {pc : Pc n} (hok : StopperOk c)
    (hact : Act cap t c.mem (c.pc t) m pc) (hbefore : Undecided c)
    (hafter : ¬ Undecided ⟨m, Function.update c.pc t pc⟩) : c.pc .stopper ≠ .idle := by
  intro hidle
  apply hafter
  obtain ⟨hstopped, hworkers, _⟩ := hbefore
  have hready := hok.ready hidle
  generalize hpc : c.pc t = pc₀ at hact
  cases t with
  | worker i =>
    have hown : m.stopped = false ∧ ¬ pc.Decided := by
      have hold := hworkers i
      rw [hpc] at hold
      cases hact with
      | submitInside hint => exact ⟨hstopped, id⟩
      | step order horder =>
        constructor
        · rcases workerStep_stopped c.mem pc₀ cap i order with hsame | ⟨rfl, _⟩
          · exact hsame.trans hstopped
          · exact absurd trivial hold
        · intro hdecided
          rcases decided_or hdecided with hdec | htrue
          · exact hold hdec
          · rw [hready] at htrue
            cases htrue
    refine ⟨hown.1, fun j => ?_, ?_⟩
    · by_cases hj : j = i
      · subst hj
        simpa only [Function.update_self] using hown.2
      · simpa only [ne_eq, Thread.worker.injEq, hj, not_false_eq_true, Function.update_of_ne] using hworkers j
    · simp only [ne_eq, reduceCtorEq, not_false_eq_true, Function.update_of_ne, hidle]
  | client e =>
    have hsame : m.stopped = c.mem.stopped := by
      cases hact with
      | submit => rfl
      | step order horder => exact (submitStep_flags c.mem pc₀).2.2
    refine ⟨hsame.trans hstopped, fun j => ?_, ?_⟩
    · simpa only [ne_eq, reduceCtorEq, not_false_eq_true, Function.update_of_ne] using hworkers j
    · simp only [ne_eq, reduceCtorEq, not_false_eq_true, Function.update_of_ne, hidle]
  | stopper =>
    rw [hidle] at hpc
    subst hpc
    have hown : m.stopped = false ∧ pc ≠ .stopStore := by
      cases hact with
      | stop => exact ⟨hstopped, nofun⟩
      | step order horder => exact ⟨hstopped, nofun⟩
    refine ⟨hown.1, fun j => ?_, ?_⟩
    · simpa only [ne_eq, reduceCtorEq, not_false_eq_true, Function.update_of_ne] using hworkers j
    · simpa only [Function.update_self] using hown.2

/-- Until the first thread passes the shutdown test anything may be queued; afterwards nothing is. -/
def DrainInv (c : Logic.Conf (Thread n Client) (Mem n) (Pc n)) : Prop :=
  SubmitsReturned c ∧ (Undecided c ∨ Drained c)

theorem drainInv_of_reachable (hn : 0 < n) (h : (drainSystem cap n Client).Reachable c) : DrainInv c := by
  refine h.invariant ?_ ?_
  · intro c hinit
    obtain ⟨hmem, hpcs⟩ := hinit
    refine ⟨fun hcalled => absurd (hpcs .stopper) hcalled, .inl ⟨by rw [hmem]; rfl, fun i => ?_, ?_⟩⟩
    · rw [hpcs]
      exact id
    · rw [hpcs]
      nofun
  · rintro c c' hreach ⟨hreturned, hor⟩ ⟨⟨⟨⟨t, m, pc, hact, rfl⟩, hbound⟩, hreturned'⟩, hsound⟩
    have hbounded := hreach.of_restrict.of_restrict
    have hok := stopperOk_of_reachable hbounded.of_restrict
    have hkeep : Drained c → Drained ⟨m, Function.update c.pc t pc⟩ := fun hdrained =>
      hdrained.act (conserved_of_reachable hbounded) (accounted_of_reachable hbounded.of_restrict) hok hact hreturned'
    refine ⟨hreturned', ?_⟩
    rcases hor with hundecided | hdrained
    · by_cases hafter : Undecided ⟨m, Function.update c.pc t pc⟩
      · exact .inl hafter
      · have hcalled := called_of_decision hok hact hundecided hafter
        exact .inr (hkeep (drained_of_stillParked hn hbounded hcalled hreturned (hsound hundecided hafter)))
    · exact .inr (hkeep hdrained)

/-- When `Stop` returns, every submitted task has been run exactly once, in every run in which all
workers are still parked when the first thread passes the shutdown test. -/
theorem stop_drains (hn : 0 < n) (h : (drainSystem cap n Client).Reachable c) (hreturned : c.pc .stopper = .stopReturned)
    (task : Task) (hsubmitted : task < c.mem.submitted) :
    c.mem.started.count task = 1 ∧ c.mem.finished.count task = 1 := by
  have hbounded := h.of_restrict.of_restrict
  have hstopped := (handshake_of_reachable hbounded.of_restrict).released (by rw [hreturned]; trivial)
  rcases (drainInv_of_reachable hn h).2 with ⟨hrunning, _⟩ | hdrained
  · rw [hstopped] at hrunning
    cases hrunning
  · have hfinished := hdrained.finished task hsubmitted
    have hstarted := count_started_le (conserved_of_reachable hbounded) task
    have hever := ever_le_one c.mem task
    have hrun := accounted_of_reachable hbounded.of_restrict task
    omega

end Reachable

/-! ### A run that leaves a task behind -/

section OneWorker

variable {Client : Type*} [DecidableEq Client]

theorem admits_stopSystem (cap : Nat) :
    Admits cap (stopSystem cap n Client) fun c => FewPushed c ∧ SubmitsReturned c :=
  fun _ _ hstep _ hafter => ⟨⟨hstep, hafter.1⟩, hafter.2⟩

/-- The worker is parked, one task has been submitted and the worker woken for it, and another task has
been submitted with nobody left to wake, when `Stop` reads `n_parked_`. -/
theorem stop_leaves_task :
    ∃ c, (stopSystem 7 1 Unit).Reachable c ∧ c.pc .stopper = .stopReturned ∧ c.mem.submitted = 2 ∧
      c.mem.global = [1] ∧ c.mem.started.count 1 = 0 := by
  have hadmits : Admits 7 (stopSystem 7 1 Unit) fun c => FewPushed c ∧ SubmitsReturned c := admits_stopSystem 7
  have hcalm : ∀ m worker (clients : Unit → Pc 1), SubmitsReturned ⟨m, solo worker clients .idle⟩ :=
    fun _ _ _ hcalled => absurd rfl hcalled
  have h0 : (stopSystem 7 1 Unit).Reachable ⟨.start 1, solo .loop (fun _ => .idle) .idle⟩ :=
    .init ⟨rfl, fun t => by cases t <;> rfl⟩
  have h1 := h0.steps (hadmits.steps_worker (k := 14) _ _ rfl fun _ hj =>
    ⟨pushed_run_lt 7 _ rfl (by decide) hj, hcalm _ _ _⟩)
  have h2 := h1.step (hadmits.submit _ _ () rfl ⟨few_of_empty rfl _, hcalm _ _ _⟩ ⟨few_of_empty rfl _, hcalm _ _ _⟩)
  have h3 := h2.steps (hadmits.steps_client (k := 4) _ _ () rfl rfl fun _ hj =>
    ⟨pushed_run_lt 7 _ rfl (by decide) hj, hcalm _ _ _⟩)
  have h4 := h3.step (hadmits.submit _ _ () rfl ⟨few_of_empty rfl _, hcalm _ _ _⟩ ⟨few_of_empty rfl _, hcalm _ _ _⟩)
  have h5 := h4.steps (hadmits.steps_client (k := 3) _ _ () rfl rfl fun _ hj =>
    ⟨pushed_run_lt 7 _ rfl (by decide) hj, hcalm _ _ _⟩)
  have h6 := h5.step (hadmits.stop _ _ ⟨few_of_empty rfl _, hcalm _ _ _⟩ ⟨few_of_empty rfl _, fun _ _ => rfl⟩)
  have h7 := h6.steps (hadmits.steps_stopper (k := 5) _ _ rfl fun _ hj =>
    ⟨pushed_run_lt 7 _ rfl (by decide) hj, fun _ _ => rfl⟩)
  have h8 := h7.steps (hadmits.steps_worker (k := 10) _ _ rfl fun _ hj =>
    ⟨pushed_run_lt 7 _ rfl (by decide) hj, fun _ _ => rfl⟩)
  have h9 := h8.steps (hadmits.steps_stopper (k := 1) _ _ rfl fun _ hj =>
    ⟨pushed_run_lt 7 _ rfl (by decide) hj, fun _ _ => rfl⟩)
  exact ⟨_, h9, rfl, rfl, rfl, rfl⟩

/-- Nobody passes the shutdown test before `Stop` is called, so until then every run is one of those
in which the test is sound. -/
theorem drain_of_idle {cap : Nat} {c : Logic.Conf (Thread n Client) (Mem n) (Pc n)}
    (h : (stopSystem cap n Client).Reachable c) (hidle : c.pc .stopper = .idle) : (drainSystem cap n Client).Reachable c := by
  induction h with
  | init hinit => exact .init hinit
  | @step c c' hreach hstep ih =>
    have hok := stopperOk_of_reachable hreach.of_restrict.of_restrict
    obtain ⟨⟨⟨t, m, pc, hact, rfl⟩, hfew⟩, hreturned⟩ := hstep
    have hbefore : c.pc .stopper = .idle := by
      by_cases ht : t = .stopper
      · subst ht
        have hof := hok.ofStop
        simp only [Function.update_self] at hidle
        generalize c.pc .stopper = pc₀ at hact hof ⊢
        cases hact with
        | stop => rfl
        | step order horder => exact (stopStep_ofStop hof).2 hidle
      · simpa only [ne_eq, Ne.symm ht, not_false_eq_true, Function.update_of_ne] using hidle
    refine (ih hbefore).step ⟨⟨⟨⟨t, m, pc, hact, rfl⟩, hfew⟩, hreturned⟩, fun hundecided hnot => ?_⟩
    exact absurd hbefore (called_of_decision hok hact hundecided hnot)

theorem admits_drainSystem (cap : Nat) : Admits cap (drainSystem cap n Client)
    fun c => FewPushed c ∧ SubmitsReturned c ∧ c.mem.stopped = true := by
  intro c c' hstep hbefore hafter
  refine ⟨⟨⟨hstep, hafter.1⟩, hafter.2.1⟩, fun hundecided _ => ?_⟩
  exact absurd (hundecided.1.symm.trans hbefore.2.2) nofun

/-- `Stop` is called when the one task has been run and the worker is parked. -/
theorem stop_drains_parked :
    ∃ c, (drainSystem 7 1 Unit).Reachable c ∧ c.pc .stopper = .stopReturned ∧ 0 < c.mem.submitted ∧
      c.mem.started.count 0 = 1 ∧ c.mem.finished.count 0 = 1 := by
  have hadmits : Admits 7 (stopSystem 7 1 Unit) fun c => FewPushed c ∧ SubmitsReturned c := admits_stopSystem 7
  have hdrain : Admits 7 (drainSystem 7 1 Unit) fun c => FewPushed c ∧ SubmitsReturned c ∧ c.mem.stopped = true :=
    admits_drainSystem 7
  have hcalm : ∀ m worker (clients : Unit → Pc 1), SubmitsReturned ⟨m, solo worker clients .idle⟩ :=
    fun _ _ _ hcalled => absurd rfl hcalled
  have h0 : (stopSystem 7 1 Unit).Reachable ⟨.start 1, solo .loop (fun _ => .idle) .idle⟩ :=
    .init ⟨rfl, fun t => by cases t <;> rfl⟩
  have h1 := h0.step (hadmits.submit _ _ () rfl ⟨few_of_empty rfl _, hcalm _ _ _⟩ ⟨few_of_empty rfl _, hcalm _ _ _⟩)
  have h2 := h1.steps (hadmits.steps_client (k := 3) _ _ () rfl rfl fun _ hj =>
    ⟨pushed_run_lt 7 _ rfl (by decide) hj, hcalm _ _ _⟩)
  have h3 := h2.steps (hadmits.steps_worker (k := 22) _ _ rfl fun _ hj =>
    ⟨pushed_run_lt 7 _ rfl (by decide) hj, hcalm _ _ _⟩)
  have h4 := drain_of_idle h3 rfl
  have h5 := h4.step ⟨⟨⟨⟨.stopper, _, _, .stop, rfl⟩, few_of_empty rfl _⟩, fun _ _ => rfl⟩,
    fun _ hnot => absurd ⟨rfl, fun _ => id, nofun⟩ hnot⟩
  have h6 := h5.step ⟨⟨⟨⟨.stopper, _, _, .step [] (.refl _), rfl⟩, few_of_empty rfl _⟩, fun _ _ => rfl⟩,
    fun _ hnot => absurd ⟨rfl, fun _ => id, nofun⟩ hnot⟩
  -- `Stop` reads `n_parked_` while the worker waits and has not been woken.
  have h7 := h6.step ⟨⟨⟨⟨.stopper, _, _, .step [] (.refl _), rfl⟩, few_of_empty rfl _⟩, fun _ _ => rfl⟩,
    fun _ _ => fun i => by
      rw [Fin.fin_one_eq_zero i]
      exact ⟨0, .inr (.inr rfl), rfl⟩⟩
  have h8 := h7.step ⟨⟨⟨⟨.stopper, _, _, .step [] (.refl _), rfl⟩, few_of_empty rfl _⟩, fun _ _ => rfl⟩,
    fun hundecided _ => absurd rfl hundecided.2.2⟩
  simp only [update_solo_stopper] at h8
  have h9 := h8.steps (hdrain.steps_stopper (k := 2) _ _ rfl fun j hj =>
    ⟨pushed_run_lt 7 _ rfl (by decide) hj, fun _ _ => rfl, by interval_cases j <;> rfl⟩)
  have h10 := h9.steps (hdrain.steps_worker (k := 8) _ _ rfl fun j hj =>
    ⟨pushed_run_lt 7 _ rfl (by decide) hj, fun _ _ => rfl, by interval_cases j <;> rfl⟩)
  have h11 := h10.steps (hdrain.steps_stopper (k := 1) _ _ rfl fun j hj =>
    ⟨pushed_run_lt 7 _ rfl (by decide) hj, fun _ _ => rfl, by interval_cases j <;> rfl⟩)
  exact ⟨_, h11, rfl, Nat.one_pos, stop_drains Nat.one_pos h11 rfl 0 Nat.one_pos⟩

end OneWorker

end CppConcur.WorkStealing.Pool
