import CppConcur.WorkStealing.PoolParking
import CppConcur.WorkStealing.PoolRuns

/-!
# The handshake of `Stop`

`Stop` raises `ready_to_stop_` and then reads `n_parked_`; a worker that parks increments `n_parked_`
and, if it is the last one, then reads `ready_to_stop_`. So one of the two sees the other, and `Stop`
never waits for a signal that nobody is going to give. When `stopped_` is set, every worker is woken
once more after that: a worker that has not read `stopped_` yet finds it set, and one that has read
it before is woken.
-/

namespace CppConcur.WorkStealing.Pool

open Logic.Parking

variable {n : Nat}

/-- One while a worker counts in `n_parked_`, as long as the pool is not stopped. -/
def Pc.parked : Pc n → Int
  | .checkReady _ => 1
  | .checkStopped _ => 1
  | .wait _ => 1
  | .unpark => 1
  | .stopSelf => 1
  | .signalLoad => 1
  | .signalStore => 1
  | _ => 0

/-- The worker has found `ready_to_stop_` set as the last one to park. -/
def Pc.Decided : Pc n → Prop
  | .stopSelf => True
  | .signalLoad => True
  | .signalStore => True
  | _ => False

/-- The last worker to park, until it has set `stopped_`. -/
def Pc.Deciding : Pc n → Prop
  | .checkReady _ => True
  | pc => pc.Decided

/-- `Stop` has raised `ready_to_stop_`. -/
def Pc.PastReady : Pc n → Prop
  | .stopLoad => True
  | .stopWait => True
  | .stopStore => True
  | .stopSet _ _ => True
  | .stopWake _ _ => True
  | .join _ => True
  | .stopReturned => True
  | _ => False

/-- `Stop` has seen `stopped_` set or set it. -/
def Pc.Released : Pc n → Prop
  | .stopSet _ _ => True
  | .stopWake _ _ => True
  | .join _ => True
  | .stopReturned => True
  | _ => False

/-- `Stop` has called `StoppingWake` on this worker. -/
def Pc.Woke (i : Fin n) : Pc n → Prop
  | .stopSet _ j => i < j
  | .stopWake _ j => i < j
  | .join _ => True
  | .stopReturned => True
  | _ => False

theorem Pc.Woke.released {i : Fin n} {pc : Pc n} (h : pc.Woke i) : pc.Released := by
  cases pc <;> trivial

theorem woke_stopNext {i : Fin n} {fromStop : Bool} {k : Nat} (h : (stopNext fromStop k).Woke i) : (i : Nat) < k := by
  unfold stopNext at h
  split at h
  · exact h
  · omega

theorem stopNext_ne_stopWait (fromStop : Bool) (k : Nat) : (stopNext fromStop k : Pc n) ≠ .stopWait := by
  unfold stopNext joinNext
  repeat' split
  all_goals nofun

/-! ### What the steps do to the flags and to `n_parked_` -/

section Steps

variable (m : Mem n) (pc : Pc n)

theorem submitStep_flags : (submitStep m pc).1.nParked = m.nParked ∧ (submitStep m pc).1.readyToStop = m.readyToStop ∧
    (submitStep m pc).1.stopped = m.stopped := by
  cases pc with
  | submitPop current => cases hwaiters : m.waiters <;> simp only [submitStep, hwaiters, and_self]
  | _ => exact ⟨rfl, rfl, rfl⟩

theorem stopStep_nParked : (stopStep m pc).1.nParked = m.nParked := by
  cases pc <;> rfl

theorem stopStep_readyToStop (h : m.readyToStop = true) : (stopStep m pc).1.readyToStop = true := by
  cases pc <;> first | exact h | rfl

theorem stopStep_stopped (h : m.stopped = true) : (stopStep m pc).1.stopped = true := by
  cases pc <;> first | exact h | rfl

theorem stopStep_pastReady (h : (stopStep m pc).2.PastReady) : pc.PastReady ∨ (stopStep m pc).1.readyToStop = true := by
  cases pc <;> first | exact .inl trivial | exact .inr rfl | exact h.elim

theorem stopStep_released (h : (stopStep m pc).2.Released) : pc.Released ∨ (stopStep m pc).1.stopped = true := by
  cases pc with
  | stopStore => exact .inr rfl
  | stopLoad =>
    simp only [stopStep] at h
    split at h <;> exact h.elim
  | stopWait =>
    simp only [stopStep] at h ⊢
    split at h
    · exact .inr ‹_›
    · exact h.elim
  | _ => exact .inl (by trivial)

/-- `Stop` starts to wait only if it has read that not all workers are parked. -/
theorem stopStep_wait (h : (stopStep m pc).2 = .stopWait) : pc = .stopWait ∨ m.nParked ≠ n := by
  cases pc with
  | stopWait => exact .inl rfl
  | stopLoad =>
    simp only [stopStep] at h
    split at h
    · cases h
    · exact .inr ‹_›
  | stopStore => exact absurd h (stopNext_ne_stopWait true 0)
  | stopWake fromStop j => exact absurd h (stopNext_ne_stopWait fromStop (j + 1))
  | join j =>
    simp only [stopStep, joinNext] at h
    repeat' split at h
    all_goals cases h
  | _ => cases h

theorem stopStep_woke {i : Fin n} (h : (stopStep m pc).2.Woke i) :
    pc.Woke i ∨ pc = .stopWake true i ∨ pc = .stopWake false i := by
  cases pc with
  | stopLoad =>
    simp only [stopStep] at h
    split at h <;> exact h.elim
  | stopWait =>
    simp only [stopStep] at h
    split at h
    · exact absurd (woke_stopNext h) (Nat.not_lt_zero _)
    · exact h.elim
  | stopStore => exact absurd (woke_stopNext h) (Nat.not_lt_zero _)
  | stopWake fromStop j =>
    have hlt := woke_stopNext h
    by_cases hij : i = j
    · subst hij
      cases fromStop
      · exact .inr (.inr rfl)
      · exact .inr (.inl rfl)
    · left
      change (i : Nat) < j
      omega
  | stopSet fromStop j => exact .inl h
  | join j => exact .inl trivial
  | _ => exact .inl h

theorem workerStep_readyToStop (cap : Nat) (i : Fin n) (order : List (Fin n)) :
    (workerStep cap i order m pc).1.readyToStop = m.readyToStop := by
  cases pc with
  | push current task hint => cases hint <;> rfl
  | _ =>
    simp only [workerStep, stopStep, submitStep]
    repeat' split
    all_goals rfl

theorem workerStep_stopped (cap : Nat) (i : Fin n) (order : List (Fin n)) :
    (workerStep cap i order m pc).1.stopped = m.stopped ∨
      pc = .signalStore ∧ (workerStep cap i order m pc).1.stopped = true := by
  cases pc with
  | signalStore => exact .inr ⟨rfl, rfl⟩
  | push current task hint => cases hint <;> exact .inl rfl
  | _ =>
    left
    simp only [workerStep, stopStep, submitStep]
    repeat' split
    all_goals rfl

end Steps

section Parked

@[simp] theorem parked_pickFirst (parked : Bool) (iter : Nat) : (pickFirst parked iter : Pc n).parked = 0 := by
  unfold pickFirst
  split <;> rfl

@[simp] theorem parked_stealNext (attempt : Attempt) (rest : List (Fin n)) : (stealNext attempt rest).parked = 0 := by
  cases rest <;> cases attempt <;> rfl

@[simp] theorem parked_keepRest (i : Fin n) (attempt : Attempt) (stolen : Task) (rest : List Task) :
    (keepRest i attempt stolen rest).parked = 0 := by
  cases rest <;> cases attempt <;> rfl

@[simp] theorem parked_wakeNext (left : Nat) (task : Task) : (wakeNext left task : Pc n).parked = 0 := by
  cases left <;> rfl

@[simp] theorem parked_submitDone (current : Option Task) : (submitDone current : Pc n).parked = 0 := by
  cases current <;> rfl

@[simp] theorem parked_stopNext (fromStop : Bool) (j : Nat) : (stopNext fromStop j : Pc n).parked = 0 := by
  unfold stopNext joinNext
  repeat' split
  all_goals rfl

theorem Resumed.parked {cap : Nat} {i v : Fin n} {use : Use n} {qpc : WorkStealing.Pc Task} {pc : Pc n}
    (h : Resumed cap i v use qpc pc) : pc.parked = 0 := by
  cases h with
  | sizeZero attempt rest size => exact parked_stealNext attempt rest
  | grab attempt rest out grabbed =>
    unfold stolenTasks
    split
    · exact parked_stealNext attempt rest
    · exact parked_keepRest ..
  | kept attempt stolen task rest => exact parked_keepRest ..
  | _ => rfl

/-- A worker changes `n_parked_` exactly when it starts or stops to count in it, until the pool is stopped. -/
theorem workerStep_parked {cap : Nat} {i : Fin n} {order : List (Fin n)} {m : Mem n} {pc : Pc n}
    (hready : pc.Decided → m.readyToStop = true) (hrunning : (workerStep cap i order m pc).1.stopped = false) :
    (workerStep cap i order m pc).1.nParked + pc.parked = m.nParked + (workerStep cap i order m pc).2.parked := by
  cases pc with
  | queue v qpc use =>
    cases hresume : resume cap i v use qpc with
    | none =>
      simp only [workerStep, hresume]
      rfl
    | some pc' =>
      simp only [workerStep, hresume, (resumed_of_resume hresume).parked]
      rfl
  | push current task hint =>
    cases hint with
    | next =>
      simp only [workerStep]
      split <;> rfl
    | _ => rfl
  | signalLoad => simp only [workerStep, hready trivial, if_true]; rfl
  | signalStore => cases hrunning
  | checkStopped old =>
    simp only [workerStep] at hrunning ⊢
    rw [hrunning]
    rfl
  | _ =>
    simp only [workerStep, stopStep, submitStep]
    repeat' split
    all_goals try simp only [parked_pickFirst, parked_stealNext, parked_wakeNext, parked_submitDone, parked_stopNext]
    all_goals simp [Pc.parked, Mem.wake, Mem.setStop, Mem.setWorker]

end Parked

/-! ### The steps of a worker that counts as parked -/

section WorkerSteps

variable {cap : Nat} {i : Fin n} {order : List (Fin n)} {m : Mem n} {pc : Pc n}

theorem parked_step_cases (h : (workerStep cap i order m pc).2.parked ≠ 0) :
    (∃ old, pc = .park old) ∨ (∃ old, pc = .checkReady old) ∨ (∃ old, pc = .checkStopped old) ∨
      (∃ old, pc = .wait old) ∨ pc = .stopSelf ∨ pc = .signalLoad := by
  cases pc with
  | park old => exact .inl ⟨old, rfl⟩
  | checkReady old => exact .inr (.inl ⟨old, rfl⟩)
  | checkStopped old => exact .inr (.inr (.inl ⟨old, rfl⟩))
  | wait old => exact .inr (.inr (.inr (.inl ⟨old, rfl⟩)))
  | stopSelf => exact .inr (.inr (.inr (.inr (.inl rfl))))
  | signalLoad => exact .inr (.inr (.inr (.inr (.inr rfl))))
  | queue v qpc use =>
    cases hresume : resume cap i v use qpc with
    | none =>
      simp only [workerStep, hresume] at h
      exact absurd rfl h
    | some pc' =>
      simp only [workerStep, hresume, (resumed_of_resume hresume).parked] at h
      exact absurd rfl h
  | push current task hint =>
    cases hint with
    | next =>
      simp only [workerStep] at h
      split at h <;> exact absurd rfl h
    | _ => exact absurd rfl h
  | _ =>
    exfalso
    apply h
    simp only [workerStep, stopStep, submitStep]
    repeat' split
    all_goals first
      | rfl
      | exact parked_pickFirst ..
      | exact parked_wakeNext ..
      | exact parked_submitDone ..
      | exact parked_stopNext ..
      | simp only [parked_stealNext]

theorem decided_or (h : (workerStep cap i order m pc).2.Decided) : pc.Decided ∨ m.readyToStop = true := by
  have hparked : (workerStep cap i order m pc).2.parked ≠ 0 := by
    generalize (workerStep cap i order m pc).2 = pc' at h
    cases pc' <;> first | exact h.elim | exact Int.one_ne_zero
  rcases parked_step_cases hparked with ⟨old, rfl⟩ | ⟨old, rfl⟩ | ⟨old, rfl⟩ | ⟨old, rfl⟩ | rfl | rfl
  · simp only [workerStep] at h
    split at h <;> exact h.elim
  · simp only [workerStep] at h
    split at h
    · exact .inr ‹_›
    · exact h.elim
  · simp only [workerStep] at h
    split at h <;> exact h.elim
  · simp only [workerStep] at h
    split at h <;> exact h.elim
  · exact .inl trivial
  · exact .inl trivial

/-- A worker gets to wait only after it has seen that the pool is not stopped. -/
theorem wait_or {old : Nat} (h : (workerStep cap i order m pc).2 = .wait old) :
    pc = .wait old ∨ m.stopped = false := by
  have hparked : (workerStep cap i order m pc).2.parked ≠ 0 := by
    rw [h]
    exact Int.one_ne_zero
  rcases parked_step_cases hparked with ⟨old, rfl⟩ | ⟨old, rfl⟩ | ⟨old, rfl⟩ | ⟨old, rfl⟩ | rfl | rfl
  · simp only [workerStep] at h
    split at h <;> cases h
  · simp only [workerStep] at h
    split at h <;> cases h
  · simp only [workerStep] at h
    split at h
    · cases h
    · exact .inr (Bool.eq_false_of_not_eq_true ‹_›)
  · simp only [workerStep] at h
    split at h
    · exact .inl h
    · cases h
  · cases h
  · simp only [workerStep] at h
    split at h
    · cases h
    · have hzero := parked_stopNext (n := n) false 0
      rw [h] at hzero
      exact absurd hzero Int.one_ne_zero

/-- The last worker to park goes on to set `stopped_` if `Stop` has been called. -/
theorem deciding_step (h : pc.Deciding) (hready : m.readyToStop = true) :
    (workerStep cap i order m pc).2.Deciding ∨ (workerStep cap i order m pc).1.stopped = true := by
  cases pc with
  | checkReady old =>
    simp only [workerStep, hready, if_true]
    exact .inl trivial
  | stopSelf => exact .inl trivial
  | signalLoad =>
    simp only [workerStep, hready, if_true]
    exact .inl trivial
  | signalStore => exact .inr rfl
  | _ => exact h.elim

/-- `n_parked_` reaches the number of workers only through a worker that then decides. -/
theorem nParked_step (cap : Nat) (i : Fin n) (order : List (Fin n)) (pc : Pc n) (h : m.nParked < n) :
    (workerStep cap i order m pc).1.nParked < n ∨ (workerStep cap i order m pc).2.Deciding := by
  cases pc with
  | park old =>
    simp only [workerStep]
    split
    · exact .inr trivial
    · exact .inl (by omega)
  | unpark => exact .inl (by simp only [workerStep]; omega)
  | push current task hint => cases hint <;> exact .inl h
  | _ =>
    left
    simp only [workerStep, stopStep, submitStep]
    repeat' split
    all_goals exact h

end WorkerSteps

/-! ### The invariant -/

section Reachable

variable {Client : Type*} [DecidableEq Client] {cap : Nat} {c : Logic.Conf (Thread n Client) (Mem n) (Pc n)}

/-- The invariant of the handshake between `Stop` and the workers. -/
structure Handshake (c : Logic.Conf (Thread n Client) (Mem n) (Pc n)) : Prop where
  ready_of_stop : (c.pc .stopper).PastReady → c.mem.readyToStop = true
  ready_of_worker : ∀ i, (c.pc (.worker i)).Decided → c.mem.readyToStop = true
  parked : c.mem.stopped = false → c.mem.nParked = ∑ i, (c.pc (.worker i)).parked
  waiting : c.pc .stopper = .stopWait → c.mem.stopped = false →
    c.mem.nParked < n ∨ ∃ i, (c.pc (.worker i)).Deciding
  released : (c.pc .stopper).Released → c.mem.stopped = true
  woken : ∀ i, (c.pc .stopper).Woke i → ∀ old, c.pc (.worker i) = .wait old → old < (c.mem.worker i).wakes

theorem Handshake.worker_step {i : Fin n} {order : List (Fin n)} (h : Handshake c) :
    Handshake ⟨(workerStep cap i order c.mem (c.pc (.worker i))).1,
      Function.update c.pc (.worker i) (workerStep cap i order c.mem (c.pc (.worker i))).2⟩ := by
  have hstop : Function.update c.pc (.worker i) (workerStep cap i order c.mem (c.pc (.worker i))).2 .stopper = c.pc .stopper :=
    Function.update_of_ne (by simp) ..
  have hstopped : (workerStep cap i order c.mem (c.pc (.worker i))).1.stopped = false → c.mem.stopped = false := by
    intro hfalse
    rcases workerStep_stopped c.mem (c.pc (.worker i)) cap i order with hsame | ⟨_, htrue⟩
    · rw [← hsame, hfalse]
    · rw [htrue] at hfalse
      cases hfalse
  have hwakes := (workerStep_shift cap i order c.mem (c.pc (.worker i))).wakes_le
  have hother : ∀ {j}, j ≠ i →
      Function.update c.pc (.worker i) (workerStep cap i order c.mem (c.pc (.worker i))).2 (.worker j) = c.pc (.worker j) :=
    fun hj => Function.update_of_ne (by simpa using hj) ..
  exact {
    ready_of_stop := by
      intro hpast
      simp only [hstop] at hpast
      exact (workerStep_readyToStop ..).trans (h.ready_of_stop hpast)
    ready_of_worker := by
      intro j hj
      refine (workerStep_readyToStop ..).trans ?_
      by_cases hji : j = i
      · subst hji
        simp only [Function.update_self] at hj
        rcases decided_or hj with hold | hready
        · exact h.ready_of_worker j hold
        · exact hready
      · simp only [hother hji] at hj
        exact h.ready_of_worker j hj
    parked := by
      intro hrunning
      have hcount := workerStep_parked (h.ready_of_worker i) hrunning
      have hold := h.parked (hstopped hrunning)
      simp only [sum_worker_update Pc.parked]
      omega
    waiting := by
      intro hwait hrunning
      simp only [hstop] at hwait
      have hready := h.ready_of_stop (hwait ▸ trivial)
      rcases h.waiting hwait (hstopped hrunning) with hlt | ⟨j, hj⟩
      · rcases nParked_step cap i order (c.pc (.worker i)) hlt with hlt' | hdeciding
        · exact .inl hlt'
        · exact .inr ⟨i, by simp only [Function.update_self]; exact hdeciding⟩
      · by_cases hji : j = i
        · subst hji
          rcases deciding_step hj hready with hdeciding | htrue
          · exact .inr ⟨j, by simp only [Function.update_self]; exact hdeciding⟩
          · simp only [htrue] at hrunning
            cases hrunning
        · exact .inr ⟨j, by simp only [hother hji]; exact hj⟩
    released := by
      intro hreleased
      simp only [hstop] at hreleased
      have htrue := h.released hreleased
      cases hfalse : (workerStep cap i order c.mem (c.pc (.worker i))).1.stopped with
      | true => rfl
      | false =>
        rw [hstopped hfalse] at htrue
        cases htrue
    woken := by
      intro j hwoke old hwait
      simp only [hstop] at hwoke
      refine Nat.lt_of_lt_of_le (h.woken j hwoke old ?_) (hwakes j)
      by_cases hji : j = i
      · subst hji
        simp only [Function.update_self] at hwait
        rcases wait_or hwait with hold | hfalse
        · exact hold
        · rw [h.released hwoke.released] at hfalse
          cases hfalse
      · simpa only [hother hji] using hwait }

omit [DecidableEq Client] in
theorem Handshake.nParked_lt (h : Handshake c) (hrunning : c.mem.stopped = false) (hne : c.mem.nParked ≠ n) :
    c.mem.nParked < n := by
  have hle : ∑ i, (c.pc (.worker i)).parked ≤ ∑ _i : Fin n, (1 : Int) := by
    apply Finset.sum_le_sum
    intro i _
    cases c.pc (.worker i) <;> first | exact le_rfl | exact Int.zero_le_ofNat 1
  rw [← h.parked hrunning, Finset.sum_const, Finset.card_univ, Fintype.card_fin, nsmul_one] at hle
  exact lt_of_le_of_ne hle hne

theorem Handshake.stop_step (h : Handshake c)
    (hsince : ∀ i old, c.pc (.worker i) = .wait old → old ≤ (c.mem.worker i).wakes) :
    Handshake ⟨(stopStep c.mem (c.pc .stopper)).1, Function.update c.pc .stopper (stopStep c.mem (c.pc .stopper)).2⟩ := by
  have hworker : ∀ i, Function.update c.pc .stopper (stopStep c.mem (c.pc .stopper)).2 (.worker i) = c.pc (.worker i) :=
    fun i => Function.update_of_ne (by simp) ..
  have hstopped : (stopStep c.mem (c.pc .stopper)).1.stopped = false → c.mem.stopped = false := by
    intro hfalse
    cases hmem : c.mem.stopped with
    | false => rfl
    | true =>
      rw [stopStep_stopped c.mem _ hmem] at hfalse
      cases hfalse
  exact {
    ready_of_stop := by
      intro hpast
      simp only [Function.update_self] at hpast
      rcases stopStep_pastReady _ _ hpast with hold | hready
      · exact stopStep_readyToStop _ _ (h.ready_of_stop hold)
      · exact hready
    ready_of_worker := by
      intro i hi
      simp only [hworker] at hi
      exact stopStep_readyToStop _ _ (h.ready_of_worker i hi)
    parked := by
      intro hrunning
      simp only [hworker, stopStep_nParked]
      exact h.parked (hstopped hrunning)
    waiting := by
      intro hwait hrunning
      simp only [Function.update_self] at hwait
      simp only [hworker, stopStep_nParked]
      rcases stopStep_wait _ _ hwait with hold | hne
      · exact h.waiting hold (hstopped hrunning)
      · exact .inl (h.nParked_lt (hstopped hrunning) hne)
    released := by
      intro hreleased
      simp only [Function.update_self] at hreleased
      rcases stopStep_released _ _ hreleased with hold | htrue
      · exact stopStep_stopped _ _ (h.released hold)
      · exact htrue
    woken := by
      intro i hwoke old hwait
      simp only [Function.update_self] at hwoke
      simp only [hworker] at hwait
      have hwakes := (stopStep_shift none c.mem (c.pc .stopper)).wakes_le i
      have hwake : ∀ fromStop, c.pc .stopper = .stopWake fromStop i →
          old < ((stopStep c.mem (c.pc .stopper)).1.worker i).wakes := by
        intro fromStop hpc
        have hle := hsince i old hwait
        rw [hpc]
        simp only [stopStep, wakes_wake, if_pos]
        omega
      rcases stopStep_woke _ _ hwoke with hold | htrue | hfalse
      · exact Nat.lt_of_lt_of_le (h.woken i hold old hwait) hwakes
      · exact hwake true htrue
      · exact hwake false hfalse }

omit [DecidableEq Client] in
/-- A step that leaves the flags, `n_parked_` and the workers' places alone. -/
theorem Handshake.of_same {m : Mem n} {pcs : Thread n Client → Pc n} (h : Handshake c)
    (hflags : m.nParked = c.mem.nParked ∧ m.readyToStop = c.mem.readyToStop ∧ m.stopped = c.mem.stopped)
    (hwakes : ∀ i, (c.mem.worker i).wakes ≤ (m.worker i).wakes) (hstop : pcs .stopper = c.pc .stopper)
    (hpcs : ∀ i, pcs (.worker i) = c.pc (.worker i)) : Handshake ⟨m, pcs⟩ := by
  obtain ⟨hparked, hready, hstopped⟩ := hflags
  constructor <;> simp only [hparked, hready, hstopped, hstop, hpcs]
  · exact h.ready_of_stop
  · exact h.ready_of_worker
  · exact h.parked
  · exact h.waiting
  · exact h.released
  · exact fun i hwoke old hwait => Nat.lt_of_lt_of_le (h.woken i hwoke old hwait) (hwakes i)

/-- A `Submit` from a running task is no part of the handshake. -/
theorem Handshake.submitInside {i : Fin n} {m : Mem n} {current task : Task} {hint : Hint} (h : Handshake c)
    (hpc : c.pc (.worker i) = .running current) (hmem : m = { c.mem with submitted := c.mem.submitted + 1 }) :
    Handshake ⟨m, Function.update c.pc (.worker i) (.push current task hint)⟩ := by
  subst hmem
  have hstop : Function.update c.pc (.worker i) (.push current task hint) .stopper = c.pc .stopper :=
    Function.update_of_ne (by simp) ..
  have hother : ∀ {j}, j ≠ i → Function.update c.pc (.worker i) (.push current task hint) (.worker j) = c.pc (.worker j) :=
    fun hj => Function.update_of_ne (by simpa using hj) ..
  exact {
    ready_of_stop := by
      simpa only [hstop] using h.ready_of_stop
    ready_of_worker := by
      intro j hj
      by_cases hji : j = i
      · subst hji
        simp only [Function.update_self] at hj
        exact hj.elim
      · exact h.ready_of_worker j (by simpa only [hother hji] using hj)
    parked := by
      intro hrunning
      have hold := h.parked hrunning
      simp only [sum_worker_update Pc.parked, hpc, hold]
      exact (add_zero _).symm
    waiting := by
      intro hwait hrunning
      rcases h.waiting (by simpa only [hstop] using hwait) hrunning with hlt | ⟨j, hj⟩
      · exact .inl hlt
      · have hji : j ≠ i := by
          rintro rfl
          rw [hpc] at hj
          exact hj
        exact .inr ⟨j, by simpa only [hother hji] using hj⟩
    released := by
      simpa only [hstop] using h.released
    woken := by
      intro j hwoke old hwait
      by_cases hji : j = i
      · subst hji
        simp only [Function.update_self] at hwait
        cases hwait
      · exact h.woken j (by simpa only [hstop] using hwoke) old (by simpa only [hother hji] using hwait) }

theorem Handshake.act {t : Thread n Client} {m : Mem n} {pc : Pc n} (h : Handshake c)
    (hsince : ∀ i old, c.pc (.worker i) = .wait old → old ≤ (c.mem.worker i).wakes)
    (hact : Act cap t c.mem (c.pc t) m pc) : Handshake ⟨m, Function.update c.pc t pc⟩ := by
  have hwakes := hact.shift.wakes_le
  generalize hpc : c.pc t = pc₀ at hact
  cases t with
  | worker i =>
    cases hact with
    | submitInside hint => exact h.submitInside hpc rfl
    | step order horder =>
      subst hpc
      exact h.worker_step
  | client e =>
    have hstop : Function.update c.pc (.client e) pc .stopper = c.pc .stopper := Function.update_of_ne (by simp) ..
    have hpcs : ∀ i, Function.update c.pc (.client e) pc (.worker i) = c.pc (.worker i) :=
      fun i => Function.update_of_ne (by simp) ..
    cases hact with
    | submit => exact h.of_same ⟨rfl, rfl, rfl⟩ hwakes hstop hpcs
    | step order horder => exact h.of_same (submitStep_flags c.mem pc₀) hwakes hstop hpcs
  | stopper =>
    cases hact with
    | stop =>
      have hpcs : ∀ i, Function.update c.pc .stopper .stopReady (.worker i) = c.pc (.worker i) :=
        fun i => Function.update_of_ne (by simp) ..
      constructor <;> simp only [Function.update_self, hpcs]
      · exact False.elim
      · exact h.ready_of_worker
      · exact h.parked
      · exact nofun
      · exact False.elim
      · exact fun _ hwoke => hwoke.elim
    | step order horder =>
      subst hpc
      exact h.stop_step hsince

theorem handshake_of_reachable (h : (system cap n Client).Reachable c) : Handshake c := by
  refine h.invariant ?_ ?_
  · intro c hinit
    obtain ⟨hmem, hpcs⟩ := hinit
    constructor <;> simp only [hmem, hpcs]
    · exact False.elim
    · exact fun _ hdecided => hdecided.elim
    · exact fun _ => (Finset.sum_eq_zero fun _ _ => rfl).symm
    · exact nofun
    · exact False.elim
    · exact fun _ hwoke => hwoke.elim
  · rintro c c' hreach hinv ⟨t, m, pc, hact, rfl⟩
    refine hinv.act ?_ hact
    intro i old hwait
    exact (protocol_of_reachable i.pos hreach).since_le i old (by rw [hwait]; rfl)

/-- The loop of `StoppingWake` calls of `Stop` is over. -/
def Pc.LoopOver : Pc n → Prop
  | .join _ => True
  | .stopReturned => True
  | _ => False

/-- A worker blocked in `futex::Wait`. -/
def Blocked (c : Logic.Conf (Thread n Client) (Mem n) (Pc n)) (i : Fin n) (old : Nat) : Prop :=
  c.pc (.worker i) = .wait old ∧ wakeups (c.mem.worker i).wakes = wakeups old

/-- `Stop` and the workers never all wait for each other, and when `Stop` has woken all workers none
stays blocked, unless its `wakeups_` was incremented `2^32` times since it loaded it. -/
theorem stop_handshake (h : (system cap n Client).Reachable c) :
    ¬ (c.pc .stopper = .stopWait ∧ c.mem.stopped = false ∧ ∀ i, ∃ old, Blocked c i old) ∧
      ((c.pc .stopper).LoopOver →
        ∀ i old, (c.mem.worker i).wakes < old + 2 ^ 32 → ¬ Blocked c i old) := by
  have hinv := handshake_of_reachable h
  constructor
  · rintro ⟨hwait, hrunning, hblocked⟩
    rcases hinv.waiting hwait hrunning with hlt | ⟨i, hdeciding⟩
    · have hone : ∀ i, (c.pc (.worker i)).parked = 1 := by
        intro i
        obtain ⟨old, hpc, _⟩ := hblocked i
        rw [hpc]
        rfl
      rw [hinv.parked hrunning, Finset.sum_congr rfl fun i _ => hone i, Finset.sum_const, Finset.card_univ,
        Fintype.card_fin, nsmul_one] at hlt
      exact lt_irrefl _ hlt
    · obtain ⟨old, hpc, _⟩ := hblocked i
      rw [hpc] at hdeciding
      exact hdeciding
  · rintro hover i old hfew ⟨hpc, hsame⟩
    have hwoke : (c.pc .stopper).Woke i := by
      generalize c.pc .stopper = pc at hover
      cases pc <;> trivial
    have hlt := hinv.woken i hwoke old hpc
    unfold wakeups at hsame
    omega

/-- `Stop` wakes the one worker, which is parked. -/
theorem stop_handshake_parked :
    ∃ c, (system 7 1 Nat).Reachable c ∧ c.pc .stopper = .join 0 ∧ c.pc (.worker 0) = .wait 0 ∧
      ¬ (c.pc .stopper = .stopWait ∧ c.mem.stopped = false ∧ ∀ i, ∃ old, Blocked c i old) ∧
        ((c.pc .stopper).LoopOver → ∀ i old, (c.mem.worker i).wakes < old + 2 ^ 32 → ¬ Blocked c i old) := by
  have hreach := (stopped_reachable 7 0).of_restrict
  exact ⟨_, hreach, rfl, rfl, stop_handshake hreach⟩

/-- With `2^32 - 1` calls of `Submit` that stall between `PopWaiter` and the increment of `wakeups_`, the
worker is still blocked when `Stop` has woken it and these increments have been made. -/
theorem stop_not_woken :
    ∃ c, (system 7 1 Nat).Reachable c ∧ c.mem.stopped = true ∧ (c.pc .stopper).LoopOver ∧ Blocked c 0 0 :=
  ⟨_, (woken_reachable 7 (2 ^ 32 - 1)).of_restrict, rfl, trivial, rfl, Nat.mod_self (2 ^ 32)⟩

end Reachable

end CppConcur.WorkStealing.Pool
