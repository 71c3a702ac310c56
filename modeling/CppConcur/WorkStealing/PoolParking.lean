import CppConcur.Logic.Count
import CppConcur.Logic.Parking
import CppConcur.WorkStealing.PoolQueues

/-!
# Parking and waking

A worker parks in several steps: it loads its `wakeups_`, registers in `waiters_`, looks at the
global queue once more, and waits. A thread that submits a task afterwards looks at `n_spinning_` and
wakes one registered worker. This is the protocol of `Logic.Parking`: `Pc.phase` is the phase of a
thread, and `Act.shift` says that every action of the pool is a step of the protocol. What is left
of the pool itself is that `n_spinning_` counts workers that are not at rest.
-/

namespace CppConcur.WorkStealing.Pool

open Logic.Parking

variable {n : Nat}

/-! ### The pool as an instance of the protocol -/

/-- What the protocol sees of the memory. -/
def Mem.lot (m : Mem n) : Lot (Fin n) where
  wakes := fun i => (m.worker i).wakes
  waiters := m.waiters
  work := m.global ≠ []
  spinning := m.nSpinning ≠ 0

/-- The phase while a worker operates on a local queue. -/
def Use.phase : Use n → Phase (Fin n)
  | .size (.final old) _ => .passive old
  | .grab (.final old) _ => .passive old
  | _ => .active

/-- The phase of a thread. -/
def Pc.phase : Pc n → Phase (Fin n)
  | .queue _ _ use => use.phase
  | .submitCheck _ => .obligated
  | .submitPop _ => .obligated
  | .submitWake _ v => .waking v
  | .wakeOne _ _ v => .waking v
  | .pushWaiter old => .loaded old
  | .unspin old => .registered old
  | .recheck old => .registered old
  | .park old => .passive old
  | .checkReady old => .passive old
  | .checkStopped old => .passive old
  | .wait old => .passive old
  | _ => .active

/-! ### Every action is a step of the protocol -/

section Memory

variable (m : Mem n) (i j : Fin n)

theorem wakes_wake : ((m.wake i).worker j).wakes = (m.worker j).wakes + if j = i then 1 else 0 := by
  unfold Mem.wake Mem.setWorker
  by_cases hj : j = i
  · subst hj
    simp only [Function.update_self, if_pos]
  · simp only [ne_eq, hj, not_false_eq_true, Function.update_of_ne, if_false, Nat.add_zero]

theorem frame_setWorker {w : WorkerState} (h : w.wakes = (m.worker i).wakes) : Frame m.lot (m.setWorker i w).lot :=
  ⟨fun j => (m.part_setWorker WorkerState.wakes i j h).ge, rfl, id⟩

theorem frame_wake : Frame m.lot (m.wake i).lot := by
  refine ⟨fun j => ?_, rfl, id⟩
  change (m.worker j).wakes ≤ ((m.wake i).worker j).wakes
  rw [wakes_wake]
  exact Nat.le_add_right ..

theorem frame_popGlobal {task : Task} {rest : List Task} (h : m.global = task :: rest) :
    Frame m.lot { m with global := rest }.lot :=
  ⟨fun _ => le_rfl, rfl, fun _ hnil => by rw [h] at hnil; cases hnil⟩

end Memory

section Phases

@[simp] theorem phase_pickFirst (parked : Bool) (iter : Nat) : (pickFirst parked iter : Pc n).phase = .active := by
  unfold pickFirst
  split <;> rfl

@[simp] theorem phase_stealNext (attempt : Attempt) (rest rest' : List (Fin n)) :
    (stealNext attempt rest).phase = (Use.size attempt rest').phase := by
  cases rest <;> cases attempt <;> rfl

@[simp] theorem phase_keepRest (i : Fin n) (attempt : Attempt) (stolen : Task) (rest : List Task) :
    (keepRest i attempt stolen rest).phase = .active := by
  cases rest with
  | nil => cases attempt <;> rfl
  | cons task rest => cases attempt <;> rfl

@[simp] theorem phase_wakeNext (left : Nat) (task : Task) : (wakeNext left task : Pc n).phase = .active := by
  cases left <;> rfl

@[simp] theorem phase_submitDone (current : Option Task) : (submitDone current : Pc n).phase = .active := by
  cases current <;> rfl

@[simp] theorem phase_joinNext (j : Nat) : (joinNext j : Pc n).phase = .active := by
  unfold joinNext
  split <;> rfl

@[simp] theorem phase_stopNext (fromStop : Bool) (j : Nat) : (stopNext fromStop j : Pc n).phase = .active := by
  unfold stopNext
  split
  · rfl
  · split
    · exact phase_joinNext 0
    · rfl

end Phases

/-- When an operation on a local queue returns, the worker keeps its phase, stops being passive because it
has stolen a task, or has pushed the task it submits. -/
theorem Resumed.phase {cap : Nat} {i v : Fin n} {use : Use n} {qpc : WorkStealing.Pc Task} {pc : Pc n}
    (h : Resumed cap i v use qpc pc) :
    pc.phase = use.phase ∨ (pc.phase = .active ∧ ∃ old, use.phase = .passive old) ∨
      (use.phase = .active ∧ pc.phase = .obligated) := by
  cases h with
  | pushed current task => exact .inr (.inr ⟨rfl, rfl⟩)
  | sizeZero attempt rest size => exact .inl (phase_stealNext attempt rest rest)
  | sizePos attempt rest size => cases attempt <;> exact .inl rfl
  | grab attempt rest out grabbed =>
    unfold stolenTasks
    split
    · left
      rw [phase_stealNext attempt rest rest]
      cases attempt <;> rfl
    · cases attempt with
      | first => exact .inl (phase_keepRest ..)
      | final old => exact .inr (.inl ⟨phase_keepRest .., old, rfl⟩)
  | kept attempt stolen task rest => exact .inl (phase_keepRest ..)
  | _ => exact .inl rfl

theorem shift_wake {self : Option (Fin n)} (m : Mem n) (v : Fin n) :
    Shift self m.lot (m.wake v).lot (.waking v) .active := by
  refine .wake (frame_wake m v) ?_
  change (m.worker v).wakes < ((m.wake v).worker v).wakes
  rw [wakes_wake, if_pos rfl]
  exact Nat.lt_succ_self _

theorem submitStep_shift (self : Option (Fin n)) (m : Mem n) (pc : Pc n) :
    Shift self m.lot (submitStep m pc).1.lot pc.phase (submitStep m pc).2.phase := by
  cases pc with
  | submitGlobal current task => exact .publish (fun _ => le_rfl) rfl
  | submitCheck current =>
    simp only [submitStep]
    split
    · exact .stay (Frame.refl m.lot)
    · rename_i hspinning
      rw [phase_submitDone]
      exact .skip (Frame.refl m.lot) hspinning
  | submitPop current =>
    simp only [submitStep]
    split
    · rename_i hnone
      rw [phase_submitDone]
      exact .popNone (Frame.refl m.lot) hnone
    · rename_i v rest hwaiters
      exact .pop (.inr rfl) (fun _ => le_rfl) hwaiters id
  | submitWake current v =>
    simp only [submitStep, phase_submitDone]
    exact shift_wake m v
  | _ => exact .stay (Frame.refl m.lot)

theorem stopStep_shift (self : Option (Fin n)) (m : Mem n) (pc : Pc n) :
    Shift self m.lot (stopStep m pc).1.lot pc.phase (stopStep m pc).2.phase := by
  cases pc with
  | stopReady => exact .stay ⟨fun _ => le_rfl, rfl, id⟩
  | stopLoad =>
    simp only [stopStep]
    split <;> exact .stay (Frame.refl m.lot)
  | stopWait =>
    simp only [stopStep]
    split
    · rw [phase_stopNext]
      exact .stay (Frame.refl m.lot)
    · exact .stay (Frame.refl m.lot)
  | stopStore =>
    simp only [stopStep, phase_stopNext]
    exact .stay ⟨fun _ => le_rfl, rfl, id⟩
  | stopSet fromStop i => exact .stay (frame_setWorker m i rfl)
  | stopWake fromStop i =>
    simp only [stopStep, phase_stopNext]
    exact .stay (frame_wake m i)
  | join i =>
    simp only [stopStep]
    split
    · rw [phase_joinNext]
      exact .stay (Frame.refl m.lot)
    · exact .stay (Frame.refl m.lot)
  | _ => exact .stay (Frame.refl m.lot)

theorem workerStep_shift (cap : Nat) (i : Fin n) (order : List (Fin n)) (m : Mem n) (pc : Pc n) :
    Shift (some i) m.lot (workerStep cap i order m pc).1.lot pc.phase (workerStep cap i order m pc).2.phase := by
  have hpop : ∀ {task : Task} {rest : List Task}, m.global = task :: rest → Frame m.lot { m with global := rest }.lot :=
    frame_popGlobal m
  cases pc with
  | queue v qpc use =>
    cases hresume : resume cap i v use qpc with
    | none =>
      simp only [workerStep, hresume]
      exact .stay (frame_setWorker m v rfl)
    | some pc' =>
      simp only [workerStep, hresume]
      rcases (resumed_of_resume hresume).phase with heq | ⟨hactive, old, hpassive⟩ | ⟨hactive, hobligated⟩
      · rw [heq]
        exact .stay (Frame.refl m.lot)
      · rw [hactive, Pc.phase, hpassive]
        exact .leavePassive (Frame.refl m.lot)
      · rw [hobligated, Pc.phase, hactive]
        exact .publish (fun _ => le_rfl) rfl
  | loop =>
    simp only [workerStep]
    split
    · exact .stay (frame_setWorker m i rfl)
    · rw [phase_pickFirst]
      exact .stay (frame_setWorker m i rfl)
  | pickGlobalFirst parked =>
    simp only [workerStep]
    split
    · exact .stay (Frame.refl m.lot)
    · exact .stay (hpop ‹_›)
  | pickLifo parked =>
    simp only [workerStep]
    split
    · exact .stay (Frame.refl m.lot)
    · exact .stay (frame_setWorker m i rfl)
  | pickGlobal parked =>
    simp only [workerStep]
    split
    · cases parked <;> exact .stay (Frame.refl m.lot)
    · exact .stay (hpop ‹_›)
  | push current task hint =>
    cases hint with
    | upToYou => exact .stay (Frame.refl m.lot)
    | yield => exact .stay (Frame.refl m.lot)
    | next =>
      simp only [workerStep]
      split
      · have hframe : Frame m.lot (m.setWorker i { m.worker i with lifo := some task }).lot := frame_setWorker m i rfl
        exact .publish hframe.wakes_le rfl
      · exact .stay (frame_setWorker m i rfl)
  | offloadMany current tasks => exact .publish (fun _ => le_rfl) rfl
  | submitGlobal current task => exact submitStep_shift (some i) m _
  | submitCheck current => exact submitStep_shift (some i) m _
  | submitPop current => exact submitStep_shift (some i) m _
  | submitWake current v => exact submitStep_shift (some i) m _
  | stopSet fromStop j => exact stopStep_shift (some i) m _
  | stopWake fromStop j => exact stopStep_shift (some i) m _
  | spin =>
    simp only [workerStep, phase_stealNext .first (victims i order) []]
    exact .stay ⟨fun _ => le_rfl, rfl, id⟩
  | wakePop left task =>
    simp only [workerStep]
    split
    · rw [phase_wakeNext]
      exact .stay (Frame.refl m.lot)
    · rename_i v rest hwaiters
      exact .pop (.inl rfl) (fun _ => le_rfl) hwaiters id
  | wakeOne left task v =>
    simp only [workerStep, phase_wakeNext]
    exact shift_wake m v
  | loadWakeups => exact .load rfl (Frame.refl m.lot)
  | pushWaiter old => exact .register rfl (fun _ => le_rfl) rfl id
  | recheck old =>
    simp only [workerStep]
    split
    · rename_i hempty
      simp only [phase_stealNext (.final old) (victims i order) []]
      exact .settle (Frame.refl m.lot) (not_not_intro hempty)
    · exact .leaveRegistered (hpop ‹_›)
  | park old =>
    simp only [workerStep]
    split <;> exact .stay ⟨fun _ => le_rfl, rfl, id⟩
  | checkReady old =>
    simp only [workerStep]
    split
    · exact .leavePassive (Frame.refl m.lot)
    · exact .stay (Frame.refl m.lot)
  | checkStopped old =>
    simp only [workerStep]
    split
    · exact .leavePassive (Frame.refl m.lot)
    · exact .stay (Frame.refl m.lot)
  | wait old =>
    simp only [workerStep]
    split
    · exact .stay (Frame.refl m.lot)
    · exact .leavePassive (Frame.refl m.lot)
  | unpark =>
    simp only [workerStep, phase_pickFirst]
    exact .stay ⟨fun _ => le_rfl, rfl, id⟩
  | stopSelf => exact .stay (frame_setWorker m i rfl)
  | signalLoad =>
    simp only [workerStep]
    split
    · exact .stay (Frame.refl m.lot)
    · rw [phase_stopNext]
      exact .stay (Frame.refl m.lot)
  | signalStore =>
    simp only [workerStep, phase_stopNext]
    exact .stay ⟨fun _ => le_rfl, rfl, id⟩
  | quit => exact .stay (frame_setWorker m i rfl)
  | _ => exact .stay ⟨fun _ => le_rfl, rfl, id⟩

/-- The worker a thread is, if it is one. -/
def Thread.self {Client : Type*} : Thread n Client → Option (Fin n)
  | .worker i => some i
  | _ => none

/-- Every action of the pool is a step of the protocol. -/
theorem Act.shift {Client : Type*} {cap : Nat} {t : Thread n Client} {m m' : Mem n} {pc pc' : Pc n}
    (hact : Act cap t m pc m' pc') : Shift t.self m.lot m'.lot pc.phase pc'.phase := by
  cases hact with
  | step order horder =>
    cases t with
    | worker i => exact workerStep_shift cap i order m pc
    | client e => exact submitStep_shift none m pc
    | stopper => exact stopStep_shift none m pc
  | submit => exact .stay ⟨fun _ => le_rfl, rfl, id⟩
  | submitInside hint => exact .stay ⟨fun _ => le_rfl, rfl, id⟩
  | stop => exact .stay (Frame.refl m.lot)

/-! ### The spinning workers -/

/-- One in the attempt to steal that counts in `n_spinning_`. -/
def Attempt.spinning : Attempt → Int
  | .first => 1
  | .final _ => 0

/-- One while a worker that operates on a local queue counts in `n_spinning_`. -/
def Use.spinning : Use n → Int
  | .size attempt _ => attempt.spinning
  | .grab attempt _ => attempt.spinning
  | .keep attempt _ _ _ => attempt.spinning
  | _ => 0

/-- One while a worker counts in `n_spinning_`. -/
def Pc.spinning : Pc n → Int
  | .queue _ _ use => use.spinning
  | .spinFound _ => 1
  | .loadWakeups => 1
  | .pushWaiter _ => 1
  | .unspin _ => 1
  | .aborted attempt _ => attempt.spinning
  | _ => 0

section Spinning

@[simp] theorem spinning_pickFirst (parked : Bool) (iter : Nat) : (pickFirst parked iter : Pc n).spinning = 0 := by
  unfold pickFirst
  split <;> rfl

@[simp] theorem spinning_stealNext (attempt : Attempt) (rest : List (Fin n)) :
    (stealNext attempt rest).spinning = attempt.spinning := by
  cases rest <;> cases attempt <;> rfl

@[simp] theorem spinning_keepRest (i : Fin n) (attempt : Attempt) (stolen : Task) (rest : List Task) :
    (keepRest i attempt stolen rest).spinning = attempt.spinning := by
  cases rest <;> cases attempt <;> rfl

@[simp] theorem spinning_wakeNext (left : Nat) (task : Task) : (wakeNext left task : Pc n).spinning = 0 := by
  cases left <;> rfl

@[simp] theorem spinning_submitDone (current : Option Task) : (submitDone current : Pc n).spinning = 0 := by
  cases current <;> rfl

@[simp] theorem spinning_stopNext (fromStop : Bool) (j : Nat) : (stopNext fromStop j : Pc n).spinning = 0 := by
  unfold stopNext joinNext
  split
  · rfl
  · split
    · split <;> rfl
    · rfl

theorem Resumed.spinning {cap : Nat} {i v : Fin n} {use : Use n} {qpc : WorkStealing.Pc Task} {pc : Pc n}
    (h : Resumed cap i v use qpc pc) : pc.spinning = use.spinning := by
  cases h with
  | sizeZero attempt rest size => exact spinning_stealNext attempt rest
  | grab attempt rest out grabbed =>
    unfold stolenTasks
    split
    · exact spinning_stealNext attempt rest
    · exact spinning_keepRest ..
  | kept attempt stolen task rest => exact spinning_keepRest ..
  | _ => rfl

theorem submitStep_nSpinning (m : Mem n) (pc : Pc n) : (submitStep m pc).1.nSpinning = m.nSpinning := by
  cases pc <;> simp only [submitStep] <;> first | rfl | (split <;> rfl)

theorem stopStep_nSpinning (m : Mem n) (pc : Pc n) : (stopStep m pc).1.nSpinning = m.nSpinning := by
  cases pc <;> rfl

/-- A worker changes `n_spinning_` exactly when it starts or stops to count in it. -/
theorem workerStep_spinning (cap : Nat) (i : Fin n) (order : List (Fin n)) (m : Mem n) (pc : Pc n) :
    (workerStep cap i order m pc).1.nSpinning + pc.spinning =
      m.nSpinning + (workerStep cap i order m pc).2.spinning := by
  cases pc with
  | queue v qpc use =>
    cases hresume : resume cap i v use qpc with
    | none =>
      simp only [workerStep, hresume]
      rfl
    | some pc' =>
      simp only [workerStep, hresume, (resumed_of_resume hresume).spinning]
      rfl
  | push current task hint =>
    cases hint with
    | next =>
      simp only [workerStep]
      split <;> rfl
    | _ => rfl
  | _ => 
    simp only [workerStep, stopStep, submitStep]
    repeat' split
    all_goals try simp only [spinning_pickFirst, spinning_stealNext, spinning_wakeNext, spinning_submitDone, spinning_stopNext]
    all_goals simp [Pc.spinning, Use.spinning, Attempt.spinning, Mem.wake, Mem.setStop, Mem.setWorker]

theorem resting_of_spinning {pc : Pc n} (h : pc.spinning ≠ 0) : pc.phase.resting = none := by
  cases pc with
  | queue v qpc use =>
    cases use with
    | size attempt rest => cases attempt <;> first | rfl | exact absurd rfl h
    | grab attempt rest => cases attempt <;> first | rfl | exact absurd rfl h
    | _ => rfl
  | _ => first | rfl | exact absurd rfl h

end Spinning

section Reachable

variable {Client : Type*} [DecidableEq Client]

/-- What the workers contribute to a counter after one of them has moved. -/
theorem sum_worker_update (f : Pc n → Int) (pcs : Thread n Client → Pc n) (i : Fin n) (pc : Pc n) :
    ∑ j, f (Function.update pcs (.worker i) pc (.worker j)) = ∑ j, f (pcs (.worker j)) + (f pc - f (pcs (.worker i))) := by
  rw [← Logic.sum_update f (fun j => pcs (.worker j)) i pc]
  apply Finset.sum_congr rfl
  intro j _
  by_cases hj : j = i
  · subst hj
    simp only [Function.update_self]
  · simp only [ne_eq, Thread.worker.injEq, hj, not_false_eq_true, Function.update_of_ne]

/-- The other threads contribute nothing. -/
theorem sum_other_update (f : Pc n → Int) (pcs : Thread n Client → Pc n) {t : Thread n Client} (ht : ∀ i, t ≠ .worker i)
    (pc : Pc n) : ∑ j, f (Function.update pcs t pc (.worker j)) = ∑ j, f (pcs (.worker j)) := by
  apply Finset.sum_congr rfl
  intro j _
  rw [Function.update_of_ne (Ne.symm (ht j))]

variable {cap : Nat} {c : Logic.Conf (Thread n Client) (Mem n) (Pc n)}

/-- `n_spinning_` is the number of workers that count in it. -/
def SpinningCounted (c : Logic.Conf (Thread n Client) (Mem n) (Pc n)) : Prop :=
  c.mem.nSpinning = ∑ i, (c.pc (.worker i)).spinning

theorem SpinningCounted.act {t : Thread n Client} {m : Mem n} {pc : Pc n} (h : SpinningCounted c)
    (hact : Act cap t c.mem (c.pc t) m pc) : SpinningCounted ⟨m, Function.update c.pc t pc⟩ := by
  unfold SpinningCounted at h ⊢
  generalize hpc : c.pc t = pc₀ at hact
  cases t with
  | worker i =>
    rw [sum_worker_update Pc.spinning, hpc, ← h]
    cases hact with
    | submitInside hint => simp [Pc.spinning]
    | step order horder =>
      have hstep := workerStep_spinning cap i order c.mem pc₀
      simp only [step]
      omega
  | client e =>
    rw [sum_other_update Pc.spinning c.pc (t := .client e) (by simp), ← h]
    cases hact with
    | submit => rfl
    | step order horder => exact submitStep_nSpinning c.mem pc₀
  | stopper =>
    rw [sum_other_update Pc.spinning c.pc (t := .stopper) (by simp), ← h]
    cases hact with
    | stop => rfl
    | step order horder => exact stopStep_nSpinning c.mem pc₀

theorem spinningCounted_of_reachable (h : (system cap n Client).Reachable c) : SpinningCounted c := by
  refine h.invariant ?_ ?_
  · intro c hinit
    obtain ⟨hmem, hpcs⟩ := hinit
    have hzero : ∀ i, (c.pc (.worker i)).spinning = 0 := fun i => by rw [hpcs]; rfl
    simp only [SpinningCounted, hmem, hzero, Finset.sum_const_zero]
    rfl
  · rintro c c' - hcounted ⟨t, m, pc, hact, rfl⟩
    exact hcounted.act hact

/-- In every reachable state of a pool with a worker the protocol keeps its invariant. -/
theorem protocol_of_reachable (hn : 0 < n) (h : (system cap n Client).Reachable c) :
    Protocol Thread.worker c.mem.lot fun t => (c.pc t).phase := by
  have : Nonempty (Fin n) := ⟨⟨0, hn⟩⟩
  let Inv (c : Logic.Conf (Thread n Client) (Mem n) (Pc n)) : Prop :=
    Protocol Thread.worker c.mem.lot fun t => (c.pc t).phase
  change Inv c
  refine h.invariant ?_ ?_
  · intro c hinit
    obtain ⟨hmem, hpcs⟩ := hinit
    apply Protocol.of_active
    · intro t
      rw [hpcs]
      cases t <;> rfl
    · rw [hmem]
      exact not_not_intro rfl
  · rintro c c' hreach hinv ⟨t, m, pc, hact, rfl⟩
    have hspinning : c.mem.nSpinning ≠ 0 → ∃ i, (c.pc (.worker i)).phase.resting = none := by
      intro hne
      rw [spinningCounted_of_reachable hreach] at hne
      obtain ⟨i, _, hi⟩ := Finset.exists_ne_zero_of_sum_ne_zero hne
      exact ⟨i, resting_of_spinning hi⟩
    have hself : ∀ i, Thread.worker i = t → t.self = some i := by
      rintro i rfl
      rfl
    have hphase : (fun u => (Function.update c.pc t pc u).phase) = Function.update (fun u => (c.pc u).phase) t pc.phase := by
      funext u
      by_cases hu : u = t
      · subst hu
        simp only [Function.update_self]
      · simp only [ne_eq, hu, not_false_eq_true, Function.update_of_ne]
    change Protocol Thread.worker m.lot fun u => (Function.update c.pc t pc u).phase
    rw [hphase]
    exact hinv.step hself hact.shift hspinning

end Reachable

end CppConcur.WorkStealing.Pool
