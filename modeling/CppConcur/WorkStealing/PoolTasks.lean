import CppConcur.Logic.Count
import CppConcur.WorkStealing.PoolRuns

/-!
# Where the tasks of the pool are

Every task that was ever submitted is in exactly one place. The proof is a conservation law: for
each task the occurrences in the global queue, the local queues, the LIFO slots, the hands of the
threads and the history of started tasks sum up to one, and every step moves a task from one place
to another. A second law relates the started tasks to those that are running and those that have
finished.
-/

namespace CppConcur.WorkStealing

/-- The task a call of `TryPush` has not put into the queue yet, and keeps if it returns false. -/
def Pc.pending {α : Type*} (task : α) : Pc α → List α
  | .pushRet true => []
  | _ => [task]

section Operations

variable {α : Type*} {cap : Nat} {q : Queue α} {pc : Pc α}

theorem Pc.taken_of_not_outside (h : ¬ pc.Outside) : pc.taken = [] := by
  cases pc <;> first | rfl | exact absurd trivial h

theorem Pc.Sizing.taken (h : pc.Sizing) : pc.taken = [] := by
  cases pc <;> first | rfl | exact h.elim

theorem Pc.Pushing.taken {task : α} (h : pc.Pushing task) : pc.taken = [] := by
  cases pc <;> first | rfl | exact h.elim

/-- Before its last step a call of `TryPush` still has its task. -/
theorem Pc.Pushing.pending_step {task : α} (cap : Nat) (q : Queue α) (h : pc.Pushing task) (hout : ¬ pc.Outside)
    (hpush : pc ≠ .pushBump task) : (WorkStealing.step cap q pc).2.pending task = [task] ∧ ∀ t, pc ≠ .pushBump t := by
  cases pc with
  | pushLoadTail t => exact ⟨rfl, nofun⟩
  | pushStore t currentTail => exact ⟨rfl, nofun⟩
  | pushLoadHead t currentTail =>
    refine ⟨?_, nofun⟩
    simp only [WorkStealing.step]
    split <;> rfl
  | pushBump t =>
    have heq : t = task := h
    exact absurd (heq ▸ rfl) hpush
  | pushRet ok => exact absurd trivial hout
  | _ => exact h.elim

theorem Pc.pending_of_not_outside {task : α} (h : ¬ pc.Outside) : pc.pending task = [task] := by
  cases pc <;> first | rfl | exact absurd trivial h

end Operations

namespace Pool

variable {n : Nat}

/-! ### The private hands of a thread -/

/-- The tasks in the variables and the buffer of a thread that operates on a local queue. -/
def Use.hands : Use n → WorkStealing.Pc Task → List Task
  | .pick _, pc => pc.taken
  | .push _ task, pc => pc.pending task
  | .offload _ task, pc => task :: pc.taken
  | .size _ _, _ => []
  | .grab _ _, pc => pc.taken
  | .keep _ stolen task rest, pc => stolen :: (rest ++ pc.pending task)

/-- The tasks a thread is moving. -/
def Pc.hands : Pc n → List Task
  | .queue _ qpc use => use.hands qpc
  | .take task => [task]
  | .push _ task _ => [task]
  | .offloadMany _ tasks => tasks
  | .submitGlobal _ task => [task]
  | .spinFound task => [task]
  | .wakePop _ task => [task]
  | .wakeOne _ task _ => [task]
  | .aborted _ tasks => tasks
  | _ => []

/-- The task a thread is running. -/
def Pc.runs : Pc n → List Task
  | .running current => [current]
  | .push current _ _ => [current]
  | .queue _ _ (.push current _) => [current]
  | .queue _ _ (.offload current _) => [current]
  | .offloadMany current _ => [current]
  | .submitGlobal current _ => current.toList
  | .submitCheck current => current.toList
  | .submitPop current => current.toList
  | .submitWake current _ => current.toList
  | _ => []

section Hands

variable (i : Fin n) (attempt : Attempt)

@[simp] theorem hands_pickFirst (parked : Bool) (iter : Nat) : (pickFirst parked iter : Pc n).hands = [] := by
  unfold pickFirst
  split <;> rfl

@[simp] theorem hands_stealNext (rest : List (Fin n)) : (stealNext attempt rest).hands = [] := by
  cases rest with
  | nil => cases attempt <;> rfl
  | cons v rest => rfl

@[simp] theorem hands_stealFound (task : Task) : (stealFound attempt task : Pc n).hands = [task] := by
  cases attempt <;> rfl

@[simp] theorem hands_keepRest (stolen : Task) (rest : List Task) (task : Task) :
    (keepRest i attempt stolen rest).hands.count task = (stolen :: rest).count task := by
  cases rest with
  | nil => rw [keepRest, hands_stealFound]
  | cons first rest =>
    change (stolen :: (rest ++ [first])).count task = (stolen :: first :: rest).count task
    simp only [List.count_cons, List.count_append, List.count_nil]
    omega

@[simp] theorem hands_stolenTasks (rest : List (Fin n)) (tasks : List Task) (task : Task) :
    (stolenTasks i attempt rest tasks).hands.count task = tasks.count task := by
  unfold stolenTasks
  split
  · rename_i hlast
    rw [List.getLast?_eq_none_iff.mp hlast, hands_stealNext]
  · rename_i stolen hlast
    rw [hands_keepRest]
    conv_rhs => rw [← List.dropLast_append_getLast? stolen hlast]
    simp only [List.count_cons, List.count_append, List.count_nil]
    omega

@[simp] theorem hands_wakeNext (left : Nat) (task : Task) : (wakeNext left task : Pc n).hands = [task] := by
  cases left <;> rfl

@[simp] theorem hands_submitDone (current : Option Task) : (submitDone current : Pc n).hands = [] := by
  cases current <;> rfl

@[simp] theorem hands_stopNext (fromStop : Bool) (j : Nat) : (stopNext fromStop j : Pc n).hands = [] := by
  unfold stopNext joinNext
  split
  · rfl
  · split
    · split <;> rfl
    · rfl

/-- A worker keeps what it has in its hands when an operation on a local queue returns. -/
theorem Resumed.hands {cap : Nat} {i v : Fin n} {use : Use n} {qpc : WorkStealing.Pc Task} {pc : Pc n}
    (h : Resumed cap i v use qpc pc) (task : Task) : pc.hands.count task = (use.hands qpc).count task := by
  cases h with
  | offload current overflowed out grabbed =>
    simp only [Pc.hands, Use.hands, WorkStealing.Pc.taken, grabbedTasks, List.count_append, List.count_cons,
      List.count_nil]
    omega
  | sizeZero attempt rest size => rw [hands_stealNext]; rfl
  | grab attempt rest out grabbed => exact hands_stolenTasks ..
  | kept attempt stolen pushed rest => rw [hands_keepRest, Use.hands, WorkStealing.Pc.pending, List.append_nil]
  | aborted attempt stolen pushed rest =>
    simp only [Pc.hands, Use.hands, WorkStealing.Pc.pending, List.count_append, List.count_cons, List.count_nil]
    omega
  | _ => rfl

end Hands

/-! ### Every step moves tasks -/

section QueueStep

variable {cap : Nat} {isProducer : Prop} {q : Queue Task} {qpc : WorkStealing.Pc Task}

theorem count_step_consumer (hgood : q.Good cap) (hbound : (WorkStealing.step cap q qpc).1.pushed.length < word)
    (hassertion : Assertion cap isProducer q qpc) (hout : ¬ qpc.Outside) (hpush : ∀ t, qpc ≠ .pushBump t) (task : Task) :
    ((WorkStealing.step cap q qpc).1.contents cap).count (some task) + (WorkStealing.step cap q qpc).2.taken.count task =
      (q.contents cap).count (some task) := by
  rw [hgood.contents_step hbound hassertion hout hpush, List.count_append,
    List.count_map_of_injective _ some (Option.some_injective _), Nat.add_comm]

theorem count_step_producer (hgood : q.Good cap) (hbound : (WorkStealing.step cap q qpc).1.pushed.length < word)
    (hassertion : Assertion cap isProducer q qpc) (hout : ¬ qpc.Outside) {pushed : Task} (hpushing : qpc.Pushing pushed)
    (task : Task) :
    ((WorkStealing.step cap q qpc).1.contents cap).count (some task) +
        ((WorkStealing.step cap q qpc).2.pending pushed).count task =
      (q.contents cap).count (some task) + (qpc.pending pushed).count task := by
  by_cases hbump : qpc = .pushBump pushed
  · subst hbump
    rw [hgood.contents_pushBump hbound hassertion, List.count_append]
    simp only [WorkStealing.step, WorkStealing.Pc.pending, List.count_cons, List.count_nil, beq_iff_eq,
      Option.some.injEq]
    omega
  · obtain ⟨hpending, hpush⟩ := hpushing.pending_step cap q hout hbump
    have hcount := count_step_consumer hgood hbound hassertion hout hpush task
    rw [hpushing.step.taken, List.count_nil] at hcount
    rw [hpending, WorkStealing.Pc.pending_of_not_outside hout]
    omega

/-- Inside an operation tasks only move between the queue and the hands of the thread. -/
theorem Use.hands_step {i v : Fin n} {use : Use n} (hgood : q.Good cap)
    (hbound : (WorkStealing.step cap q qpc).1.pushed.length < word) (hassertion : Assertion cap isProducer q qpc)
    (hfits : use.Fits i v qpc) (task : Task) :
    ((WorkStealing.step cap q qpc).1.contents cap).count (some task) +
        (use.hands (WorkStealing.step cap q qpc).2).count task =
      (q.contents cap).count (some task) + (use.hands qpc).count task := by
  by_cases hout : qpc.Outside
  · rw [step_of_outside hout]
  have htaken : qpc.taken = [] := WorkStealing.Pc.taken_of_not_outside hout
  have hconsumer := count_step_consumer hgood hbound hassertion hout
  cases use with
  | pick parked =>
    have hcount := hconsumer (by rintro t rfl; exact hfits.2) task
    simp only [Use.hands, htaken, List.count_nil]
    omega
  | offload current overflowed =>
    have hcount := hconsumer (by rintro t rfl; exact hfits.2) task
    simp only [Use.hands, htaken, List.count_cons, List.count_nil]
    omega
  | grab attempt rest =>
    have hcount := hconsumer (by rintro t rfl; exact hfits) task
    simp only [Use.hands, htaken, List.count_nil]
    omega
  | size attempt rest =>
    have hcount := hconsumer (by rintro t rfl; exact hfits) task
    rw [(WorkStealing.Pc.Sizing.step hfits).taken] at hcount
    simpa only [Use.hands, List.count_nil, Nat.add_zero] using hcount
  | push current pushed => exact count_step_producer hgood hbound hassertion hout hfits.2 task
  | keep attempt stolen pushed rest =>
    have hcount := count_step_producer hgood hbound hassertion hout hfits.2 task
    simp only [Use.hands, List.count_cons, List.count_append]
    omega

end QueueStep

/-- How often a task is in the local queue and the LIFO slot of a worker. -/
def WorkerState.held (cap : Nat) (task : Task) (w : WorkerState) : Nat :=
  (w.queue.contents cap).count (some task) + w.lifo.toList.count task

/-- How often a task is in the shared memory or has been started. -/
def Mem.stored (cap : Nat) (task : Task) (m : Mem n) : Nat :=
  m.global.count task + ∑ i, (m.worker i).held cap task + m.started.count task

section Stored

variable (cap : Nat) (task : Task) (m : Mem n) (i : Fin n) 

theorem stored_setWorker (w : WorkerState) :
    (m.setWorker i w).stored cap task + (m.worker i).held cap task = m.stored cap task + w.held cap task := by
  have hsum := Logic.sum_update_add (WorkerState.held cap task) m.worker i w
  simp only [Mem.stored, Mem.setWorker]
  omega

theorem stored_setWorker_of_same {w : WorkerState} (hqueue : w.queue = (m.worker i).queue)
    (hlifo : w.lifo = (m.worker i).lifo) : (m.setWorker i w).stored cap task = m.stored cap task := by
  have hheld : w.held cap task = (m.worker i).held cap task := by
    rw [WorkerState.held, hqueue, hlifo, WorkerState.held]
  have hsum := stored_setWorker cap task m i w
  omega

@[simp] theorem stored_wake : (m.wake i).stored cap task = m.stored cap task :=
  stored_setWorker_of_same cap task m i rfl rfl

@[simp] theorem stored_setStop : (m.setStop i).stored cap task = m.stored cap task :=
  stored_setWorker_of_same cap task m i rfl rfl

theorem submitStep_stored (pc : Pc n) :
    (submitStep m pc).1.stored cap task + (submitStep m pc).2.hands.count task = m.stored cap task + pc.hands.count task := by
  cases pc with
  | submitGlobal current submitted =>
    simp only [submitStep, Mem.stored, Pc.hands, List.count_append, List.count_nil]
    omega
  | submitCheck current =>
    simp only [submitStep]
    split
    · rfl
    · rw [hands_submitDone]; rfl
  | submitPop current =>
    simp only [submitStep]
    split
    · rw [hands_submitDone]; rfl
    · rfl
  | submitWake current v => 
    simp only [submitStep, stored_wake, hands_submitDone]
    rfl
  | _ => rfl

theorem stopStep_stored (pc : Pc n) :
    (stopStep m pc).1.stored cap task + (stopStep m pc).2.hands.count task = m.stored cap task + pc.hands.count task := by
  cases pc with
  | stopLoad =>
    simp only [stopStep]
    split <;> rfl
  | stopWait =>
    simp only [stopStep]
    split
    · rw [hands_stopNext]; rfl
    · rfl
  | stopStore =>
    simp only [stopStep, hands_stopNext]
    rfl
  | stopSet fromStop j =>
    simp only [stopStep, stored_setStop]
    rfl
  | stopWake fromStop j =>
    simp only [stopStep, stored_wake, hands_stopNext]
    rfl
  | join j =>
    simp only [stopStep, joinNext]
    repeat' split
    all_goals rfl
  | _ => rfl

/-- A step of a worker moves tasks between the memory and its hands. -/
theorem workerStep_stored {i : Fin n} {pc : Pc n} (order : List (Fin n)) (hgood : ∀ j, (m.worker j).queue.Good cap)
    (hfits : pc.Fits i)
    (hassertion : ∀ j, Assertion cap (i = j) (m.worker j).queue (pc.onQueue j))
    (hbound : ∀ j, ((workerStep cap i order m pc).1.worker j).queue.pushed.length < word) :
    (workerStep cap i order m pc).1.stored cap task + (workerStep cap i order m pc).2.hands.count task =
      m.stored cap task + pc.hands.count task := by
  cases pc with
  | queue v qpc use =>
    cases hresume : resume cap i v use qpc with
    | some pc' => 
      simp only [workerStep, hresume, (resumed_of_resume hresume).hands task]
      rfl
    | none =>
      have hown := hassertion v
      have hboundv := hbound v
      simp only [Pc.onQueue, if_pos] at hown
      simp only [workerStep, hresume, Mem.setWorker, Function.update_self] at hboundv
      have hmove := Use.hands_step (hgood v) hboundv hown hfits task
      have hstored := stored_setWorker cap task m v
        { m.worker v with queue := (WorkStealing.step cap (m.worker v).queue qpc).1 }
      simp only [WorkerState.held] at hstored
      simp only [workerStep, hresume, Pc.hands]
      omega
  | pickLifo parked =>
    simp only [workerStep]
    cases hlifo : (m.worker i).lifo with
    | none => rfl
    | some picked =>
      have hstored := stored_setWorker cap task m i { m.worker i with lifo := none }
      simp only [WorkerState.held, hlifo, Option.toList_some, Option.toList_none, List.count_nil] at hstored
      simp only [Pc.hands, List.count_nil]
      omega
  | push current pushed hint =>
    cases hint with
    | next =>
      have hstored := stored_setWorker cap task m i { m.worker i with lifo := some pushed }
      simp only [workerStep]
      cases hlifo : (m.worker i).lifo with
      | none =>
        simp only [WorkerState.held, hlifo, Option.toList_some, Option.toList_none, List.count_nil] at hstored
        simp only [Pc.hands, List.count_nil]
        omega
      | some old =>
        simp only [WorkerState.held, hlifo, Option.toList_some] at hstored
        simp only [Pc.hands, Use.hands, WorkStealing.Pc.pending]
        omega
    | _ => rfl
  | loop =>
    simp only [workerStep]
    split
    · exact congrArg (· + 0) (stored_setWorker_of_same cap task m i rfl rfl)
    · rw [hands_pickFirst]
      exact congrArg (· + 0) (stored_setWorker_of_same cap task m i rfl rfl)
  | take started =>
    simp only [workerStep, Mem.stored, Pc.hands, List.count_append, List.count_nil]
    omega
  | offloadMany current tasks =>
    simp only [workerStep, Mem.stored, Pc.hands, List.count_append, List.count_nil]
    omega
  | submitGlobal current submitted => exact submitStep_stored cap task m _
  | submitCheck current => exact submitStep_stored cap task m _
  | submitPop current => exact submitStep_stored cap task m _
  | submitWake current v => exact submitStep_stored cap task m _
  | stopSet fromStop j => exact stopStep_stored cap task m _
  | stopWake fromStop j => exact stopStep_stored cap task m _
  | _ =>
    simp only [workerStep, submitStep]
    repeat' split
    all_goals try simp only [stored_wake, stored_setStop, hands_pickFirst, hands_stealNext, hands_wakeNext, hands_stopNext]
    all_goals simp only [Mem.stored, Pc.hands, List.count_nil, List.count_cons, *]
    all_goals omega

theorem submitStep_submitted (pc : Pc n) : (submitStep m pc).1.submitted = m.submitted := by
  cases pc <;> simp only [submitStep] <;> first | rfl | (split <;> rfl)

theorem stopStep_submitted (pc : Pc n) : (stopStep m pc).1.submitted = m.submitted := by
  cases pc <;> rfl

theorem workerStep_submitted (order : List (Fin n)) (pc : Pc n) :
    (workerStep cap i order m pc).1.submitted = m.submitted := by
  cases pc with
  | push current pushed hint => cases hint <;> rfl
  | _ =>
    simp only [workerStep, stopStep, submitStep]
    repeat' split
    all_goals rfl

end Stored

section Reachable

variable {Client : Type*} {cap : Nat} {c : Logic.Conf (Thread n Client) (Mem n) (Pc n)}

/-- One if the task has been submitted. -/
def Mem.ever (m : Mem n) (task : Nat) : Nat := if task < m.submitted then 1 else 0

theorem ever_submit (m : Mem n) (task : Nat) :
    { m with submitted := m.submitted + 1 }.ever task = m.ever task + [m.submitted].count task := by
  simp only [Mem.ever, List.count_cons, List.count_nil, beq_iff_eq, Nat.zero_add]
  repeat' split
  all_goals omega

/-- Every action moves tasks between the memory and the hands of its thread, or submits one. -/
theorem QueuesGood.stored_act {t : Thread n Client} {m : Mem n} {pc : Pc n} (h : QueuesGood cap c)
    (hact : Act cap t c.mem (c.pc t) m pc) (hbound : ∀ j, (m.worker j).queue.pushed.length < word) (task : Task) :
    m.stored cap task + pc.hands.count task + c.mem.ever task =
      c.mem.stored cap task + (c.pc t).hands.count task + m.ever task := by
  generalize hpc : c.pc t = pc₀ at hact
  cases hact with
  | submit =>
    have hever := ever_submit c.mem task
    simp only [Pc.hands, List.count_nil] at hever ⊢
    simp only [Mem.stored]
    omega
  | submitInside hint =>
    have hever := ever_submit c.mem task
    simp only [Pc.hands, List.count_nil] at hever ⊢
    simp only [Mem.stored]
    omega
  | stop => rfl
  | step order horder =>
    cases t with
    | client e =>
      have hstored := submitStep_stored cap task c.mem pc₀
      simp only [step, Mem.ever, submitStep_submitted]
      omega
    | stopper =>
      have hstored := stopStep_stored cap task c.mem pc₀
      simp only [step, Mem.ever, stopStep_submitted]
      omega
    | worker i =>
      have hstored := workerStep_stored cap task c.mem order h.good (hpc ▸ h.fits i) (hpc ▸ h.assertion i) hbound
      simp only [step, Mem.ever, workerStep_submitted]
      omega

variable [DecidableEq Client] [Fintype Client]

/-- The conservation law of the tasks. -/
def Conserved (cap : Nat) (c : Logic.Conf (Thread n Client) (Mem n) (Pc n)) : Prop :=
  ∀ task, c.mem.stored cap task + ∑ t, (c.pc t).hands.count task = c.mem.ever task

theorem conserved_of_reachable (h : (boundedSystem cap n Client).Reachable c) : Conserved cap c := by
  refine h.invariant ?_ ?_
  · intro c hinit task
    obtain ⟨hmem, hpcs⟩ := hinit
    have hhands : ∀ t, (c.pc t).hands.count task = 0 := by
      intro t
      rw [hpcs]
      cases t <;> rfl
    have hempty : ((Queue.empty : Queue Task).contents cap).count (some task) = 0 := rfl
    simp only [hmem, hhands, Mem.stored, Mem.start, WorkerState.held, WorkerState.start, hempty, Mem.ever]
    simp
  · rintro c c' hreach hconserved ⟨⟨t, m, pc, hact, rfl⟩, hbound⟩ task
    have hmove := (queuesGood_of_reachable hreach).stored_act hact hbound task
    have hsum := Logic.sum_update_add (fun pc : Pc n => pc.hands.count task) c.pc t pc
    have hold := hconserved task
    simp only
    omega

/-! ### The places of a task -/

/-- Where a task can be. -/
inductive Place (n : Nat) (Client : Type*) where
  | global
  | localQueue (i : Fin n)
  | lifoSlot (i : Fin n)
  | hands (t : Thread n Client)
  | started
  deriving DecidableEq

/-- The places as a finite type. -/
def placeEquiv : Place n Client ≃ Unit ⊕ Unit ⊕ Fin n ⊕ Fin n ⊕ Thread n Client where
  toFun
    | .global => .inl ()
    | .started => .inr (.inl ())
    | .localQueue i => .inr (.inr (.inl i))
    | .lifoSlot i => .inr (.inr (.inr (.inl i)))
    | .hands t => .inr (.inr (.inr (.inr t)))
  invFun
    | .inl () => .global
    | .inr (.inl ()) => .started
    | .inr (.inr (.inl i)) => .localQueue i
    | .inr (.inr (.inr (.inl i))) => .lifoSlot i
    | .inr (.inr (.inr (.inr t))) => .hands t
  left_inv p := by cases p <;> rfl
  right_inv p := by rcases p with _ | _ | _ | _ | _ <;> rfl

instance : Fintype (Place n Client) := .ofEquiv _ placeEquiv.symm

/-- How often a task is in a place. -/
def occurrences (cap : Nat) (c : Logic.Conf (Thread n Client) (Mem n) (Pc n)) (task : Task) : Place n Client → Nat
  | .global => c.mem.global.count task
  | .localQueue i => ((c.mem.worker i).queue.contents cap).count (some task)
  | .lifoSlot i => (c.mem.worker i).lifo.toList.count task
  | .hands t => (c.pc t).hands.count task
  | .started => c.mem.started.count task

omit [DecidableEq Client] in
theorem sum_occurrences (task : Task) :
    ∑ p, occurrences cap c task p = c.mem.stored cap task + ∑ t, (c.pc t).hands.count task := by
  rw [← placeEquiv.symm.sum_comp (occurrences cap c task)]
  simp only [Fintype.sum_sum_type, Finset.univ_unique, Finset.sum_singleton, Mem.stored, WorkerState.held,
    Finset.sum_add_distrib]
  simp only [placeEquiv, Equiv.coe_fn_symm_mk, occurrences]
  omega

/-- In every reachable state every task ever submitted is in exactly one place, and there once. -/
theorem task_in_one_place (h : (boundedSystem cap n Client).Reachable c) (task : Task)
    (hsubmitted : task < c.mem.submitted) :
    ∃ p, occurrences cap c task p = 1 ∧ ∀ p', p' ≠ p → occurrences cap c task p' = 0 := by
  apply Logic.exists_of_sum_eq_one
  rw [sum_occurrences, conserved_of_reachable h task, Mem.ever, if_pos hsubmitted]

/-- A client has pushed its task to the global queue. -/
theorem task_in_one_place_global :
    ∃ c, (boundedSystem 7 1 Unit).Reachable c ∧ 0 < c.mem.submitted ∧ occurrences 7 c 0 .global = 1 ∧
      ∃ p, occurrences 7 c 0 p = 1 ∧ ∀ p', p' ≠ p → occurrences 7 c 0 p' = 0 := by
  have hadmits : Admits 7 (boundedSystem 7 1 Unit) FewPushed := admits_boundedSystem 7
  have h0 : (boundedSystem 7 1 Unit).Reachable ⟨.start 1, solo .loop (fun _ => .idle) .idle⟩ :=
    .init ⟨rfl, fun t => by cases t <;> rfl⟩
  have h1 := h0.step (hadmits.submit _ _ () rfl (few_of_empty rfl _) (few_of_empty rfl _))
  have h2 := h1.steps (hadmits.steps_client (k := 3) _ _ () rfl rfl fun _ hj => pushed_run_lt 7 _ rfl (by decide) hj)
  exact ⟨_, h2, Nat.one_pos, rfl, task_in_one_place h2 0 Nat.one_pos⟩

/-- After `2^64 - 1` pushes and pops of a local queue of capacity 7, `tail_` wraps in the middle of three
more pushes, and the third one overwrites the slot of the first. -/
theorem task_in_no_place :
    ∃ c, (system 7 1 Unit).Reachable c ∧ word < c.mem.submitted ∧ ∀ p, occurrences 7 c word p = 0 := by
  obtain ⟨m, hcycling, hreach⟩ := cycling_reachable 7 (word - 1) (by decide) (by decide)
  have hhead := hcycling.head
  have htail := hcycling.tail
  have hsubmitted : m.submitted = word := hcycling.submitted
  have hpush : ∀ m' : Mem 1, sub64 (m'.worker 0).queue.tail (m'.worker 0).queue.head ≠ 7 → m'.nSpinning = 0 → m'.waiters = [] →
      (system 7 1 Unit).Steps ⟨m', solo (.running (word - 1)) (fun _ => .idle) .idle⟩
        ⟨pushMem 7 m', solo (.running (word - 1)) (fun _ => .idle) .idle⟩ :=
    fun m' hroom => push_steps (word - 1) (fun _ => .idle) .idle hroom
  have hone := hpush m (by rw [hhead, htail]; decide) hcycling.spinning hcycling.waiters
  have htwo := hpush (pushMem 7 m) (by simp only [pushMem, afterPush, hhead, htail]; decide) hcycling.spinning hcycling.waiters
  have hthree := hpush (pushMem 7 (pushMem 7 m)) (by simp only [pushMem, afterPush, hhead, htail]; decide)
    hcycling.spinning hcycling.waiters
  refine ⟨_, hreach.steps (hone.trans (htwo.trans hthree)), ?_, ?_⟩
  · simp only [pushMem, hsubmitted]
    omega
  intro p
  cases p with
  | global => simp only [occurrences, pushMem, hcycling.global, List.count_nil]
  | localQueue i =>
    have hwrap : add64 (word - 1) 1 = 0 := by decide
    have hnext : add64 0 1 = 1 := by decide
    have hlast : add64 1 1 = 2 := by decide
    have hsize : sub64 2 (word - 1) = 3 := by decide
    have hfirst : (word - 1) % 7 = 1 := by decide
    have hslots : add64 (word - 1) 0 % 7 = 1 ∧ add64 (word - 1) 2 % 7 = 1 := by decide
    simp [occurrences, pushMem, afterPush, Queue.contents, hhead, htail, hwrap, hnext, hlast, hsize, hsubmitted, hfirst,
      List.range_succ, hslots.1, hslots.2, Nat.add_assoc]
  | lifoSlot i => simp only [occurrences, pushMem, hcycling.lifo, Option.toList_none, List.count_nil]
  | hands t => cases t <;> rfl
  | started =>
    simp only [occurrences, pushMem]
    refine List.count_eq_zero_of_not_mem fun hmem => ?_
    have hle := hcycling.started word hmem
    exact absurd hle (by decide)

end Reachable

end Pool

end CppConcur.WorkStealing
