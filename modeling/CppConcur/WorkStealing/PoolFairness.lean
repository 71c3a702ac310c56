import CppConcur.WorkStealing.GlobalQueue
import CppConcur.WorkStealing.PoolRuns

/-!
# How long a task can wait

The pool uses the global queue only through its methods: tasks enter at the back and leave at the front, and a task that
has left is in the hands of a worker, which starts it. Every 61st iteration of a worker polls the global queue before the
tasks of the worker itself, so the iterations of any one worker bound the time a task waits there.
-/

namespace CppConcur.WorkStealing.Pool

variable {n cap : Nat} {Client : Type*}

/-- The task that a worker has picked and has not started. -/
def Pc.picked : Pc n → Option Task
  | take task => some task
  | spinFound task => some task
  | wakePop _ task => some task
  | wakeOne _ task _ => some task
  | _ => none

/-- How often the worker has yet to poll the global queue in this iteration before its own tasks. -/
def Pc.due : Pc n → Nat
  | pickGlobalFirst false => 1
  | _ => 0

/-- The task has been started, or some thread is about to start it. -/
def Picked (c : Logic.Conf (Thread n Client) (Mem n) (Pc n)) (task : Task) : Prop :=
  task ∈ c.mem.started ∨ ∃ t, (c.pc t).picked = some task

/-! ### The steps -/

/-- The methods of the global queue that a step of the pool can call. -/
inductive Uses (m m' : Mem n) (pc' : Pc n) : Prop
  | none (h : m'.global = m.global)
  | pushOne (task : Task) (h : GlobalQueue.queueSpec.next m.global (.pushOne task) .done m'.global)
  | pushMany (tasks : List Task) (h : GlobalQueue.queueSpec.next m.global (.pushMany tasks) .done m'.global)
  | tryPopOne (task : Task) (h : GlobalQueue.queueSpec.next m.global .tryPopOne (.task (some task)) m'.global)
      (hpicked : pc'.picked = some task)

section Steps

variable {t : Thread n Client} {m m' : Mem n} {pc pc' : Pc n} {i : Fin n}

/-- What a step does to the global queue and to the started tasks, and whose iterations it does not count. -/
structure Effect (m m' : Mem n) (pc' : Pc n) (same : Fin n → Prop) : Prop where
  uses : Uses m m' pc'
  started : m.started <+: m'.started
  iter : ∀ i, same i → (m'.worker i).iter = (m.worker i).iter

theorem submitStep_effect (m : Mem n) (pc : Pc n) (same : Fin n → Prop) :
    Effect m (submitStep m pc).1 (submitStep m pc).2 same := by
  fun_cases submitStep m pc with
  | case1 current task => exact ⟨.pushOne task rfl, List.prefix_rfl, fun _ _ => rfl⟩
  | case5 current v => exact ⟨.none rfl, List.prefix_rfl, fun i _ => Mem.part_setWorker WorkerState.iter m v i rfl⟩
  | _ => exact ⟨.none rfl, List.prefix_rfl, fun _ _ => rfl⟩

theorem stopStep_effect (m : Mem n) (pc : Pc n) (same : Fin n → Prop) : Effect m (stopStep m pc).1 (stopStep m pc).2 same := by
  fun_cases stopStep m pc
  all_goals refine ⟨.none rfl, List.prefix_rfl, fun i _ => ?_⟩
  all_goals first
    | rfl
    | exact Mem.part_setWorker WorkerState.iter m _ i rfl

theorem workerStep_effect (cap : Nat) (j : Fin n) (order : List (Fin n)) (m : Mem n) (pc : Pc n) :
    Effect m (workerStep cap j order m pc).1 (workerStep cap j order m pc).2 fun i => pc = .loop → i ≠ j := by
  fun_cases workerStep cap j order m pc
  case case2 => exact ⟨.none rfl, List.prefix_rfl, fun i hi => by simp only [Mem.setWorker, Function.update_of_ne (hi rfl)]⟩
  all_goals first
    | exact ⟨.none rfl, List.prefix_rfl, fun _ _ => rfl⟩
    | exact ⟨.none rfl, List.prefix_append _ _, fun _ _ => rfl⟩
    | exact ⟨.none rfl, List.prefix_rfl, fun i _ => Mem.part_setWorker WorkerState.iter m _ i rfl⟩
    | exact ⟨.pushMany _ rfl, List.prefix_rfl, fun _ _ => rfl⟩
    | exact submitStep_effect m _ _
    | exact ⟨.tryPopOne _ (by simp [GlobalQueue.queueSpec, GlobalQueue.Op.apply, *]) rfl, List.prefix_rfl, fun _ _ => rfl⟩

theorem effect_act (h : Act cap t m pc m' pc') : Effect m m' pc' fun i => pc = .loop → t ≠ .worker i := by
  cases h with
  | step order _ =>
    cases t with
    | worker j =>
      obtain ⟨huses, hstarted, hiter⟩ := workerStep_effect cap j order m pc
      exact ⟨huses, hstarted, fun i hi => hiter i fun hpc heq => hi hpc (heq ▸ rfl)⟩
    | client e => exact submitStep_effect m pc _
    | stopper => exact stopStep_effect m pc _
  | submit | submitInside | stop => exact ⟨.none rfl, List.prefix_rfl, fun _ _ => rfl⟩

theorem wakeNext_picked (left : Nat) (task : Task) : (wakeNext left task : Pc n).picked = some task := by
  cases left <;> rfl

/-- A worker lets go of the task it has picked only by starting it. -/
theorem picked_act {task : Task} (h : Act cap t m pc m' pc') (hpicked : pc.picked = some task) :
    task ∈ m'.started ∨ pc'.picked = some task := by
  cases h with
  | step order _ =>
    cases t with
    | worker i =>
      cases pc <;> simp only [Pc.picked, Option.some.injEq, reduceCtorEq] at hpicked
      all_goals subst hpicked
      case take picked =>
        left
        exact List.mem_append_right _ (List.mem_singleton_self _)
      case spinFound picked => exact .inr rfl
      case wakePop left picked =>
        right
        simp only [step, workerStep]
        split
        · exact wakeNext_picked left picked
        · rfl
      case wakeOne left picked v => exact .inr (wakeNext_picked left picked)
    | client e => cases pc <;> first | exact .inr hpicked | cases hpicked
    | stopper => cases pc <;> first | exact .inr hpicked | cases hpicked
  | submit | submitInside | stop => cases hpicked

theorem pc_due (hpc : pc ≠ .pickGlobalFirst false) : pc.due = 0 := by
  unfold Pc.due
  split
  · exact absurd rfl hpc
  · rfl

/-- Only the beginning of an iteration leads to the poll. -/
theorem workerStep_due (order : List (Fin n)) (hpc : pc ≠ .loop) : (workerStep cap i order m pc).2.due = 0 := by
  fun_cases workerStep cap i order m pc
  case case9 hresume =>
    simp only [resume, stolenTasks, keepRest, stealNext, stealFound] at hresume
    repeat' split at hresume
    all_goals cases hresume
    all_goals rfl
  case case38 hfirst _ _ _ _ _ _ _ _ _ _ _ _ _ _ _ _ _ _ _ _ _ _ _ _ _ _ _ _ =>
    fun_cases submitStep m pc
    case case6 => exact pc_due (hfirst false)
    all_goals simp only [submitDone]
    all_goals repeat' split
    all_goals rfl
  all_goals first
    | rfl
    | exact absurd rfl hpc
    | split <;> rfl
    | simp only [stealNext, pickFirst, wakeNext, stopStep, stopNext, joinNext]
      repeat' split
      all_goals rfl

end Steps

/-! ### The global queue -/

section GlobalQueue

variable {m m' : Mem n} {pc pc' : Pc n} {i : Fin n}

/-- How often an iteration has begun with a poll that is over. -/
def polls (m : Mem n) (i : Fin n) (pc : Pc n) : Nat := ((m.worker i).iter - pc.due) / 61

theorem polls_loop (iter : Nat) : (iter + 1 - (pickFirst false (iter + 1) : Pc n).due) / 61 = iter / 61 := by
  unfold pickFirst
  split
  · rfl
  · simp only [Pc.due]
    omega

/-- Away from the poll itself, a step of a worker keeps the number of its polls. -/
theorem polls_act {t : Thread n Client} (h : Act cap t m pc m' pc') (ht : t = .worker i) (hpc : pc ≠ .pickGlobalFirst false) :
    polls m' i pc' = polls m i pc := by
  have hdue := pc_due hpc
  by_cases hloop : pc = .loop
  · subst hloop ht
    cases h with
    | step order _ =>
      simp only [polls, step, workerStep, hdue]
      split
      · simp [Mem.setWorker, Pc.due]
      · simpa [Mem.setWorker] using polls_loop _
  · have hiter := (effect_act h).iter i fun hpc => absurd hpc hloop
    have hdue' : pc'.due = 0 := by
      cases h with
      | step order _ =>
        subst ht
        exact workerStep_due order hloop
      | submit | submitInside | stop => rfl
    rw [polls, polls, hiter, hdue, hdue']

/-- A task in the queue moves to the front, or it is picked. -/
theorem Uses.position (h : Uses m m' pc') {j : Nat} {task : Task} (hj : m.global[j]? = some task) :
    pc'.picked = some task ∨ ∃ j' ≤ j, m'.global[j']? = some task := by
  have hlt : j < m.global.length := (List.getElem?_eq_some_iff.mp hj).1
  have happend : ∀ tasks, m.global ++ tasks = m'.global → m'.global[j]? = some task := by
    intro tasks heq
    rw [← heq, List.getElem?_append_left hlt, hj]
  cases h with
  | none h => exact .inr ⟨j, le_rfl, h ▸ hj⟩
  | pushOne new h => exact .inr ⟨j, le_rfl, happend _ (Prod.mk.inj h).2⟩
  | pushMany tasks h => exact .inr ⟨j, le_rfl, happend _ (Prod.mk.inj h).2⟩
  | tryPopOne first h hpicked =>
    obtain ⟨hhead, htail⟩ := Prod.mk.inj h
    cases j with
    | zero =>
      left
      rw [hpicked, ← hj, ← List.head?_eq_getElem?]
      exact (GlobalQueue.Res.task.inj hhead).symm
    | succ j =>
      right
      exact ⟨j, Nat.le_succ j, by rw [← htail, List.getElem?_tail, hj]⟩

/-- The poll takes the first task. -/
theorem poll_act {t : Thread n Client} (h : Act cap t m (.pickGlobalFirst false) m' pc') (ht : t = .worker i) {j : Nat}
    {task : Task} (hj : m.global[j]? = some task) : pc'.picked = some task ∨ ∃ j' < j, m'.global[j']? = some task := by
  subst ht
  cases h with
  | step order _ =>
    simp only [step, workerStep]
    cases hglobal : m.global with
    | nil => simp [hglobal] at hj
    | cons first rest =>
      rw [hglobal] at hj
      cases j with
      | zero => exact .inl hj
      | succ j => exact .inr ⟨j, Nat.lt_succ_self j, hj⟩

end GlobalQueue

section Waiting

variable [DecidableEq Client] {c c' : Logic.Conf (Thread n Client) (Mem n) (Pc n)} {i : Fin n} {task : Task}

/-- The task is in the global queue, and `k` bounds the tasks before it with the polls of worker `i`. -/
def Waits (c : Logic.Conf (Thread n Client) (Mem n) (Pc n)) (i : Fin n) (task : Task) (k : Nat) : Prop :=
  ∃ j, c.mem.global[j]? = some task ∧ j + polls c.mem i (c.pc (.worker i)) ≤ k

theorem Picked.step (h : Picked c task) (hstep : (system cap n Client).step c c') : Picked c' task := by
  obtain ⟨t, m', pc', hact, rfl⟩ := hstep
  rcases h with hstarted | ⟨u, hpicked⟩
  · exact .inl ((effect_act hact).started.subset hstarted)
  · by_cases hu : u = t
    · subst hu
      rcases picked_act hact hpicked with hstarted | hpicked'
      · exact .inl hstarted
      · exact .inr ⟨u, by simpa only [Function.update_self] using hpicked'⟩
    · exact .inr ⟨u, by simpa only [Function.update_of_ne hu] using hpicked⟩

theorem Waits.step {k : Nat} (h : Waits c i task k) (hstep : (system cap n Client).step c c') :
    Picked c' task ∨ Waits c' i task k := by
  obtain ⟨j, hj, hk⟩ := h
  obtain ⟨t, m', pc', hact, rfl⟩ := hstep
  have hpicked : pc'.picked = some task → Picked ⟨m', Function.update c.pc t pc'⟩ task := fun hpc =>
    .inr ⟨t, by simpa only [Function.update_self] using hpc⟩
  by_cases hpoll : t = .worker i ∧ c.pc t = .pickGlobalFirst false
  · -- The poll itself: one more poll, and one task less before this one.
    obtain ⟨ht, hpc⟩ := hpoll
    rw [hpc] at hact
    rcases poll_act hact ht hj with hfirst | ⟨j', hlt, hj'⟩
    · exact .inl (hpicked hfirst)
    · have hiter := (effect_act hact).iter i (by simp)
      refine .inr ⟨j', hj', ?_⟩
      subst ht
      simp only [polls, hpc, Pc.due, Function.update_self, hiter] at hk ⊢
      omega
  · rcases (effect_act hact).uses.position hj with hfirst | ⟨j', hle, hj'⟩
    · exact .inl (hpicked hfirst)
    · refine .inr ⟨j', hj', ?_⟩
      have hsame : polls m' i (Function.update c.pc t pc' (.worker i)) = polls c.mem i (c.pc (.worker i)) := by
        by_cases ht : t = .worker i
        · subst ht
          rw [Function.update_self]
          exact polls_act hact rfl fun hpc => hpoll ⟨rfl, hpc⟩
        · rw [Function.update_of_ne (Ne.symm ht), polls, polls, (effect_act hact).iter i fun _ => ht]
      simp only [hsame]
      omega

end Waiting

/-! ### The bounds -/

section Bounds

variable [DecidableEq Client] {c c' : Logic.Conf (Thread n Client) (Mem n) (Pc n)} {task : Task}

end Bounds

end CppConcur.WorkStealing.Pool
