import CppConcur.WorkStealing.PoolParking
import CppConcur.WorkStealing.PoolRuns
import CppConcur.WorkStealing.QueueAnswers

/-!
# No lost wakeup

A worker that parks has an empty LIFO slot and an empty local queue: it found both empty and only it
puts tasks there. With the invariant of the parking protocol, a state in which all workers sleep and
nobody is about to wake one has no task left to run.
-/

namespace CppConcur.WorkStealing

theorem Queue.Good.contents_eq_nil {α : Type*} {cap : Nat} {q : Queue α} (hgood : q.Good cap) (hempty : q.IsEmpty) :
    q.contents cap = [] := by
  rw [hgood.contents_eq, List.drop_eq_nil_of_le (hgood.length_pushed.trans hempty.symm).le]
  rfl

namespace Pool

variable {n : Nat}

/-- How far a worker that operates on a local queue has come in finding its own containers empty. -/
def Use.emptied : Use n → WorkStealing.Pc Task → Nat
  | .pick _, .popRet none => 2
  | .pick _, _ => 1
  | .size _ _, _ => 2
  | .grab _ _, _ => 2
  | .keep _ _ _ _, _ => 1
  | _, _ => 0

/-- How far a worker has come in finding its own containers empty: at 1 its LIFO slot is empty, at 2
its local queue too. -/
def Pc.emptied : Pc n → Nat
  | .queue _ qpc use => use.emptied qpc
  | .pickGlobal _ => 2
  | .spin => 2
  | .loadWakeups => 2
  | .pushWaiter _ => 2
  | .unspin _ => 2
  | .recheck _ => 2
  | .park _ => 2
  | .checkReady _ => 2
  | .checkStopped _ => 2
  | .wait _ => 2
  | _ => 0

section Emptied

@[simp] theorem emptied_pickFirst (parked : Bool) (iter : Nat) : (pickFirst parked iter : Pc n).emptied = 0 := by
  unfold pickFirst
  split <;> rfl

@[simp] theorem emptied_stealNext (attempt : Attempt) (rest : List (Fin n)) : (stealNext attempt rest).emptied = 2 := by
  cases rest <;> cases attempt <;> rfl

theorem emptied_keepRest_le (i : Fin n) (attempt : Attempt) (stolen : Task) (rest : List Task) :
    (keepRest i attempt stolen rest).emptied ≤ 1 := by
  cases rest with
  | nil => cases attempt <;> exact Nat.zero_le _
  | cons task rest => exact le_rfl

@[simp] theorem emptied_wakeNext (left : Nat) (task : Task) : (wakeNext left task : Pc n).emptied = 0 := by
  cases left <;> rfl

@[simp] theorem emptied_submitDone (current : Option Task) : (submitDone current : Pc n).emptied = 0 := by
  cases current <;> rfl

@[simp] theorem emptied_stopNext (fromStop : Bool) (j : Nat) : (stopNext fromStop j : Pc n).emptied = 0 := by
  unfold stopNext joinNext
  repeat' split
  all_goals rfl

theorem Resumed.emptied_le {cap : Nat} {i v : Fin n} {use : Use n} {qpc : WorkStealing.Pc Task} {pc : Pc n}
    (h : Resumed cap i v use qpc pc) : pc.emptied ≤ use.emptied qpc := by
  cases h with
  | sizeZero attempt rest size => rw [emptied_stealNext]; exact le_rfl
  | grab attempt rest out grabbed =>
    unfold stolenTasks
    split
    · rw [emptied_stealNext]; exact le_rfl
    · exact (emptied_keepRest_le ..).trans (by exact Nat.le_succ 1)
  | kept attempt stolen task rest => exact emptied_keepRest_le ..
  | popNone parked => exact le_rfl
  | sizePos attempt rest size => exact le_rfl
  | _ => exact Nat.zero_le _

theorem emptied_pick {parked : Bool} {qpc : WorkStealing.Pc Task} (h : qpc ≠ .popRet none) :
    (Use.pick parked : Use n).emptied qpc = 1 := by
  cases qpc with
  | popRet task => cases task <;> first | rfl | exact absurd rfl h
  | _ => rfl

/-- A worker gets further only by looking at its LIFO slot and then at its local queue. -/
theorem workerStep_emptied (cap : Nat) (i : Fin n) (order : List (Fin n)) (m : Mem n) (pc : Pc n) :
    (workerStep cap i order m pc).2.emptied ≤ pc.emptied ∨
      (∃ parked, pc = .pickLifo parked ∧ (m.worker i).lifo = none ∧ (workerStep cap i order m pc).2.emptied = 1) ∨
      ∃ v qpc parked, pc = .queue v qpc (.pick parked) ∧ resume cap i v (.pick parked) qpc = none ∧
        pc.emptied = 1 ∧ (WorkStealing.step cap (m.worker v).queue qpc).2 = .popRet none := by
  cases pc with
  | queue v qpc use =>
    cases hresume : resume cap i v use qpc with
    | some pc' =>
      left
      simp only [workerStep, hresume]
      exact (resumed_of_resume hresume).emptied_le
    | none =>
      simp only [workerStep, hresume]
      cases use with
      | pick parked =>
        have hnone : qpc ≠ .popRet none := by
          rintro rfl
          cases hresume
        by_cases hret : (WorkStealing.step cap (m.worker v).queue qpc).2 = .popRet none
        · exact .inr (.inr ⟨v, qpc, parked, rfl, hresume, emptied_pick hnone, hret⟩)
        · left
          change (Use.pick parked : Use n).emptied _ ≤ (Use.pick parked : Use n).emptied _
          rw [emptied_pick hret, emptied_pick hnone]
      | _ => exact .inl le_rfl
  | pickLifo parked =>
    simp only [workerStep]
    cases hlifo : (m.worker i).lifo with
    | none => exact .inr (.inl ⟨parked, rfl, rfl, rfl⟩)
    | some task => exact .inl le_rfl
  | push current task hint =>
    left
    cases hint with
    | next =>
      simp only [workerStep]
      split <;> exact le_rfl
    | _ => exact le_rfl
  | _ =>
    left
    simp only [workerStep, stopStep, submitStep]
    repeat' split
    all_goals try simp only [emptied_pickFirst, emptied_stealNext, emptied_wakeNext, emptied_submitDone, emptied_stopNext]
    all_goals first | exact le_rfl | exact Nat.zero_le _

end Emptied

/-! ### The LIFO slot -/

section Lifo

variable {cap : Nat} {i v : Fin n} {use : Use n} {qpc : WorkStealing.Pc Task} {pc : Pc n}

theorem submitStep_lifo (m : Mem n) (pc : Pc n) (j : Fin n) : ((submitStep m pc).1.worker j).lifo = (m.worker j).lifo := by
  cases pc <;> simp only [submitStep]
  · split <;> rfl
  · exact m.part_setWorker WorkerState.lifo _ j rfl

theorem stopStep_lifo (m : Mem n) (pc : Pc n) (j : Fin n) : ((stopStep m pc).1.worker j).lifo = (m.worker j).lifo := by
  cases pc <;> first | rfl | exact m.part_setWorker WorkerState.lifo _ j rfl

/-- A worker changes only its own LIFO slot, when it takes a task from there or puts one there. -/
theorem workerStep_lifo (cap : Nat) (i j : Fin n) (order : List (Fin n)) (m : Mem n) (pc : Pc n) :
    ((workerStep cap i order m pc).1.worker j).lifo = (m.worker j).lifo ∨
      j = i ∧ ((∃ parked, pc = .pickLifo parked) ∨ ∃ current task, pc = .push current task .next) := by
  by_cases hj : j = i
  · subst hj
    cases pc with
    | pickLifo parked => exact .inr ⟨rfl, .inl ⟨parked, rfl⟩⟩
    | push current task hint =>
      cases hint with
      | next => exact .inr ⟨rfl, .inr ⟨current, task, rfl⟩⟩
      | _ => exact .inl rfl
    | _ =>
      left
      simp only [workerStep, stopStep, submitStep]
      repeat' split
      all_goals first | rfl | exact m.part_setWorker WorkerState.lifo _ j rfl
  · left
    have hown : ∀ w : WorkerState, ((m.setWorker i w).worker j).lifo = (m.worker j).lifo := by
      intro w
      simp only [Mem.setWorker, ne_eq, hj, not_false_eq_true, Function.update_of_ne]
    cases pc with
    | push current task hint =>
      cases hint with
      | next => exact hown _
      | _ => rfl
    | _ =>
      simp only [workerStep, stopStep, submitStep]
      repeat' split
      all_goals first | rfl | exact hown _ | exact m.part_setWorker WorkerState.lifo _ j rfl

end Lifo

/-! ### Empty containers -/

section Reachable

variable {Client : Type*} [DecidableEq Client] {cap : Nat} {c : Logic.Conf (Thread n Client) (Mem n) (Pc n)}

/-- What a worker has found empty is empty. -/
structure Dry (c : Logic.Conf (Thread n Client) (Mem n) (Pc n)) : Prop where
  lifo : ∀ i, 1 ≤ (c.pc (.worker i)).emptied → (c.mem.worker i).lifo = none
  queue : ∀ i, 2 ≤ (c.pc (.worker i)).emptied → (c.mem.worker i).queue.IsEmpty

omit [DecidableEq Client] in
theorem Dry.of_same {m : Mem n} {pcs : Thread n Client → Pc n} (h : Dry c) (hsame : SameQueues c.mem m)
    (hlifo : ∀ j, (m.worker j).lifo = (c.mem.worker j).lifo)
    (hpcs : ∀ i, (pcs (.worker i)).emptied ≤ (c.pc (.worker i)).emptied) : Dry ⟨m, pcs⟩ where
  lifo i hi := (hlifo i).trans (h.lifo i (hi.trans (hpcs i)))
  queue i hi := by
    simp only [hsame i]
    exact h.queue i (hi.trans (hpcs i))

omit [DecidableEq Client] in
/-- A step of a worker keeps the queues of the others empty, and its own one unless it pushes. -/
theorem QueuesGood.isEmpty_step {i : Fin n} {order : List (Fin n)} (h : QueuesGood cap c)
    (hbound : ∀ j, ((workerStep cap i order c.mem (c.pc (.worker i))).1.worker j).queue.pushed.length < word)
    (j : Fin n) (hj : j = i → 2 ≤ (c.pc (.worker i)).emptied) (hempty : (c.mem.worker j).queue.IsEmpty) :
    ((workerStep cap i order c.mem (c.pc (.worker i))).1.worker j).queue.IsEmpty := by
  have hfits := h.fits i
  have hassertion := h.assertion i
  generalize c.pc (.worker i) = pc at hfits hassertion hbound hj ⊢
  rcases workerStep_cases cap i order c.mem pc with ⟨v, qpc, use, rfl, hresume⟩ | ⟨hsame, _⟩
  · by_cases hv : j = v
    · subst hv
      have hown := hassertion j
      have hboundj := hbound j
      simp only [workerStep, hresume, Mem.setWorker, Function.update_self, Pc.onQueue, if_pos] at hown hboundj ⊢
      apply hempty.step (h.good j) hboundj hown
      rintro task rfl
      -- only the worker itself pushes to its queue, and not after it has found it empty
      cases use with
      | push current pushed => exact absurd (hj hfits.1) (Nat.not_succ_le_zero 1)
      | keep attempt stolen pushed rest => exact absurd (hj hfits.1) (Nat.not_succ_le_self 1)
      | pick parked => exact hfits.2
      | offload current pushed => exact hfits.2
      | size attempt rest => exact hfits
      | grab attempt rest => exact hfits
    · simpa only [workerStep, hresume, Mem.setWorker, ne_eq, hv, not_false_eq_true, Function.update_of_ne] using hempty
  · rw [hsame j]
    exact hempty

/-- A worker that has found its LIFO slot empty leaves it empty. -/
theorem workerStep_lifo_eq_none {cap : Nat} {i : Fin n} {order : List (Fin n)} {m : Mem n} {pc : Pc n}
    (h : 1 ≤ pc.emptied → (m.worker i).lifo = none) (hpc : 1 ≤ (workerStep cap i order m pc).2.emptied) :
    ((workerStep cap i order m pc).1.worker i).lifo = none := by
  have hkeep : 1 ≤ pc.emptied → ((workerStep cap i order m pc).1.worker i).lifo = none := by
    intro hle
    rcases workerStep_lifo cap i i order m pc with hsame | ⟨_, ⟨parked, rfl⟩ | ⟨current, task, rfl⟩⟩
    · exact hsame.trans (h hle)
    · exact absurd hle (Nat.not_succ_le_zero 0)
    · exact absurd hle (Nat.not_succ_le_zero 0)
  rcases workerStep_emptied cap i order m pc with hle | ⟨parked, rfl, hnone, _⟩ | ⟨_, _, _, _, _, hone, _⟩
  · exact hkeep (hpc.trans hle)
  · simp only [workerStep, hnone]
  · exact hkeep hone.ge

theorem Dry.worker_step {i : Fin n} {order : List (Fin n)} (h : Dry c) (hgood : QueuesGood cap c)
    (hbound : ∀ j, ((workerStep cap i order c.mem (c.pc (.worker i))).1.worker j).queue.pushed.length < word) :
    Dry ⟨(workerStep cap i order c.mem (c.pc (.worker i))).1,
      Function.update c.pc (.worker i) (workerStep cap i order c.mem (c.pc (.worker i))).2⟩ := by
  constructor
  · intro j hj
    by_cases hji : j = i
    · subst hji
      simp only [Function.update_self] at hj
      exact workerStep_lifo_eq_none (h.lifo j) hj
    · simp only [ne_eq, Thread.worker.injEq, hji, not_false_eq_true, Function.update_of_ne] at hj
      rcases workerStep_lifo cap i j order c.mem (c.pc (.worker i)) with hsame | ⟨heq, _⟩
      · exact hsame.trans (h.lifo j hj)
      · exact absurd heq hji
  · intro j hj
    by_cases hji : j = i
    · subst hji
      simp only [Function.update_self] at hj
      rcases workerStep_emptied cap j order c.mem (c.pc (.worker j)) with
        hle | ⟨_, _, _, hone⟩ | ⟨v, qpc, parked, hpc, hresume, _, hret⟩
      · have htwo := hj.trans hle
        exact hgood.isEmpty_step hbound j (fun _ => htwo) (h.queue j htwo)
      · omega
      · have hfits := hgood.fits j
        have hassertion := hgood.assertion j v
        simp only [hpc, Pc.onQueue, if_pos] at hassertion
        rw [hpc] at hfits
        obtain ⟨rfl, _⟩ := hfits
        have hout : ¬ qpc.Outside := by
          intro hout
          rw [step_of_outside hout] at hret
          cases hret
          cases hresume
        obtain ⟨hempty, hsame⟩ := isEmpty_of_popRet (hgood.good v) hassertion hout hret
        simpa only [hpc, workerStep, hresume, Mem.setWorker, Function.update_self, hsame] using hempty
    · simp only [ne_eq, Thread.worker.injEq, hji, not_false_eq_true, Function.update_of_ne] at hj
      exact hgood.isEmpty_step hbound j (fun heq => absurd heq hji) (h.queue j hj)

theorem Dry.act {t : Thread n Client} {m : Mem n} {pc : Pc n} (h : Dry c) (hgood : QueuesGood cap c)
    (hact : Act cap t c.mem (c.pc t) m pc) (hbound : ∀ j, (m.worker j).queue.pushed.length < word) :
    Dry ⟨m, Function.update c.pc t pc⟩ := by
  have hother : (∀ i, Thread.worker i ≠ t) → ∀ i, (Function.update c.pc t pc (.worker i)).emptied ≤ (c.pc (.worker i)).emptied :=
    fun ht i => by rw [Function.update_of_ne (ht i)]
  generalize hpc : c.pc t = pc₀ at hact
  cases t with
  | client e =>
    cases hact with
    | submit => exact h.of_same (fun _ => rfl) (fun _ => rfl) (hother nofun)
    | step order horder =>
      exact h.of_same (submitStep_sameQueues c.mem pc₀) (submitStep_lifo c.mem pc₀) (hother nofun)
  | stopper =>
    cases hact with
    | stop => exact h.of_same (fun _ => rfl) (fun _ => rfl) (hother nofun)
    | step order horder => exact h.of_same (stopStep_sameQueues c.mem pc₀) (stopStep_lifo c.mem pc₀) (hother nofun)
  | worker i =>
    cases hact with
    | submitInside hint =>
      refine h.of_same (fun _ => rfl) (fun _ => rfl) fun j => ?_
      by_cases hj : j = i
      · subst hj
        rw [Function.update_self]
        exact Nat.zero_le _
      · rw [Function.update_of_ne (by simpa using hj)]
    | step order horder =>
      subst hpc
      exact h.worker_step hgood hbound

theorem dry_of_reachable (h : (boundedSystem cap n Client).Reachable c) : Dry c := by
  refine h.invariant ?_ ?_
  · intro c hinit
    obtain ⟨hmem, hpcs⟩ := hinit
    constructor
    · intro i _
      rw [hmem]
      rfl
    · intro i _
      rw [hmem]
      rfl
  · rintro c c' hreach hdry ⟨⟨t, m, pc, hact, rfl⟩, hbound⟩
    exact hdry.act (queuesGood_of_reachable hreach) hact hbound

/-- A worker that is not active in the parking protocol has found its own containers empty. -/
theorem emptied_of_resting {pc : Pc n} {old : Nat} (h : pc.phase.resting = some old) : pc.emptied = 2 := by
  cases pc with
  | queue v qpc use =>
    cases use with
    | size attempt rest => rfl
    | grab attempt rest => rfl
    | _ => cases h
  | _ => first | rfl | cases h

/-- A thread in a call of `Submit` or `TryWakeOneWorker`. -/
def Pc.InCall : Pc n → Prop
  | .push _ _ _ => True
  | .queue _ _ (.push _ _) => True
  | .queue _ _ (.offload _ _) => True
  | .offloadMany _ _ => True
  | .submitGlobal _ _ => True
  | .submitCheck _ => True
  | .submitPop _ => True
  | .submitWake _ _ => True
  | .wakePop _ _ => True
  | .wakeOne _ _ _ => True
  | _ => False

theorem inCall_of_obligated {pc : Pc n} (h : pc.phase = .obligated) : pc.InCall := by
  cases pc with
  | queue v qpc use =>
    cases use with
    | size attempt rest => cases attempt <;> cases h
    | grab attempt rest => cases attempt <;> cases h
    | _ => cases h
  | _ => trivial

theorem inCall_of_waking {pc : Pc n} {v : Fin n} (h : pc.phase = .waking v) : pc.InCall := by
  cases pc with
  | queue v qpc use =>
    cases use with
    | size attempt rest => cases attempt <;> cases h
    | grab attempt rest => cases attempt <;> cases h
    | _ => cases h
  | _ => trivial

/-- If every worker is at rest, was not woken, and no thread is in a call that could wake one, no task
is left in a queue or a LIFO slot. -/
theorem empty_of_resting (hn : 0 < n) (h : (boundedSystem cap n Client).Reachable c)
    (hcalls : ∀ t, ¬ (c.pc t).InCall)
    (hrest : ∀ i, ∃ old, (c.pc (.worker i)).phase.resting = some old ∧ (c.mem.worker i).wakes ≤ old) :
    c.mem.global = [] ∧ ∀ i, (c.mem.worker i).queue.contents cap = [] ∧ (c.mem.worker i).lifo = none := by
  have hdry := dry_of_reachable h
  constructor
  · by_contra hglobal
    cases (protocol_of_reachable hn h.of_restrict).alerted hglobal with
    | working i hnone =>
      obtain ⟨old, hold, _⟩ := hrest i
      rw [hold] at hnone
      cases hnone
    | obligated t ht => exact hcalls t (inCall_of_obligated ht)
    | waking t v ht => exact hcalls t (inCall_of_waking ht)
    | woken i old hold hlt =>
      obtain ⟨old', hold', hle⟩ := hrest i
      rw [hold] at hold'
      cases hold'
      exact absurd hlt (Nat.not_lt_of_le hle)
  · intro i
    obtain ⟨old, hold, _⟩ := hrest i
    have htwo := emptied_of_resting hold
    exact ⟨((queuesGood_of_reachable h).good i).contents_eq_nil (hdry.queue i htwo.ge), hdry.lifo i (by omega)⟩

/-- No wakeup is lost: when no call of `Submit` or `TryWakeOneWorker` is in progress and every worker
is blocked with `wakeups_` equal to the value it loaded, and fewer than `2^32` increments were made
since, no task is left. -/
theorem no_lost_wakeup (hn : 0 < n) (h : (boundedSystem cap n Client).Reachable c) (hcalls : ∀ t, ¬ (c.pc t).InCall)
    (hblocked : ∀ i, ∃ old, c.pc (.worker i) = .wait old ∧ wakeups (c.mem.worker i).wakes = wakeups old ∧
      (c.mem.worker i).wakes < old + 2 ^ 32) :
    c.mem.global = [] ∧ ∀ i, (c.mem.worker i).queue.contents cap = [] ∧ (c.mem.worker i).lifo = none := by
  refine empty_of_resting hn h hcalls fun i => ?_
  obtain ⟨old, hpc, hsame, hfew⟩ := hblocked i
  refine ⟨old, by rw [hpc]; rfl, ?_⟩
  have hle : old ≤ (c.mem.worker i).wakes :=
    (protocol_of_reachable hn h.of_restrict).since_le i old (by rw [hpc]; rfl)
  unfold wakeups at hsame
  omega

/-- A worker that waits in an idle pool. -/
theorem no_lost_wakeup_parked :
    ∃ c, (boundedSystem 7 1 Nat).Reachable c ∧ c.pc (.worker 0) = .wait 0 ∧ c.mem.global = [] ∧
      ∀ i, (c.mem.worker i).queue.contents 7 = [] ∧ (c.mem.worker i).lifo = none := by
  have hreach := parked_reachable 7 0
  refine ⟨_, hreach, rfl, no_lost_wakeup Nat.one_pos hreach ?_ ?_⟩
  · intro t
    cases t with
    | client e =>
      have hidle : stalled 0 e = .idle := if_neg (Nat.not_lt_zero e)
      simp only [solo, hidle, Pc.InCall, not_false_eq_true]
    | _ => exact id
  · exact fun i => ⟨0, rfl, rfl, Nat.two_pow_pos 32⟩

/-- Without workers nobody takes the task; and with one worker, `2^32` calls of `Submit` that stall
between `PopWaiter` and the increment of `wakeups_` bring it back to the value the worker waits on. -/
theorem lost_wakeup :
    (∃ c, (boundedSystem 7 0 Nat).Reachable c ∧ (∀ t, ¬ (c.pc t).InCall) ∧ c.pc .stopper = .idle ∧
      (∀ i, ∃ old, c.pc (.worker i) = .wait old ∧ wakeups (c.mem.worker i).wakes = wakeups old) ∧
      c.mem.global = [0]) ∧
    ∃ c, (boundedSystem 7 1 Nat).Reachable c ∧ (∀ t, ¬ (c.pc t).InCall) ∧ c.pc .stopper = .idle ∧
      (∀ i, ∃ old, c.pc (.worker i) = .wait old ∧ wakeups (c.mem.worker i).wakes = wakeups old) ∧
      c.mem.global = [2 ^ 32 - 1] := by
  constructor
  · have h0 : (boundedSystem 7 0 Nat).Reachable ⟨.start 0, Thread.start⟩ := .init ⟨rfl, fun _ => rfl⟩
    have h1 := h0.step ⟨⟨.client 0, _, _, .submit, rfl⟩, nofun⟩
    have h2 := h1.step ⟨⟨.client 0, _, _, .step [] (.refl _), rfl⟩, nofun⟩
    have h3 := h2.step ⟨⟨.client 0, _, _, .step [] (.refl _), rfl⟩, nofun⟩
    have h4 := h3.step ⟨⟨.client 0, _, _, .step [] (.refl _), rfl⟩, nofun⟩
    refine ⟨_, h4, ?_, rfl, nofun, rfl⟩
    intro t
    cases t with
    | worker i => exact i.elim0
    | stopper => exact id
    | client e =>
      by_cases he : e = 0
      · subst he
        exact id
      · simp only [ne_eq, Thread.client.injEq, he, not_false_eq_true, Function.update_of_ne]
        exact id
  · refine ⟨_, overdue_reachable 7 (2 ^ 32 - 1), ?_, rfl, fun i => ⟨0, rfl, ?_⟩, rfl⟩
    · intro t
      cases t <;> exact id
    · exact Nat.mod_self (2 ^ 32)

end Reachable

end Pool

end CppConcur.WorkStealing
