import CppConcur.WorkStealing.Pool
import CppConcur.WorkStealing.QueueInvariant

/-!
# The local queues inside the pool

What the pool needs of a local queue beyond its own invariant: which operation a thread is in, and
how each step of an operation moves tasks between the queue and the thread. The invariant of one
queue then lifts to all queues of a pool, where a worker is the producer of its own queue and a
consumer of every queue.
-/

namespace CppConcur.WorkStealing

variable {α : Type*}

/-! ### The tasks in the ring buffer -/

/-- The slots of the ring buffer from `head_` to `tail_`. -/
def Queue.contents (cap : Nat) (q : Queue α) : List (Option α) :=
  (List.range (sub64 q.tail q.head)).map fun k => q.buffer (add64 q.head k % cap)

theorem Queue.Good.contents_eq {cap : Nat} {q : Queue α} (hgood : q.Good cap) :
    q.contents cap = (q.pushed.drop q.head).map some := by
  have hle := hgood.head_le_tail
  have hlt := hgood.tail_lt
  have hlength := hgood.length_pushed
  rw [Queue.contents, sub64_eq hle hlt]
  apply List.ext_getElem?
  intro k
  rw [List.getElem?_map, List.getElem?_map, List.getElem?_drop]
  by_cases hk : k < q.tail - q.head
  · have hlt' : q.head + k < q.pushed.length := by omega
    rw [List.getElem?_range hk, Option.map_some, add64_eq (by omega), hgood.slot _ (by omega) (by omega),
      List.getElem?_eq_getElem hlt', Option.map_some]
  · rw [List.getElem?_eq_none (by rw [List.length_range]; omega), List.getElem?_eq_none (by omega)]
    rfl

/-- What a claim appends to the history is what it takes from the front of the queue. -/
theorem Queue.Good.contents_claim {cap : Nat} {q q' : Queue α} (hgood : q.Good cap) (hgood' : q'.Good cap)
    (hpushed : q'.pushed = q.pushed) (hhead : q.head ≤ q'.head) {claimed : List (Option α)}
    (hhanded : q'.handed = q.handed ++ claimed) :
    q.contents cap = claimed.reduceOption.map some ++ q'.contents cap := by
  have hsplit : q.pushed.take q'.head = q.pushed.take q.head ++ (q.pushed.drop q.head).take (q'.head - q.head) := by
    rw [← List.take_add, Nat.add_sub_cancel' hhead]
  have hclaimed : claimed = ((q.pushed.drop q.head).take (q'.head - q.head)).map some := by
    have heq := hgood'.handed_eq
    rw [hhanded, hgood.handed_eq, hpushed, hsplit, List.map_append] at heq
    exact List.append_cancel_left heq
  have hreduce : claimed.reduceOption = (q.pushed.drop q.head).take (q'.head - q.head) := by
    rw [hclaimed, List.reduceOption, List.filterMap_map]
    exact List.filterMap_some
  have hdrop : (q.pushed.drop q.head).drop (q'.head - q.head) = q.pushed.drop q'.head := by
    rw [List.drop_drop, Nat.add_sub_cancel' hhead]
  rw [hreduce, hgood.contents_eq, hgood'.contents_eq, hpushed, ← List.map_append, ← hdrop, List.take_append_drop]

/-! ### Operations in progress -/

/-- In `TryPush` of a task, or returned from it. -/
def Pc.Pushing (task : α) : Pc α → Prop
  | .pushLoadTail t | .pushLoadHead t _ | .pushStore t _ | .pushBump t => t = task
  | .pushRet _ => True
  | _ => False

/-- In `TryPop`, or returned from it. -/
def Pc.Popping : Pc α → Prop
  | .popLoadHead | .popLoadTail _ | .popLoadSlot _ | .popCas _ _ | .popRet _ => True
  | _ => False

/-- In `Grab`, or returned from it. -/
def Pc.Grabbing : Pc α → Prop
  | .grabLoadTail _ | .grabLoadHead _ _ | .grabCopy _ _ _ _ _ | .grabCas _ _ _ _ | .grabRet _ _ => True
  | _ => False

/-- In `SizeEstimate`, or returned from it. -/
def Pc.Sizing : Pc α → Prop
  | .sizeLoadHead | .sizeLoadTail _ | .sizeRet _ => True
  | _ => False

section Operations

variable {cap : Nat} {q : Queue α} {pc : Pc α} {task : α}

theorem Pc.Pushing.step (h : pc.Pushing task) : (step cap q pc).2.Pushing task := by
  cases pc <;> simp only [Pc.Pushing] at h <;> simp only [WorkStealing.step] <;> first | exact h | trivial | skip
  split
  · trivial
  · exact h

theorem Pc.Popping.step (h : pc.Popping) : (step cap q pc).2.Popping := by
  cases pc <;> simp only [Pc.Popping] at h <;> simp only [WorkStealing.step] <;>
    first | trivial | (split <;> trivial)

theorem Pc.Grabbing.step (h : pc.Grabbing) : (step cap q pc).2.Grabbing := by
  cases pc <;> simp only [Pc.Grabbing] at h <;> simp only [WorkStealing.step, grabLoop] <;>
    first | trivial | (split <;> first | trivial | (split <;> trivial))

theorem Pc.Sizing.step (h : pc.Sizing) : (step cap q pc).2.Sizing := by
  cases pc <;> simp only [Pc.Sizing] at h <;> trivial

end Operations

/-- The tasks a consumer has received from the operation that has returned. -/
def Pc.taken : Pc α → List α
  | .popRet task => task.toList
  | .grabRet out grabbed => (out.take grabbed).reduceOption
  | _ => []

theorem step_claims (cap : Nat) (q : Queue α) {pc : Pc α} (hout : ¬ pc.Outside) (hpush : ∀ task, pc ≠ .pushBump task) :
    ∃ claimed, (step cap q pc).1.handed = q.handed ++ claimed ∧
      claimed.reduceOption = (step cap q pc).2.taken ∧ (step cap q pc).1.pushed = q.pushed := by
  have hnone : ∀ pc' : Pc α, pc'.taken = [] → ∃ claimed, q.handed = q.handed ++ claimed ∧
      claimed.reduceOption = pc'.taken ∧ q.pushed = q.pushed :=
    fun pc' h => ⟨[], (List.append_nil _).symm, h.symm ▸ rfl, rfl⟩
  have hloop : ∀ (out : List (Option α)) oldHead newHead maxGrab, (grabLoop out oldHead newHead maxGrab).taken = [] := by
    intro out oldHead newHead maxGrab
    unfold grabLoop
    split <;> rfl
  cases pc with
  | pushBump task => exact absurd rfl (hpush task)
  | popCas oldHead task =>
    simp only [step]
    split
    · refine ⟨[task], rfl, ?_, rfl⟩
      cases task <;> rfl
    · exact hnone _ rfl
  | grabCas out oldHead newHead maxGrab =>
    simp only [step]
    split
    · exact ⟨_, rfl, rfl, rfl⟩
    · exact hnone _ (hloop ..)
  | grabCopy out oldHead newHead maxGrab i =>
    simp only [step]
    split
    · exact hnone _ rfl
    · exact hnone _ (hloop ..)
  | pushLoadHead task currentTail =>
    simp only [step]
    split <;> exact hnone _ rfl
  | popLoadTail oldHead =>
    simp only [step]
    split <;> exact hnone _ rfl
  | grabLoadHead out newHead =>
    simp only [step]
    split
    · exact hnone _ rfl
    · exact hnone _ rfl
  | idle => exact absurd trivial hout
  | pushRet ok => exact absurd trivial hout
  | popRet task => exact absurd trivial hout
  | grabRet out grabbed => exact absurd trivial hout
  | sizeRet size => exact absurd trivial hout
  | _ => exact hnone _ rfl

/-- A step of an operation moves tasks from the front of the queue to the thread, except that the last step of `TryPush`
puts its task at the end. -/
theorem Queue.Good.contents_step {cap : Nat} {isProducer : Prop} {q : Queue α} {pc : Pc α} (hgood : q.Good cap)
    (hbound : (step cap q pc).1.pushed.length < word) (hpc : Assertion cap isProducer q pc) (hout : ¬ pc.Outside)
    (hpush : ∀ task, pc ≠ .pushBump task) :
    q.contents cap = (step cap q pc).2.taken.map some ++ (step cap q pc).1.contents cap := by
  obtain ⟨hgood', _, hevolves⟩ := step_keeps hgood hbound hpc
  obtain ⟨claimed, hhanded, htaken, hpushed⟩ := step_claims cap q hout hpush
  rw [← htaken]
  exact hgood.contents_claim hgood' hpushed hevolves.head_le hhanded

theorem Queue.Good.contents_pushBump {cap : Nat} {isProducer : Prop} {q : Queue α} {task : α} (hgood : q.Good cap)
    (hbound : (step cap q (.pushBump task)).1.pushed.length < word) (hpc : Assertion cap isProducer q (.pushBump task)) :
    (step cap q (.pushBump task)).1.contents cap = q.contents cap ++ [some task] := by
  obtain ⟨hgood', _, _⟩ := step_keeps hgood hbound hpc
  have hle : q.head ≤ q.pushed.length := hgood.length_pushed ▸ hgood.head_le_tail
  rw [hgood'.contents_eq, hgood.contents_eq]
  change ((q.pushed ++ [task]).drop q.head).map some = _
  rw [List.drop_append_of_le_length hle, List.map_append]
  rfl

namespace Pool

variable {n : Nat}

/-! ### The local queues of a pool -/

/-- The operation on the queue of worker `v` belongs to what worker `i` uses it for. -/
def Use.Fits (i v : Fin n) : Use n → WorkStealing.Pc Task → Prop
  | .pick _, pc => v = i ∧ pc.Popping
  | .push _ task, pc => v = i ∧ pc.Pushing task
  | .offload _ _, pc => v = i ∧ pc.Grabbing
  | .size _ _, pc => pc.Sizing
  | .grab _ _, pc => pc.Grabbing
  | .keep _ _ task _, pc => v = i ∧ pc.Pushing task

theorem Use.Fits.step {i v : Fin n} {use : Use n} {pc : WorkStealing.Pc Task} (h : use.Fits i v pc) (cap : Nat)
    (q : Queue Task) : use.Fits i v (WorkStealing.step cap q pc).2 := by
  cases use with
  | pick parked => exact ⟨h.1, h.2.step⟩
  | push current task => exact ⟨h.1, h.2.step⟩
  | offload current task => exact ⟨h.1, h.2.step⟩
  | size attempt rest => exact WorkStealing.Pc.Sizing.step h
  | grab attempt rest => exact WorkStealing.Pc.Grabbing.step h
  | keep attempt stolen task rest => exact ⟨h.1, h.2.step⟩

/-- Worker `i` is in no operation on a local queue, or at the start of one. -/
def Starts (i : Fin n) : Pc n → Prop
  | .queue v pc use => use.Fits i v pc ∧ Call (i = v) pc
  | _ => True

theorem starts_stealNext (i : Fin n) (attempt : Attempt) (rest : List (Fin n)) : Starts i (stealNext attempt rest) := by
  cases rest with
  | nil => cases attempt <;> trivial
  | cons v rest => exact ⟨trivial, .sizeEstimate⟩

theorem starts_keepRest (i : Fin n) (attempt : Attempt) (stolen : Task) (rest : List Task) :
    Starts i (keepRest i attempt stolen rest) := by
  cases rest with
  | nil => cases attempt <;> trivial
  | cons task rest => exact ⟨⟨rfl, rfl⟩, .tryPush task rfl⟩

/-- The ways an operation on the queue of worker `v` returns to worker `i`. -/
inductive Resumed (cap : Nat) (i v : Fin n) : Use n → WorkStealing.Pc Task → Pc n → Prop
  | popNone (parked : Bool) : Resumed cap i v (.pick parked) (.popRet none) (.pickGlobal parked)
  | popSome (parked : Bool) (task : Task) : Resumed cap i v (.pick parked) (.popRet (some task)) (.take task)
  | pushed (current task : Task) : Resumed cap i v (.push current task) (.pushRet true) (.submitCheck (some current))
  | overflow (current task : Task) : Resumed cap i v (.push current task) (.pushRet false)
      (.queue i (.grabLoadTail (List.replicate (cap / 2) none)) (.offload current task))
  | offload (current task : Task) (out : List (Option Task)) (grabbed : Nat) :
      Resumed cap i v (.offload current task) (.grabRet out grabbed)
        (.offloadMany current (grabbedTasks out grabbed ++ [task]))
  | sizeZero (attempt : Attempt) (rest : List (Fin n)) (size : Nat) :
      Resumed cap i v (.size attempt rest) (.sizeRet size) (stealNext attempt rest)
  | sizePos (attempt : Attempt) (rest : List (Fin n)) (size : Nat) :
      Resumed cap i v (.size attempt rest) (.sizeRet size)
        (.queue v (.grabLoadTail (List.replicate (stealCount cap size) none)) (.grab attempt rest))
  | grab (attempt : Attempt) (rest : List (Fin n)) (out : List (Option Task)) (grabbed : Nat) :
      Resumed cap i v (.grab attempt rest) (.grabRet out grabbed)
        (stolenTasks i attempt rest (grabbedTasks out grabbed))
  | kept (attempt : Attempt) (stolen task : Task) (rest : List Task) :
      Resumed cap i v (.keep attempt stolen task rest) (.pushRet true) (keepRest i attempt stolen rest)
  | aborted (attempt : Attempt) (stolen task : Task) (rest : List Task) :
      Resumed cap i v (.keep attempt stolen task rest) (.pushRet false)
        (.aborted attempt (stolen :: task :: rest))

theorem resumed_of_resume {cap : Nat} {i v : Fin n} {use : Use n} {qpc : WorkStealing.Pc Task} {pc : Pc n}
    (h : resume cap i v use qpc = some pc) : Resumed cap i v use qpc pc := by
  unfold resume at h
  split at h
  all_goals try split at h
  all_goals cases h
  all_goals constructor

theorem Resumed.starts {cap : Nat} {i v : Fin n} {use : Use n} {qpc : WorkStealing.Pc Task} {pc : Pc n}
    (h : Resumed cap i v use qpc pc) : Starts i pc := by
  cases h with
  | overflow current task => exact ⟨⟨rfl, trivial⟩, .grab _⟩
  | sizeZero attempt rest size => exact starts_stealNext i attempt rest
  | sizePos attempt rest size => exact ⟨trivial, .grab _⟩
  | grab attempt rest out grabbed =>
    unfold stolenTasks
    split
    · exact starts_stealNext i attempt rest
    · exact starts_keepRest ..
  | kept attempt stolen task rest => exact starts_keepRest ..
  | _ => trivial

theorem starts_pickFirst (i : Fin n) (parked : Bool) (iter : Nat) : Starts i (pickFirst parked iter) := by
  unfold pickFirst
  split <;> trivial

theorem starts_submitDone (i : Fin n) (current : Option Task) : Starts i (submitDone current) := by
  cases current <;> trivial

theorem starts_wakeNext (i : Fin n) (left : Nat) (task : Task) : Starts i (wakeNext left task) := by
  cases left <;> trivial

theorem starts_stopNext (i : Fin n) (fromStop : Bool) (j : Nat) : Starts i (stopNext fromStop j) := by
  unfold stopNext joinNext
  split
  · trivial
  · split
    · split <;> trivial
    · trivial

/-- No local queue has changed. -/
def SameQueues (m m' : Mem n) : Prop := ∀ j, (m'.worker j).queue = (m.worker j).queue

theorem sameQueues_setWorker (m : Mem n) (i : Fin n) {w : WorkerState} (h : w.queue = (m.worker i).queue) :
    SameQueues m (m.setWorker i w) :=
  fun j => m.part_setWorker WorkerState.queue i j h

theorem submitStep_sameQueues (m : Mem n) (pc : Pc n) : SameQueues m (submitStep m pc).1 := by
  cases pc <;> simp only [submitStep] <;> try exact fun _ => rfl
  · split <;> exact fun _ => rfl
  · exact sameQueues_setWorker m _ rfl

theorem stopStep_sameQueues (m : Mem n) (pc : Pc n) : SameQueues m (stopStep m pc).1 := by
  cases pc <;> simp only [stopStep] <;> first | exact fun _ => rfl | exact sameQueues_setWorker m _ rfl

/-- A step of a worker is a step of the operation it is in, or it leaves all queues alone. -/
theorem workerStep_cases (cap : Nat) (i : Fin n) (order : List (Fin n)) (m : Mem n) (pc : Pc n) :
    (∃ v qpc use, pc = .queue v qpc use ∧ resume cap i v use qpc = none) ∨
      SameQueues m (workerStep cap i order m pc).1 ∧ Starts i (workerStep cap i order m pc).2 := by
  cases pc with
  | queue v qpc use =>
    cases hresume : resume cap i v use qpc with
    | none => exact .inl ⟨v, qpc, use, rfl, hresume⟩
    | some pc' =>
      right
      simp only [workerStep, hresume]
      exact ⟨fun _ => rfl, (resumed_of_resume hresume).starts⟩
  | pickLifo parked =>
    right
    simp only [workerStep]
    split
    · exact ⟨fun _ => rfl, ⟨rfl, trivial⟩, .tryPop⟩
    · exact ⟨sameQueues_setWorker m i rfl, trivial⟩
  | push current task hint =>
    right
    cases hint with
    | upToYou => exact ⟨fun _ => rfl, ⟨rfl, rfl⟩, .tryPush task rfl⟩
    | yield => exact ⟨fun _ => rfl, trivial⟩
    | next =>
      refine ⟨sameQueues_setWorker m i rfl, ?_⟩
      simp only [workerStep]
      split
      · trivial
      · exact ⟨⟨rfl, rfl⟩, .tryPush _ rfl⟩
  | spin => exact .inr ⟨fun _ => rfl, starts_stealNext i .first (victims i order)⟩
  | recheck old =>
    right
    simp only [workerStep]
    split
    · exact ⟨fun _ => rfl, starts_stealNext i (.final old) (victims i order)⟩
    · exact ⟨fun _ => rfl, trivial⟩
  | _ =>
    right
    simp only [workerStep, stopStep, submitStep]
    repeat' split
    all_goals
      constructor
      · first | exact fun _ => rfl | exact sameQueues_setWorker m _ rfl
      · first
        | trivial
        | exact starts_pickFirst ..
        | exact starts_wakeNext ..
        | exact starts_submitDone ..
        | exact starts_stopNext ..

/-- Where the thread is in the operation on the queue of worker `j`. -/
def Pc.onQueue (j : Fin n) : Pc n → WorkStealing.Pc Task
  | .queue v qpc _ => if v = j then qpc else .idle
  | _ => .idle

/-- The operation worker `i` is in is the one it has called. -/
def Pc.Fits (i : Fin n) : Pc n → Prop
  | .queue v qpc use => use.Fits i v qpc
  | _ => True

theorem Starts.fits {i : Fin n} {pc : Pc n} (h : Starts i pc) : pc.Fits i := by
  cases pc <;> first | trivial | exact h.1

theorem Starts.assertion {i : Fin n} {pc : Pc n} (h : Starts i pc) (cap : Nat) (j : Fin n) (q : Queue Task) :
    Assertion cap (i = j) q (pc.onQueue j) := by
  cases pc with
  | queue v qpc use =>
    simp only [Pc.onQueue]
    split
    · rename_i hv
      subst hv
      cases h.2 with
      | tryPush task hproducer => exact hproducer
      | _ => trivial
    · trivial
  | _ => trivial

section Reachable

variable {Client : Type*} {cap : Nat} {c : Logic.Conf (Thread n Client) (Mem n) (Pc n)}

/-- Every local queue keeps its invariant, with its worker as the only producer. -/
structure QueuesGood (cap : Nat) (c : Logic.Conf (Thread n Client) (Mem n) (Pc n)) : Prop where
  good : ∀ j, (c.mem.worker j).queue.Good cap
  fits : ∀ i, (c.pc (.worker i)).Fits i
  assertion : ∀ i j, Assertion cap (i = j) (c.mem.worker j).queue ((c.pc (.worker i)).onQueue j)

theorem QueuesGood.of_sameQueues {m : Mem n} {pcs : Thread n Client → Pc n} (h : QueuesGood cap c)
    (hsame : SameQueues c.mem m) (hpcs : ∀ i, pcs (.worker i) = c.pc (.worker i) ∨ Starts i (pcs (.worker i))) :
    QueuesGood cap ⟨m, pcs⟩ where
  good j := by
    simp only [hsame j]
    exact h.good j
  fits i := by
    rcases hpcs i with heq | hstarts
    · simp only [heq]
      exact h.fits i
    · exact hstarts.fits
  assertion i j := by
    rcases hpcs i with heq | hstarts
    · simp only [hsame j, heq]
      exact h.assertion i j
    · exact hstarts.assertion ..

variable [DecidableEq Client]

theorem QueuesGood.step_queue {i v : Fin n} {qpc : WorkStealing.Pc Task} {use : Use n} (h : QueuesGood cap c)
    (hpc : c.pc (.worker i) = .queue v qpc use)
    (hbound : (WorkStealing.step cap (c.mem.worker v).queue qpc).1.pushed.length < word) :
    QueuesGood cap ⟨c.mem.setWorker v
        { c.mem.worker v with queue := (WorkStealing.step cap (c.mem.worker v).queue qpc).1 },
      Function.update c.pc (.worker i) (.queue v (WorkStealing.step cap (c.mem.worker v).queue qpc).2 use)⟩ := by
  have hown := h.assertion i v
  have hfits := h.fits i
  simp only [hpc, Pc.onQueue, if_pos] at hown
  rw [hpc] at hfits
  obtain ⟨hgood, hassertion, hevolves⟩ := step_keeps (h.good v) hbound hown
  constructor
  · intro j
    by_cases hj : j = v
    · subst hj
      simpa only [Mem.setWorker, Function.update_self] using hgood
    · simpa only [Mem.setWorker, ne_eq, hj, not_false_eq_true, Function.update_of_ne] using h.good j
  · intro i'
    by_cases hi : i' = i
    · subst hi
      simp only [Function.update_self]
      exact hfits.step cap _
    · simpa only [ne_eq, Thread.worker.injEq, hi, not_false_eq_true, Function.update_of_ne] using h.fits i'
  · intro i' j
    by_cases hj : j = v
    · subst hj
      by_cases hi : i' = i
      · subst hi
        simpa only [Mem.setWorker, Function.update_self, Pc.onQueue, if_pos] using hassertion
      · have hother : ¬ (i = j ∧ i' = j) := fun hboth => hi (hboth.2.trans hboth.1.symm)
        simp only [Mem.setWorker, Function.update_self, ne_eq, Thread.worker.injEq, hi, not_false_eq_true,
          Function.update_of_ne]
        exact (h.assertion i' j).stable hevolves (h.good j) hother
    · by_cases hi : i' = i
      · subst hi
        simp only [Function.update_self, Pc.onQueue, if_neg (Ne.symm hj)]
        trivial
      · simpa only [Mem.setWorker, ne_eq, hj, Thread.worker.injEq, hi, not_false_eq_true, Function.update_of_ne]
          using h.assertion i' j

theorem QueuesGood.act {t : Thread n Client} {m : Mem n} {pc : Pc n} (h : QueuesGood cap c)
    (hact : Act cap t c.mem (c.pc t) m pc) (hbound : ∀ j, (m.worker j).queue.pushed.length < word) :
    QueuesGood cap ⟨m, Function.update c.pc t pc⟩ := by
  have hother : ∀ i, Thread.worker i ≠ t →
      Function.update c.pc t pc (.worker i) = c.pc (.worker i) ∨ Starts i (Function.update c.pc t pc (.worker i)) :=
    fun i hi => .inl (Function.update_of_ne hi ..)
  have hworker : ∀ {i}, t = .worker i → Starts i pc → ∀ j,
      Function.update c.pc t pc (.worker j) = c.pc (.worker j) ∨ Starts j (Function.update c.pc t pc (.worker j)) := by
    intro i ht hstarts j
    subst ht
    by_cases hj : j = i
    · subst hj
      simpa only [Function.update_self] using .inr hstarts
    · exact hother j (by simpa using hj)
  cases t with
  | client e =>
    refine h.of_sameQueues ?_ fun i => hother i nofun
    generalize c.pc (.client e) = pc₀ at hact
    cases hact with
    | step order horder => exact submitStep_sameQueues c.mem pc₀
    | submit => exact fun _ => rfl
  | stopper =>
    refine h.of_sameQueues ?_ fun i => hother i nofun
    generalize c.pc .stopper = pc₀ at hact
    cases hact with
    | step order horder => exact stopStep_sameQueues c.mem pc₀
    | stop => exact fun _ => rfl
  | worker i =>
    generalize hpc : c.pc (.worker i) = pc₀ at hact
    cases hact with
    | submitInside hint => exact h.of_sameQueues (fun _ => rfl) (hworker rfl trivial)
    | step order horder =>
      rcases workerStep_cases cap i order c.mem pc₀ with ⟨v, qpc, use, rfl, hresume⟩ | ⟨hsame, hstarts⟩
      · simp only [step, workerStep, hresume] at hbound ⊢
        refine h.step_queue hpc ?_
        simpa only [Mem.setWorker, Function.update_self] using hbound v
      · exact h.of_sameQueues hsame (hworker rfl hstarts)

theorem queuesGood_of_reachable (h : (boundedSystem cap n Client).Reachable c) : QueuesGood cap c := by
  refine h.invariant ?_ ?_
  · intro c hinit
    obtain ⟨hmem, hpcs⟩ := hinit
    constructor
    · intro j
      rw [hmem]
      exact good_empty cap
    · intro i
      rw [hpcs]
      trivial
    · intro i j
      rw [hpcs]
      trivial
  · rintro c c' - hgood ⟨⟨t, m, pc, hact, rfl⟩, hbound⟩
    exact hgood.act hact hbound

end Reachable

end Pool

end CppConcur.WorkStealing
