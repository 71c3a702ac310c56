import CppConcur.WorkStealing.PoolWakeup

/-!
# Stealing never overflows

A thief grabs at most half the capacity of a local queue, keeps one of the stolen tasks and pushes the others to its own
queue, which it has found empty. Other threads only take tasks from that queue, so every push finds room, and the branch
of `TryStealTasks` that aborts is never reached. The span that `StealTasks` and `OffloadTasksToGlobalQueue` give to `Grab`
is half of `task_buffer`, and `Grab` stays inside the span.
-/

namespace CppConcur.WorkStealing

/-! ### The output buffer of `Grab` -/

section Grab

variable {α : Type*} {cap : Nat} {isProducer : Prop} {q : Queue α} {pc : Pc α}

/-- The output buffer of a `Grab`. -/
def Pc.out : Pc α → List (Option α)
  | .grabLoadTail out => out
  | .grabLoadHead out _ => out
  | .grabCopy out _ _ _ _ => out
  | .grabCas out _ _ _ => out
  | .grabRet out _ => out
  | _ => []

/-- The entries of the output buffer that the next step writes. -/
def Pc.writes (q : Queue α) : Pc α → List Nat
  | .grabCopy _ _ _ _ i => [i]
  | .grabCas _ oldHead newHead _ => if q.head = oldHead then List.range (sub64 newHead oldHead) else []
  | _ => []

/-- No more tasks are returned than the output buffer holds. -/
def Pc.Filled : Pc α → Prop
  | .grabRet out grabbed => grabbed ≤ out.length
  | _ => True

theorem out_grabLoop (out : List (Option α)) (oldHead newHead maxGrab : Nat) :
    (grabLoop out oldHead newHead maxGrab).out = out := by
  unfold grabLoop
  split <;> rfl

theorem filled_grabLoop (out : List (Option α)) (oldHead newHead maxGrab : Nat) :
    (grabLoop out oldHead newHead maxGrab).Filled := by
  unfold grabLoop
  split <;> trivial

theorem length_out_step (cap : Nat) (q : Queue α) (h : pc.Grabbing) : (step cap q pc).2.out.length = pc.out.length := by
  cases pc with
  | grabLoadHead out newHead =>
    simp only [step]
    split <;> rfl
  | grabCopy out oldHead newHead maxGrab i =>
    simp only [step]
    split
    · simp only [Pc.out, List.length_set]
    · rw [out_grabLoop, List.length_set]
      rfl
  | grabCas out oldHead newHead maxGrab =>
    simp only [step]
    split
    · simp only [Pc.out, length_shift]
    · rw [out_grabLoop]
      rfl
  | grabLoadTail out => rfl
  | grabRet out grabbed => rfl
  | _ => exact h.elim

/-- A claim is no longer than the range that was copied. -/
theorem claim_le (hgood : q.Good cap) {out : List (Option α)} {oldHead newHead maxGrab : Nat}
    (hpc : Assertion cap isProducer q (.grabCas out oldHead newHead maxGrab)) : sub64 newHead oldHead ≤ out.length := by
  obtain ⟨hlt, -, hnew, hlen, start, hstart, heq, -⟩ := hpc
  have htail := hgood.tail_lt
  rw [sub64_eq hlt.le (by omega)]
  omega

theorem filled_step (hgood : q.Good cap) (hpc : Assertion cap isProducer q pc) (hfilled : pc.Filled) :
    (step cap q pc).2.Filled := by
  cases pc with
  | grabLoadHead out newHead =>
    simp only [step]
    split
    · exact Nat.zero_le _
    · trivial
  | grabCopy out oldHead newHead maxGrab i =>
    simp only [step]
    split
    · trivial
    · exact filled_grabLoop ..
  | grabCas out oldHead newHead maxGrab =>
    simp only [step]
    split
    · simp only [Pc.Filled, length_shift]
      exact claim_le hgood hpc
    · exact filled_grabLoop ..
  | grabRet out grabbed => exact hfilled
  | pushLoadHead task currentTail =>
    simp only [step]
    split <;> trivial
  | popLoadTail oldHead =>
    simp only [step]
    split <;> trivial
  | popCas oldHead task =>
    simp only [step]
    split <;> trivial
  | _ => trivial

/-- `Grab` writes only inside the span it is given. -/
theorem lt_length_of_writes (hgood : q.Good cap) (hpc : Assertion cap isProducer q pc) {k : Nat} (hk : k ∈ pc.writes q) :
    k < pc.out.length := by
  cases pc with
  | grabCopy out oldHead newHead maxGrab i =>
    obtain ⟨hi, hlen, -⟩ := hpc
    obtain rfl := List.mem_singleton.1 hk
    exact hi.trans_le hlen
  | grabCas out oldHead newHead maxGrab =>
    have hle := claim_le hgood hpc
    simp only [Pc.writes] at hk
    split at hk
    · exact (List.mem_range.1 hk).trans_le hle
    · cases hk
  | _ => cases hk

end Grab

namespace Pool

variable {n : Nat}

/-! ### Room for the stolen tasks -/

/-- What a worker needs of its own queue and of the buffer for what it is doing. -/
def Use.Room (cap : Nat) (own : Queue Task) : Use n → WorkStealing.Pc Task → Prop
  | .offload _ _, qpc => qpc.out.length ≤ cap / 2 ∧ qpc.Filled
  | .grab _ _, qpc => qpc.out.length ≤ cap / 2 ∧ qpc.Filled
  | .keep _ _ _ rest, .pushRet ok => ok = true ∧ own.tail - own.head + rest.length + 1 ≤ cap / 2
  | .keep _ _ _ rest, _ => own.tail - own.head + rest.length + 2 ≤ cap / 2
  | _, _ => True

def Pc.Room (cap : Nat) (own : Queue Task) : Pc n → Prop
  | .queue _ qpc use => use.Room cap own qpc
  | .aborted _ _ => False
  | _ => True

/-- A worker outside of the queues' operations, or in one that has no requirement. -/
def Pc.Light : Pc n → Prop
  | .queue _ _ (.pick _) => True
  | .queue _ _ (.push _ _) => True
  | .queue _ _ (.size _ _) => True
  | .queue _ _ _ => False
  | .aborted _ _ => False
  | _ => True

section Room

variable {cap : Nat} {i v : Fin n} {own : Queue Task} {pc : Pc n} {use : Use n} {qpc : WorkStealing.Pc Task}

theorem Pc.Light.room (h : pc.Light) : pc.Room cap own := by
  cases pc with
  | queue v qpc use => cases use <;> trivial
  | aborted attempt tasks => exact h
  | _ => trivial

theorem light_stealNext (attempt : Attempt) (rest : List (Fin n)) : (stealNext attempt rest).Light := by
  cases rest with
  | nil => cases attempt <;> trivial
  | cons v rest => trivial

theorem light_stealFound (attempt : Attempt) (task : Task) : (stealFound attempt task : Pc n).Light := by
  cases attempt <;> trivial

/-- A worker gets to a demanding operation only when another one has returned. -/
theorem light_workerStep (cap : Nat) (i : Fin n) (order : List (Fin n)) (m : Mem n)
    (hpc : ∀ v qpc use, pc ≠ .queue v qpc use)
    (habort : ∀ attempt tasks, pc ≠ .aborted attempt tasks) : (workerStep cap i order m pc).2.Light := by
  cases pc with
  | queue v qpc use => exact absurd rfl (hpc v qpc use)
  | aborted attempt tasks => exact absurd rfl (habort attempt tasks)
  | push current task hint =>
    cases hint with
    | next =>
      simp only [workerStep]
      split <;> trivial
    | _ => trivial
  | spin => exact light_stealNext .first (victims i order)
  | recheck old =>
    simp only [workerStep]
    split
    · exact light_stealNext (.final old) (victims i order)
    · trivial
  | _ =>
    simp only [workerStep, stopStep, submitStep, pickFirst, wakeNext, submitDone, stopNext, joinNext]
    repeat' split
    all_goals trivial

theorem Use.Room.mono {own' : Queue Task} (h : use.Room cap own qpc)
    (hle : own'.tail - own'.head ≤ own.tail - own.head) : use.Room cap own' qpc := by
  cases use with
  | keep attempt stolen task rest =>
    cases qpc with
    | pushRet ok =>
      obtain ⟨hok, hroom⟩ := h
      exact ⟨hok, by omega⟩
    | _ =>
      simp only [Use.Room] at h ⊢
      omega
  | _ => exact h

theorem Pc.Room.mono {own' : Queue Task} (h : pc.Room cap own) (hle : own'.tail - own'.head ≤ own.tail - own.head) :
    pc.Room cap own' := by
  cases pc with
  | queue v qpc use => exact Use.Room.mono h hle
  | _ => exact h

theorem keepRest_room {attempt : Attempt} {stolen : Task} {rest : List Task}
    (hroom : own.tail - own.head + rest.length + 1 ≤ cap / 2) : (keepRest i attempt stolen rest).Room cap own := by
  cases rest with
  | nil => exact (light_stealFound attempt stolen).room
  | cons task rest =>
    simp only [List.length_cons] at hroom
    change own.tail - own.head + rest.length + 2 ≤ cap / 2
    omega

/-- The stolen tasks fit into the empty queue of the thief. -/
theorem stolenTasks_room {attempt : Attempt} {rest : List (Fin n)} {tasks : List Task} (hempty : own.IsEmpty)
    (hlength : tasks.length ≤ cap / 2) : (stolenTasks i attempt rest tasks).Room cap own := by
  unfold stolenTasks
  split
  · exact (light_stealNext attempt rest).room
  · rename_i stolen hlast
    have hne : tasks ≠ [] := by
      rintro rfl
      cases hlast
    have hpos := List.length_pos_iff.2 hne
    apply keepRest_room
    rw [hempty, Nat.sub_self, List.length_dropLast]
    omega

theorem length_grabbedTasks_le (out : List (Option Task)) (grabbed : Nat) : (grabbedTasks out grabbed).length ≤ grabbed := by
  have hreduce := List.reduceOption_length_le (out.take grabbed)
  have htake := List.length_take_le grabbed out
  exact hreduce.trans htake

/-- When an operation returns, the next one has what it needs. -/
theorem Resumed.room (h : Resumed cap i v use qpc pc) (hroom : use.Room cap own qpc)
    (hempty : 2 ≤ use.emptied qpc → own.IsEmpty) : pc.Room cap own := by
  cases h with
  | overflow current task => exact ⟨by simp only [Pc.out, List.length_replicate, le_refl], trivial⟩
  | sizeZero attempt rest size => exact (light_stealNext attempt rest).room
  | sizePos attempt rest size =>
    refine ⟨?_, trivial⟩
    simp only [Pc.out, List.length_replicate, stealCount]
    exact min_le_right _ _
  | grab attempt rest out grabbed =>
    obtain ⟨hlength, hfilled⟩ := hroom
    apply stolenTasks_room (hempty le_rfl)
    exact (length_grabbedTasks_le out grabbed).trans (le_trans hfilled hlength)
  | kept attempt stolen task rest => exact keepRest_room hroom.2
  | aborted attempt stolen task rest => cases hroom.1
  | _ => trivial

/-- A push of a stolen task finds room, and leaves room for the rest. -/
theorem Use.Room.step_keep {attempt : Attempt} {stolen task : Task} {rest : List Task} {isProducer : Prop}
    (hroom : (Use.keep attempt stolen task rest : Use n).Room cap own qpc) (hgood : own.Good cap)
    (hassertion : Assertion cap isProducer own qpc) (hbound : (WorkStealing.step cap own qpc).1.pushed.length < word)
    (hpushing : qpc.Pushing task) (hout : ¬ qpc.Outside) :
    (Use.keep attempt stolen task rest : Use n).Room cap (WorkStealing.step cap own qpc).1
      (WorkStealing.step cap own qpc).2 := by
  have hhead := hgood.head_le_tail
  cases qpc with
  | pushLoadTail task => exact hroom
  | pushLoadHead task currentTail =>
    have hroom : own.tail - own.head + rest.length + 2 ≤ cap / 2 := hroom
    obtain ⟨-, rfl⟩ := hassertion
    simp only [WorkStealing.step, sub64_eq hhead hgood.tail_lt]
    rw [if_neg (by omega)]
    exact hroom
  | pushStore task currentTail => exact hroom
  | pushBump task =>
    have hroom : own.tail - own.head + rest.length + 2 ≤ cap / 2 := hroom
    have hlength := hgood.length_pushed
    simp only [WorkStealing.step, List.length_append, List.length_singleton] at hbound
    refine ⟨rfl, ?_⟩
    simp only [WorkStealing.step, add64_eq (by omega : own.tail + 1 < word)]
    omega
  | pushRet ok => exact absurd trivial hout
  | _ => exact hpushing.elim

/-- A step of the operation a worker is in keeps what it needs. -/
theorem Use.Room.step {q : Queue Task} (hroom : use.Room cap own qpc) (hfits : use.Fits i v qpc) (hown : v = i → own = q)
    (hgood : q.Good cap) (hassertion : Assertion cap (i = v) q qpc) (hresume : resume cap i v use qpc = none)
    (hbound : (WorkStealing.step cap q qpc).1.pushed.length < word) :
    use.Room cap (if v = i then (WorkStealing.step cap q qpc).1 else own) (WorkStealing.step cap q qpc).2 := by
  cases use with
  | offload current task =>
    obtain ⟨hlength, hfilled⟩ := hroom
    exact ⟨(length_out_step cap q hfits.2).trans_le hlength, filled_step hgood hassertion hfilled⟩
  | grab attempt rest =>
    obtain ⟨hlength, hfilled⟩ := hroom
    exact ⟨(length_out_step cap q hfits).trans_le hlength, filled_step hgood hassertion hfilled⟩
  | keep attempt stolen task rest =>
    obtain ⟨rfl, hpushing⟩ := hfits
    obtain rfl := hown rfl
    have hout : ¬ qpc.Outside := by
      intro hout
      cases qpc with
      | pushRet ok => cases ok <;> cases hresume
      | idle => exact hpushing
      | popRet task => exact hpushing
      | grabRet out grabbed => exact hpushing
      | sizeRet size => exact hpushing
      | _ => exact hout
    rw [if_pos rfl]
    exact hroom.step_keep hgood hassertion hbound hpushing hout
  | _ => trivial

end Room

/-! ### Every reachable state -/

section Reachable

variable {Client : Type*} {cap : Nat} {c : Logic.Conf (Thread n Client) (Mem n) (Pc n)}

/-- Every worker has what it needs of its own queue and of the buffer. -/
def Roomy (cap : Nat) (c : Logic.Conf (Thread n Client) (Mem n) (Pc n)) : Prop :=
  ∀ i, (c.pc (.worker i)).Room cap (c.mem.worker i).queue

/-- A worker does not fill the queue of another one. -/
theorem QueuesGood.size_step_le {i j : Fin n} {order : List (Fin n)} (h : QueuesGood cap c) (hne : j ≠ i)
    (hbound : ∀ j, ((workerStep cap i order c.mem (c.pc (.worker i))).1.worker j).queue.pushed.length < word) :
    ((workerStep cap i order c.mem (c.pc (.worker i))).1.worker j).queue.tail -
        ((workerStep cap i order c.mem (c.pc (.worker i))).1.worker j).queue.head ≤
      (c.mem.worker j).queue.tail - (c.mem.worker j).queue.head := by
  have hassertion := h.assertion i j
  generalize c.pc (.worker i) = pc at hassertion hbound ⊢
  rcases workerStep_cases cap i order c.mem pc with ⟨v, qpc, use, rfl, hresume⟩ | ⟨hsame, _⟩
  · by_cases hv : j = v
    · subst hv
      have hboundj := hbound j
      simp only [workerStep, hresume, Mem.setWorker, Function.update_self, Pc.onQueue, if_pos] at hassertion hboundj ⊢
      obtain ⟨-, -, hevolves⟩ := step_keeps (h.good j) hboundj hassertion
      have htail := (hevolves.of_consumer (Ne.symm hne)).1
      have hhead := hevolves.head_le
      omega
    · simp only [workerStep, hresume, Mem.setWorker, ne_eq, hv, not_false_eq_true, Function.update_of_ne, le_refl]
  · rw [hsame j]

/-- The acting worker's own requirement. -/
theorem Roomy.own_step {i : Fin n} {order : List (Fin n)} (h : Roomy cap c) (hgood : QueuesGood cap c) (hdry : Dry c)
    (hbound : ∀ j, ((workerStep cap i order c.mem (c.pc (.worker i))).1.worker j).queue.pushed.length < word) :
    (workerStep cap i order c.mem (c.pc (.worker i))).2.Room cap
      ((workerStep cap i order c.mem (c.pc (.worker i))).1.worker i).queue := by
  have hroom := h i
  have hfits := hgood.fits i
  have hassertion := hgood.assertion i
  have hempty := hdry.queue i
  generalize c.pc (.worker i) = pc at hroom hfits hassertion hempty hbound ⊢
  by_cases hqueue : ∃ v qpc use, pc = .queue v qpc use
  · obtain ⟨v, qpc, use, rfl⟩ := hqueue
    cases hresume : resume cap i v use qpc with
    | some pc' =>
      simp only [workerStep, hresume]
      exact (resumed_of_resume hresume).room hroom hempty
    | none =>
      have hassertionv := hassertion v
      have hboundv := hbound v
      simp only [workerStep, hresume, Mem.setWorker, Function.update_self, Pc.onQueue, if_pos] at hassertionv hboundv
      have hstep := hroom.step hfits (fun hv => by rw [hv]) (hgood.good v) hassertionv hresume hboundv
      simp only [workerStep, hresume, Mem.setWorker]
      by_cases hv : v = i
      · subst hv
        simpa only [Function.update_self, if_pos, Pc.Room] using hstep
      · simpa only [ne_eq, Ne.symm hv, not_false_eq_true, Function.update_of_ne, if_neg hv, Pc.Room] using hstep
  · refine (light_workerStep cap i order c.mem (fun v qpc use heq => hqueue ⟨v, qpc, use, heq⟩) ?_).room
    rintro attempt tasks rfl
    exact hroom

variable [DecidableEq Client]

theorem Roomy.worker_step {i : Fin n} {order : List (Fin n)} (h : Roomy cap c) (hgood : QueuesGood cap c) (hdry : Dry c)
    (hbound : ∀ j, ((workerStep cap i order c.mem (c.pc (.worker i))).1.worker j).queue.pushed.length < word) :
    Roomy cap ⟨(workerStep cap i order c.mem (c.pc (.worker i))).1,
      Function.update c.pc (.worker i) (workerStep cap i order c.mem (c.pc (.worker i))).2⟩ := by
  intro j
  by_cases hj : j = i
  · subst hj
    simpa only [Function.update_self] using h.own_step hgood hdry hbound
  · simp only [ne_eq, Thread.worker.injEq, hj, not_false_eq_true, Function.update_of_ne]
    exact (h j).mono (hgood.size_step_le hj hbound)

omit [DecidableEq Client] in
theorem Roomy.of_same {m : Mem n} {pcs : Thread n Client → Pc n} (h : Roomy cap c) (hsame : SameQueues c.mem m)
    (hpcs : ∀ i, pcs (.worker i) = c.pc (.worker i) ∨ (pcs (.worker i)).Light) : Roomy cap ⟨m, pcs⟩ := by
  intro i
  simp only [hsame i]
  rcases hpcs i with heq | hlight
  · rw [heq]
    exact h i
  · exact hlight.room

theorem Roomy.act {t : Thread n Client} {m : Mem n} {pc : Pc n} (h : Roomy cap c) (hgood : QueuesGood cap c) (hdry : Dry c)
    (hact : Act cap t c.mem (c.pc t) m pc) (hbound : ∀ j, (m.worker j).queue.pushed.length < word) :
    Roomy cap ⟨m, Function.update c.pc t pc⟩ := by
  generalize hpc : c.pc t = pc₀ at hact
  cases t with
  | client e =>
    cases hact with
    | submit => exact h.of_same (fun _ => rfl) fun _ => .inl rfl
    | step order horder => exact h.of_same (submitStep_sameQueues c.mem pc₀) fun _ => .inl rfl
  | stopper =>
    cases hact with
    | stop => exact h.of_same (fun _ => rfl) fun _ => .inl rfl
    | step order horder => exact h.of_same (stopStep_sameQueues c.mem pc₀) fun _ => .inl rfl
  | worker i =>
    cases hact with
    | submitInside hint =>
      refine h.of_same (fun _ => rfl) fun j => ?_
      by_cases hj : j = i
      · subst hj
        rw [Function.update_self]
        exact .inr trivial
      · exact .inl (Function.update_of_ne (by simpa using hj) ..)
    | step order horder =>
      subst hpc
      exact h.worker_step hgood hdry hbound

theorem roomy_of_reachable (h : (boundedSystem cap n Client).Reachable c) : Roomy cap c := by
  refine h.invariant ?_ ?_
  · intro c hinit i
    rw [hinit.2]
    trivial
  · rintro c c' hreach hroomy ⟨⟨t, m, pc, hact, rfl⟩, hbound⟩
    exact hroomy.act (queuesGood_of_reachable hreach) (dry_of_reachable hreach) hact hbound

/-- About to call `TryStealTasks`, or in it and without a stolen task yet. -/
def Pc.Stealing : Pc n → Prop
  | .spin => True
  | .recheck _ => True
  | .queue _ _ (.size _ _) => True
  | .queue _ _ (.grab _ _) => True
  | _ => False

theorem Pc.Stealing.emptied {pc : Pc n} (h : pc.Stealing) : pc.emptied = 2 := by
  cases pc with
  | queue v qpc use => cases use <;> first | rfl | exact h.elim
  | _ => first | rfl | exact h.elim

/-- The entries of the buffer that a `Grab` of the pool writes. -/
theorem writes_lt {i v : Fin n} {qpc : WorkStealing.Pc Task} {use : Use n} (h : (boundedSystem cap n Client).Reachable c)
    (hpc : c.pc (.worker i) = .queue v qpc use) : ∀ k ∈ qpc.writes (c.mem.worker v).queue, k < qpc.out.length := by
  have hgood := queuesGood_of_reachable h
  have hassertion := hgood.assertion i v
  simp only [hpc, Pc.onQueue, if_pos] at hassertion
  exact fun k hk => lt_length_of_writes (hgood.good v) hassertion hk

/-- With fewer than `2^64` pushes to each local queue: a worker that steals has an empty queue, the pushes of the stolen
tasks succeed, `StealTasks` stays inside its span, which is half of the buffer, and so does
`OffloadTasksToGlobalQueue` inside the buffer. -/
theorem stealing_never_overflows (hcap : 1 ≤ cap) (h : (boundedSystem cap n Client).Reachable c) (i : Fin n) :
    ((c.pc (.worker i)).Stealing → (c.mem.worker i).queue.IsEmpty) ∧
    (∀ v attempt stolen task rest, c.pc (.worker i) ≠ .queue v (.pushRet false) (.keep attempt stolen task rest)) ∧
    (∀ attempt tasks, c.pc (.worker i) ≠ .aborted attempt tasks) ∧
    (∀ v qpc attempt rest, c.pc (.worker i) = .queue v qpc (.grab attempt rest) →
      qpc.out.length ≤ cap / 2 ∧ ∀ k ∈ qpc.writes (c.mem.worker v).queue, k < qpc.out.length) ∧
    ∀ v qpc current task, c.pc (.worker i) = .queue v qpc (.offload current task) →
      (∀ k ∈ qpc.writes (c.mem.worker v).queue, k < cap) ∧ ∀ out grabbed, qpc = .grabRet out grabbed → grabbed < cap := by
  have hroom := roomy_of_reachable h i
  refine ⟨?_, ?_, ?_, ?_, ?_⟩
  · intro hstealing
    exact (dry_of_reachable h).queue i hstealing.emptied.ge
  · intro v attempt stolen task rest hpc
    rw [hpc] at hroom
    cases hroom.1
  · intro attempt tasks hpc
    rwa [hpc] at hroom
  · intro v qpc attempt rest hpc
    have hwrites := writes_lt h hpc
    rw [hpc] at hroom
    exact ⟨hroom.1, hwrites⟩
  · intro v qpc current task hpc
    have hwrites := writes_lt h hpc
    rw [hpc] at hroom
    obtain ⟨hlength, hfilled⟩ := hroom
    have hhalf : cap / 2 < cap := Nat.div_lt_self hcap Nat.one_lt_two
    refine ⟨fun k hk => (hwrites k hk).trans (hlength.trans_lt hhalf), ?_⟩
    rintro out grabbed rfl
    exact (hfilled.trans hlength).trans_lt hhalf

/-- A worker without tasks is about to steal. -/
theorem stealing_never_overflows_spin : ∃ c, 1 ≤ 7 ∧ (boundedSystem 7 1 Unit).Reachable c ∧ c.pc (.worker 0) = .spin ∧
    (c.mem.worker 0).queue.IsEmpty := by
  have hadmits : Admits 7 (boundedSystem 7 1 Unit) FewPushed := admits_boundedSystem 7
  have h0 : (boundedSystem 7 1 Unit).Reachable ⟨.start 1, solo .loop (fun _ => .idle) .idle⟩ :=
    .init ⟨rfl, fun t => by cases t <;> rfl⟩
  have h1 := h0.steps (hadmits.steps_worker (k := 6) _ _ rfl fun _ hj => pushed_run_lt 7 _ rfl (by decide) hj)
  exact ⟨_, by decide, h1, rfl, (stealing_never_overflows (by decide) h1 0).1 trivial⟩

/-! ### When the counters wrap -/

section Laps

variable {i : Fin n} {k : Nat} {m : Mem n} (pcs : Thread n Client → Pc n)

omit [DecidableEq Client] in
/-- Worker `i` runs a task, after `k` tasks have been pushed to its queue and popped again, while another worker looks for
tasks. -/
structure Lapping (i : Fin n) (k : Nat) (m : Mem n) : Prop where
  head : (m.worker i).queue.head = k % word
  tail : (m.worker i).queue.tail = k % word
  running : (m.worker i).stop = false
  lifo : (m.worker i).lifo = none
  global : m.global = []
  spinning : m.nSpinning ≠ 0

theorem admits_system (cap : Nat) : Admits cap (system cap n Client) fun _ => True := fun _ _ hstep _ _ => hstep

/-- A worker takes some steps alone. -/
theorem steps_of_run {order : List (Fin n)} (horder : order.Perm ((List.finRange n).take (n - 1))) {j : Nat} {m' : Mem n}
    {pc pc' : Pc n} (hrun : run cap order (.worker i : Thread n Client) j (m, pc) = (m', pc')) :
    (system cap n Client).Steps ⟨m, Function.update pcs (.worker i) pc⟩ ⟨m', Function.update pcs (.worker i) pc'⟩ := by
  have hsteps := (admits_system cap).steps horder (.worker i) pcs j (m, pc) fun _ _ => trivial
  rwa [hrun] at hsteps

/-- The memory after a running task has submitted another one to the local queue. -/
def pushLocal (cap : Nat) (i : Fin n) (m : Mem n) : Mem n :=
  { m.setWorker i { m.worker i with queue := afterPush cap (m.worker i).queue m.submitted } with
    submitted := m.submitted + 1 }

theorem pushLocal_worker (cap : Nat) (i : Fin n) (m : Mem n) :
    (pushLocal cap i m).worker i = { m.worker i with queue := afterPush cap (m.worker i).queue m.submitted } :=
  Function.update_self ..

theorem Lapping.push (h : Lapping i k m) (hcap : cap ≠ 0) {order : List (Fin n)}
    (horder : order.Perm ((List.finRange n).take (n - 1))) (current : Task) :
    (system cap n Client).Steps ⟨m, Function.update pcs (.worker i) (.running current)⟩
      ⟨pushLocal cap i m, Function.update pcs (.worker i) (.running current)⟩ := by
  have hroom : sub64 (m.worker i).queue.tail (m.worker i).queue.head ≠ cap := by
    rw [h.head, h.tail, sub64_self (Nat.mod_lt _ (Nat.two_pow_pos 64))]
    exact hcap.symm
  have hact : Act cap (.worker i : Thread n Client) m (.running current) _ _ := .submitInside .upToYou
  have hcall := (admits_system cap).act hact pcs trivial trivial
  have hrun : run cap order (.worker i : Thread n Client) 7
      ({ m with submitted := m.submitted + 1 }, .push current m.submitted .upToYou) =
      (pushLocal cap i m, .running current) := by
    rw [run_add cap order _ 6 1, run_pushQueue (m := { m with submitted := m.submitted + 1 }) current m.submitted hroom]
    simp [run_succ, step, workerStep, submitStep, submitDone, Mem.setWorker, pushLocal, h.spinning]
  exact .trans (.tail .refl hcall) (steps_of_run pcs horder hrun)

/-- The task it submitted is the next one the worker runs. -/
theorem Lapping.round (h : Lapping i k m) (hcap : cap ≠ 0) {order : List (Fin n)}
    (horder : order.Perm ((List.finRange n).take (n - 1))) (current : Task) :
    ∃ m' task, Lapping i (k + 1) m' ∧
      (system cap n Client).Steps ⟨m, Function.update pcs (.worker i) (.running current)⟩
        ⟨m', Function.update pcs (.worker i) (.running task)⟩ := by
  have hnext : add64 (k % word) 1 = (k + 1) % word := Nat.mod_add_mod k word 1
  have hmoves : (k + 1) % word ≠ k % word := by
    unfold word
    omega
  have hqueue : ((pushLocal cap i m).worker i).queue = afterPush cap (m.worker i).queue m.submitted := by
    rw [pushLocal_worker]
  have hne : ((pushLocal cap i m).worker i).queue.tail ≠ ((pushLocal cap i m).worker i).queue.head := by
    simp only [hqueue, afterPush, h.head, h.tail, hnext]
    exact hmoves
  have hslot : ((pushLocal cap i m).worker i).queue.buffer (((pushLocal cap i m).worker i).queue.head % cap) =
      some m.submitted := by
    simp only [hqueue, afterPush, h.head, h.tail, Function.update_self]
  obtain ⟨j, hrun⟩ : ∃ j, run cap order (.worker i : Thread n Client) j (pushLocal cap i m, .running current) = _ :=
    exists_run_popQueue current m.submitted (by rw [pushLocal_worker]; exact h.running)
      (by rw [pushLocal_worker]; exact h.lifo) h.global hne hslot
  refine ⟨_, _, ?_, (h.push pcs hcap horder current).trans (steps_of_run pcs horder hrun)⟩
  constructor
  · simp only [Mem.setWorker, Function.update_self, hqueue, afterPush, h.head, hnext]
  · simp only [Mem.setWorker, Function.update_self, hqueue, afterPush, h.tail, hnext]
  · simp only [Mem.setWorker, Function.update_self, pushLocal_worker, h.running]
  · simp only [Mem.setWorker, Function.update_self, pushLocal_worker, h.lifo]
  · exact h.global
  · exact h.spinning

theorem Lapping.rounds (h : Lapping i k m) (hcap : cap ≠ 0) {order : List (Fin n)}
    (horder : order.Perm ((List.finRange n).take (n - 1))) (current : Task) (j : Nat) :
    ∃ m' task, Lapping i (k + j) m' ∧
      (system cap n Client).Steps ⟨m, Function.update pcs (.worker i) (.running current)⟩
        ⟨m', Function.update pcs (.worker i) (.running task)⟩ := by
  induction j with
  | zero => exact ⟨m, current, h, .refl⟩
  | succ j ih =>
    obtain ⟨m', task, hlapping, hsteps⟩ := ih
    obtain ⟨m'', task', hlapping', hround⟩ := hlapping.round pcs hcap horder task
    exact ⟨m'', task', hlapping', hsteps.trans hround⟩

end Laps

theorem reachable_run {m : Mem n} {pcs : Thread n Client → Pc n} {order : List (Fin n)}
    (h : (system cap n Client).Reachable ⟨m, pcs⟩) (horder : order.Perm ((List.finRange n).take (n - 1)))
    (t : Thread n Client) (k : Nat) :
    (system cap n Client).Reachable
      ⟨(run cap order t k (m, pcs t)).1, Function.update pcs t (run cap order t k (m, pcs t)).2⟩ := by
  have hsteps := (admits_system cap).steps horder t pcs k (m, pcs t) fun _ _ => trivial
  rw [Function.update_eq_self] at hsteps
  exact h.steps hsteps

/-- A worker runs a task that has submitted another one, and a thief has copied that one and not claimed it yet. -/
theorem thief_reachable : ∃ (m : Mem 2) (pcs : Thread 2 Unit → Pc 2), Lapping 0 1 m ∧
    pcs (.worker 1) = .queue 0 (.grabCas [some 1] 0 1 1) (.grab .first []) ∧
    (system 7 2 Unit).Reachable ⟨m, Function.update pcs (.worker 0) (.running 1)⟩ := by
  have horder : [(0 : Fin 2)].Perm ((List.finRange 2).take (2 - 1)) := .refl _
  have h0 : (system 7 2 Unit).Reachable ⟨.start 2, Thread.start⟩ := .init ⟨rfl, fun _ => rfl⟩
  have h1 := reachable_run (h0.step ⟨.client (), _, _, .submit, rfl⟩) horder (.client ()) 3
  have h2 := reachable_run h1 horder (.worker 0) 7
  have h3 := reachable_run (h2.step ⟨.worker 0, _, _, .submitInside .upToYou, rfl⟩) horder (.worker 0) 8
  have h4 := reachable_run h3 horder (.worker 1) 13
  have h5 := reachable_run h4 horder (.worker 0) 9
  refine ⟨_, _, ⟨rfl, rfl, rfl, rfl, rfl, ?_⟩, ?_, h5⟩
  · decide
  · rfl

/-- After `2^64` pushes and pops `head_` is back at the value the thief has loaded. Its compare-exchange succeeds while the
worker steals itself, and moves `head_` past `tail_` in the empty queue. -/
theorem stealing_overtaken : ∃ c, (system 7 2 Unit).Reachable c ∧ (c.pc (.worker 0)).Stealing ∧
    ¬ (c.mem.worker 0).queue.IsEmpty := by
  have horder : [(0 : Fin 2)].Perm ((List.finRange 2).take (2 - 1)) := .refl _
  obtain ⟨m, pcs, hlapping, hthief, hreach⟩ := thief_reachable
  obtain ⟨m', task, hlap, hrounds⟩ := hlapping.rounds pcs (by decide : 7 ≠ 0) horder 1 (word - 1)
  have hhead : (m'.worker 0).queue.head = 0 := hlap.head.trans (by decide)
  have htail : (m'.worker 0).queue.tail = 0 := hlap.tail.trans (by decide)
  obtain ⟨j, hrun⟩ : ∃ j, run 7 [0] (.worker 0 : Thread 2 Unit) j (m', .running task) = _ :=
    exists_run_spin task hlap.running hlap.lifo hlap.global (htail.trans hhead.symm)
  have hspin := (hreach.steps hrounds).steps (steps_of_run pcs horder hrun)
  have hsteal := hspin.step ⟨.worker 0, _, _, .step [0] horder, rfl⟩
  have hclaim := hsteal.step ⟨.worker 1, _, _, .step [0] horder, rfl⟩
  refine ⟨_, hclaim, ?_, ?_⟩
  · simp [step, workerStep, stealNext, victims, Pc.Stealing]
  · simp [step, workerStep, stealNext, victims, hthief, resume, WorkStealing.step, Mem.setWorker, hhead, htail, Queue.IsEmpty]

end Reachable

end Pool

end CppConcur.WorkStealing
