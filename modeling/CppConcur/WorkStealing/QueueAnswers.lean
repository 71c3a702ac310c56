import CppConcur.Logic.Phase
import CppConcur.WorkStealing.QueueInvariant

/-!
# The answers of the work-stealing queue

When an operation answers that the queue is full or empty, was it so at some instant of the call? `TryPush` and `TryPop`
compare the two counters when one of them is known to be current. `Grab` loads `tail_` before `head_`: if a task is pushed
between the two loads, `head_` may since have reached the old `tail_` although the queue has never been empty, and `Grab`
takes this for an empty queue, while it starts over if `head_` has gone further than that.
-/

namespace CppConcur.WorkStealing

variable {α : Type*}

/-- The queue holds no task. -/
def Queue.IsEmpty (q : Queue α) : Prop := q.head = q.tail

/-- The tasks in the queue: pushed, and not handed out yet. -/
def Queue.waiting (q : Queue α) : List α := q.pushed.drop q.handed.length

theorem Queue.Good.length_waiting {cap : Nat} {q : Queue α} (hgood : q.Good cap) : q.waiting.length = q.tail - q.head := by
  have hle := hgood.head_le_tail
  have hlength := hgood.length_pushed
  have hhanded : q.handed.length = q.head := by rw [hgood.handed_eq, List.length_map, List.length_take]; omega
  rw [Queue.waiting, List.length_drop, hlength, hhanded]

theorem Queue.Good.waiting_eq_nil {cap : Nat} {q : Queue α} (hgood : q.Good cap) (hempty : q.IsEmpty) : q.waiting = [] := by
  rw [← List.length_eq_zero_iff, hgood.length_waiting, hempty, Nat.sub_self]

/-! ### The step that gives an answer -/

theorem eq_of_sub64_eq_zero {x y : Nat} (hx : x < word) (hy : y < word) (h : sub64 x y = 0) : x = y := by
  rcases Nat.le_total y x with hle | hle
  · rw [sub64_eq hle hx] at h
    omega
  · rcases Nat.eq_or_lt_of_le hle with heq | hlt
    · exact heq
    · rw [sub64, Nat.mod_eq_of_lt (by omega)] at h
      omega

section Answers

variable {cap : Nat} {isProducer : Prop} {q : Queue α} {pc : Pc α}

theorem tail_step (cap : Nat) (q : Queue α) (pc : Pc α) :
    (step cap q pc).1.tail = q.tail ∨ ∃ task, pc = .pushBump task := by
  cases pc with
  | pushBump task => exact .inr ⟨task, rfl⟩
  | _ =>
    left
    simp only [step]
    repeat' split
    all_goals rfl

/-- The operations of the queue. -/
inductive Operation where
  | tryPush
  | tryPop
  | grab
  | sizeEstimate

/-- The operation a thread is in, or whose answer it has. -/
def Pc.operation : Pc α → Option Operation
  | .idle => none
  | .pushLoadTail _ | .pushLoadHead _ _ | .pushStore _ _ | .pushBump _ | .pushRet _ => some .tryPush
  | .popLoadHead | .popLoadTail _ | .popLoadSlot _ | .popCas _ _ | .popRet _ => some .tryPop
  | .grabLoadTail _ | .grabLoadHead _ _ | .grabCopy _ _ _ _ _ | .grabCas _ _ _ _ | .grabRet _ _ => some .grab
  | .sizeLoadHead | .sizeLoadTail _ | .sizeRet _ => some .sizeEstimate

theorem operation_step (cap : Nat) (q : Queue α) (pc : Pc α) : (step cap q pc).2.operation = pc.operation := by
  cases pc with
  | grabCopy out oldHead newHead maxGrab i | grabCas out oldHead newHead maxGrab =>
    simp only [step, grabLoop]
    repeat' split
    all_goals rfl
  | pushLoadHead | popLoadTail | popCas | grabLoadHead =>
    simp only [step]
    split <;> rfl
  | _ => rfl

/-- An answer belongs to the operation that the step is one of. -/
theorem operation_of_step {ret : Pc α} (hret : (step cap q pc).2 = ret) : pc.operation = ret.operation := by
  rw [← hret, operation_step]

/-- `TryPop` returns nothing only after it has seen the queue empty. -/
theorem isEmpty_of_popRet (hgood : q.Good cap)
    (hpc : Assertion cap isProducer q pc) (hout : ¬ pc.Outside) (hret : (step cap q pc).2 = .popRet none) :
    q.IsEmpty ∧ (step cap q pc).1 = q := by
  have hop := operation_of_step hret
  cases pc with
  | popLoadHead | popLoadSlot => cases hret
  | popLoadTail oldHead =>
    have hle : oldHead ≤ q.head := hpc
    have hhead := hgood.head_le_tail
    simp only [step] at hret ⊢
    split at hret
    · rename_i htail
      rw [if_pos htail]
      exact ⟨le_antisymm hhead (htail.trans_le hle), rfl⟩
    · cases hret
  | popCas oldHead task =>
    obtain ⟨_, hlt, htask⟩ := hpc
    simp only [step] at hret
    split at hret
    · rename_i hhead
      have hlt' : oldHead < q.pushed.length := hgood.length_pushed ▸ hlt
      simp only [htask hhead, List.getElem?_eq_getElem hlt'] at hret
      cases hret
    · cases hret
  | popRet task => exact absurd trivial hout
  | _ => cases hop

/-- `TryPush` returns false only when it sees the queue full. -/
theorem full_of_pushRet (hgood : q.Good cap) (hpc : Assertion cap isProducer q pc) (hout : ¬ pc.Outside)
    (hret : (step cap q pc).2 = .pushRet false) : q.tail - q.head = cap ∧ (step cap q pc).1 = q := by
  have hop := operation_of_step hret
  cases pc with
  | pushLoadTail | pushStore | pushBump => cases hret
  | pushLoadHead task currentTail =>
    obtain ⟨-, rfl⟩ := hpc
    have hdiff := sub64_eq hgood.head_le_tail hgood.tail_lt
    simp only [step] at hret ⊢
    split at hret
    · rename_i hfull
      rw [if_pos hfull]
      exact ⟨hdiff.symm.trans hfull, rfl⟩
    · cases hret
  | pushRet ok => exact absurd trivial hout
  | _ => cases hop

/-- `Grab` returns 0 only when it sees `head_` at the value of `tail_` it has loaded. -/
theorem loaded_of_grabRet {out : List (Option α)} (hgood : q.Good cap) (hpc : Assertion cap isProducer q pc)
    (hout : ¬ pc.Outside) (hne : out ≠ []) (hret : (step cap q pc).2 = .grabRet out 0) :
    pc = .grabLoadHead out q.head ∧ (step cap q pc).1 = q := by
  have hop := operation_of_step hret
  cases pc with
  | grabLoadTail => cases hret
  | grabLoadHead buffer newHead =>
    have hle : newHead ≤ q.tail := hpc
    have htail := hgood.tail_lt
    have hhead := hgood.head_le_tail
    simp only [step] at hret ⊢
    split at hret
    · rename_i hmax
      cases hret
      have hlength : out.length ≠ 0 := List.length_eq_zero_iff.not.2 hne
      have hsame : newHead = q.head := eq_of_sub64_eq_zero (by omega) (by omega) (by omega)
      rw [if_pos hmax, hsame]
      exact ⟨rfl, rfl⟩
    · cases hret
  | grabCopy buffer oldHead newHead maxGrab i =>
    simp only [step, grabLoop] at hret
    repeat' split at hret
    all_goals cases hret
  | grabCas buffer oldHead newHead maxGrab =>
    obtain ⟨hlt, -, hnew, -⟩ := hpc
    have htail := hgood.tail_lt
    simp only [step, grabLoop, sub64_eq hlt.le (by omega : newHead < word)] at hret
    split at hret
    · have hzero : newHead - oldHead = 0 := (Pc.grabRet.inj hret).2
      omega
    · split at hret <;> cases hret
  | grabRet buffer grabbed => exact absurd trivial hout
  | _ => cases hop

/-- `Grab` loads `tail_` first. -/
theorem tail_of_grabLoadHead {out : List (Option α)} {newHead : Nat} (hret : (step cap q pc).2 = .grabLoadHead out newHead) :
    newHead = q.tail ∧ (step cap q pc).1 = q := by
  have hop := operation_of_step hret
  cases pc with
  | grabLoadTail buffer =>
    cases hret
    exact ⟨rfl, rfl⟩
  | grabCopy | grabCas =>
    simp only [step, grabLoop] at hret
    repeat' split at hret
    all_goals cases hret
  | grabLoadHead =>
    simp only [step] at hret
    split at hret <;> cases hret
  | grabRet => cases hret
  | _ => cases hop

/-- No step but the last one of `TryPush` puts a task into an empty queue. -/
theorem Queue.IsEmpty.step (hempty : q.IsEmpty)
    (hgood : q.Good cap) (hbound : (step cap q pc).1.pushed.length < word) (hpc : Assertion cap isProducer q pc)
    (hpush : ∀ task, pc ≠ .pushBump task) : (WorkStealing.step cap q pc).1.IsEmpty := by
  obtain ⟨hgood', _, hevolves⟩ := step_keeps hgood hbound hpc
  have htail : (WorkStealing.step cap q pc).1.tail = q.tail := by
    rcases tail_step cap q pc with hsame | ⟨task, heq⟩
    · exact hsame
    · exact absurd heq (hpush task)
  have hhead := hevolves.head_le
  have hle := hgood'.head_le_tail
  unfold Queue.IsEmpty at hempty ⊢
  omega

end Answers

/-! ### The instants of a call -/

open Logic

variable {Tid : Type*} [DecidableEq Tid]

/-- A thread starts an operation. -/
def Calls (t : Tid) (c c' : Conf Tid (Queue α) (Pc α)) : Prop := (c.pc t).Outside ∧ ¬ (c'.pc t).Outside

/-- A thread is in an operation. -/
def InCall (t : Tid) (c : Conf Tid (Queue α) (Pc α)) : Prop := ¬ (c.pc t).Outside

/-- The queue at the instants of a call of thread `t`, from its start to this state. -/
abbrev CallOf (S : Logic.System (Conf Tid (Queue α) (Pc α))) (t : Tid) :
    List (Queue α) → Conf Tid (Queue α) (Pc α) → Prop :=
  S.Since (fun _ c' => [c'.mem]) (Calls t) (InCall t)

/-- No task is pushed to a queue that is not empty while a `Grab` is between its loads of `tail_` and `head_`. -/
def Calm (c c' : Conf Tid (Queue α) (Pc α)) : Prop :=
  ∀ t out, c.pc t = .grabLoadHead out c.mem.tail → c.mem.head ≠ c.mem.tail → c'.mem.tail = c.mem.tail

/-- The runs in which the loads of `Grab` are not separated by such a push. -/
def calmSystem (cap : Nat) (producer : Tid) : Logic.System (Conf Tid (Queue α) (Pc α)) :=
  (system cap producer).restrict Calm

section Calls

variable {cap : Nat} {producer t : Tid} {instants : List (Queue α)} {c : Conf Tid (Queue α) (Pc α)}

/-- What the answers of `TryPush` and `TryPop` say about the instants of the call. -/
def Answered (cap : Nat) (instants : List (Queue α)) : Pc α → Prop
  | .pushRet false => ∃ q ∈ instants, q.waiting.length = cap
  | .popRet none => ∃ q ∈ instants, q.waiting = []
  | _ => True

theorem answered_of_inside {pc : Pc α} (h : ¬ pc.Outside) : Answered cap instants pc := by
  cases pc <;> first | trivial | exact absurd trivial h

theorem answered_step {q : Queue α} {pc : Pc α} {isProducer : Prop} (hgood : q.Good cap)
    (hpc : Assertion cap isProducer q pc) (hout : ¬ pc.Outside) :
    Answered cap [(step cap q pc).1] (step cap q pc).2 := by
  generalize hret : (step cap q pc).2 = ret
  cases ret with
  | pushRet ok =>
    cases ok with
    | true => trivial
    | false =>
      obtain ⟨hfull, hsame⟩ := full_of_pushRet hgood hpc hout hret
      exact ⟨_, List.mem_singleton_self _, by rw [hsame, hgood.length_waiting, hfull]⟩
  | popRet task =>
    cases task with
    | some task => trivial
    | none =>
      obtain ⟨hempty, hsame⟩ := isEmpty_of_popRet hgood hpc hout hret
      exact ⟨_, List.mem_singleton_self _, by rw [hsame, hgood.waiting_eq_nil hempty]⟩
  | _ => trivial

theorem Answered.append {pc : Pc α} (h : Answered cap instants pc) (earlier : List (Queue α)) :
    Answered cap (earlier ++ instants) pc := by
  cases pc with
  | pushRet ok =>
    cases ok with
    | true => trivial
    | false =>
      obtain ⟨q, hq, hfull⟩ := h
      exact ⟨q, List.mem_append_right _ hq, hfull⟩
  | popRet task =>
    cases task with
    | some task => trivial
    | none =>
      obtain ⟨q, hq, hempty⟩ := h
      exact ⟨q, List.mem_append_right _ hq, hempty⟩
  | _ => trivial

theorem answered_of_call (h : CallOf (system cap producer) t instants c) : Answered cap instants (c.pc t) := by
  refine h.invariant (P := fun instants c => Answered cap instants (c.pc t)) ?_ ?_
  · intro c c' hreach hstep hcalls
    exact answered_of_inside hcalls.2
  · rintro seen c c' hreach - hinside ⟨u, q, pc, hact, rfl⟩
    by_cases hu : t = u
    · subst hu
      obtain ⟨hgood, hassertion⟩ := invariant_of_reachable hreach
      simp only [Function.update_self]
      cases hact with
      | call hout hcall => exact absurd hout hinside
      | step hbound => exact (answered_step hgood (hassertion t) hinside).append seen
    · simp only [ne_eq, hu, not_false_eq_true, Function.update_of_ne]
      exact answered_of_inside hinside

/-- What `Grab` knows of the instants of the call after its first load, and what its answer 0 says about them. -/
def GrabAnswered (instants : List (Queue α)) (tail : Nat) : Pc α → Prop
  | .grabLoadHead _ newHead => newHead = tail ∨ ∃ q ∈ instants, q.waiting = []
  | .grabRet out 0 => out ≠ [] → ∃ q ∈ instants, q.waiting = []
  | _ => True

theorem grabAnswered_step {q : Queue α} {pc : Pc α} {isProducer : Prop} (hgood : q.Good cap)
    (hpc : Assertion cap isProducer q pc) (hout : ¬ pc.Outside) (hnow : q ∈ instants)
    (h : GrabAnswered instants q.tail pc) :
    GrabAnswered instants (step cap q pc).1.tail (step cap q pc).2 := by
  generalize hret : (step cap q pc).2 = ret
  cases ret with
  | grabLoadHead out newHead =>
    obtain ⟨htail, hsame⟩ := tail_of_grabLoadHead hret
    exact .inl (by rw [htail, hsame])
  | grabRet out grabbed =>
    cases grabbed with
    | succ grabbed => trivial
    | zero =>
      intro hne
      obtain ⟨rfl, -⟩ := loaded_of_grabRet hgood hpc hout hne hret
      -- nothing was pushed since the first load, so both counters are as the loads have seen them
      rcases h with hempty | hempty
      · exact ⟨q, hnow, hgood.waiting_eq_nil hempty⟩
      · exact hempty
  | _ => trivial

/-- A push by another thread is seen to come to an empty queue. -/
theorem GrabAnswered.stable {pc : Pc α} {tail tail' : Nat} (h : GrabAnswered instants tail pc) (later : List (Queue α))
    (hcalm : ∀ out, pc = .grabLoadHead out tail → tail' = tail ∨ ∃ q ∈ instants, q.waiting = []) :
    GrabAnswered (instants ++ later) tail' pc := by
  have hmono : (∃ q ∈ instants, q.waiting = []) → ∃ q ∈ instants ++ later, q.waiting = [] := by
    rintro ⟨q, hq, hempty⟩
    exact ⟨q, List.mem_append_left _ hq, hempty⟩
  cases pc with
  | grabLoadHead out newHead =>
    rcases h with rfl | hempty
    · rcases hcalm out rfl with rfl | hempty
      · exact .inl rfl
      · exact .inr (hmono hempty)
    · exact .inr (hmono hempty)
  | grabRet out grabbed =>
    cases grabbed with
    | zero => exact fun hne => hmono (h hne)
    | succ grabbed => trivial
  | _ => trivial

theorem grabAnswered_of_call (h : CallOf (calmSystem cap producer) t instants c) :
    c.mem ∈ instants ∧ GrabAnswered instants c.mem.tail (c.pc t) := by
  refine h.invariant (P := fun instants c => c.mem ∈ instants ∧ GrabAnswered instants c.mem.tail (c.pc t)) ?_ ?_
  · rintro c c' - ⟨⟨u, q, pc, hact, rfl⟩, -⟩ ⟨hout, hin⟩
    refine ⟨List.mem_singleton_self _, ?_⟩
    by_cases hu : t = u
    · subst hu
      simp only [Function.update_self] at hin ⊢
      cases hact with
      | call _ hcall => cases hcall <;> trivial
      | step hbound =>
        rw [step_of_outside hout] at hin
        exact absurd hout hin
    · simp only [ne_eq, hu, not_false_eq_true, Function.update_of_ne] at hin
      exact absurd hout hin
  · rintro seen c c' hreach ⟨hnow, hseen⟩ hinside ⟨⟨u, q, pc, hact, rfl⟩, hcalm⟩
    refine ⟨List.mem_append_right _ (List.mem_singleton_self _), ?_⟩
    obtain ⟨hgood, hassertion⟩ := invariant_of_reachable hreach.of_restrict
    by_cases hu : t = u
    · subst hu
      simp only [Function.update_self]
      cases hact with
      | call hout hcall => exact absurd hout hinside
      | step hbound =>
        have hanswered := grabAnswered_step hgood (hassertion t) hinside hnow hseen
        exact hanswered.stable _ fun _ _ => .inl rfl
    · simp only [ne_eq, hu, not_false_eq_true, Function.update_of_ne]
      refine hseen.stable _ fun out hpc => ?_
      by_cases hempty : c.mem.head = c.mem.tail
      · exact .inr ⟨c.mem, hnow, hgood.waiting_eq_nil hempty⟩
      · exact .inl (hcalm t out hpc hempty)

end Calls

/-- `TryPush` returns false and `TryPop` returns nothing only if the queue was full, or empty, at some instant of the
call; and so does `Grab` in the runs in which no push separates its loads. -/
theorem answers_justified (cap : Nat) (producer t : Tid) :
    (∀ (instants : List (Queue α)) (c : Conf Tid (Queue α) (Pc α)), CallOf (system cap producer) t instants c →
      (c.pc t = .pushRet false → ∃ q ∈ instants, q.waiting.length = cap) ∧
      (c.pc t = .popRet none → ∃ q ∈ instants, q.waiting = [])) ∧
    ∀ (instants : List (Queue α)) (c : Conf Tid (Queue α) (Pc α)), CallOf (calmSystem cap producer) t instants c →
      ∀ out, out ≠ [] → c.pc t = .grabRet out 0 → ∃ q ∈ instants, q.waiting = [] := by
  constructor
  · intro instants c hcall
    have hanswered := answered_of_call hcall
    constructor
    · intro hret
      rwa [hret] at hanswered
    · intro hret
      rwa [hret] at hanswered
  · intro instants c hcall out hne hret
    have hanswered := (grabAnswered_of_call hcall).2
    rw [hret] at hanswered
    exact hanswered hne

/-- A thief finds an empty queue empty. -/
theorem answers_justified_empty : ∃ (instants : List (Queue Nat)) (c : Conf Nat (Queue Nat) (Pc Nat)),
    CallOf (calmSystem 1 0) 1 instants c ∧ c.pc 1 = .grabRet [none] 0 ∧ ∃ q ∈ instants, q.waiting = [] := by
  have hinit : (calmSystem 1 0).Reachable (⟨Queue.empty, fun _ => .idle⟩ : Conf Nat (Queue Nat) (Pc Nat)) :=
    .init ⟨rfl, fun _ => rfl⟩
  have hcall : CallOf (calmSystem 1 0) 1 _ _ :=
    .enter hinit ⟨⟨1, _, _, .call trivial (.grab [none]), rfl⟩, fun _ _ _ _ => rfl⟩ ⟨trivial, id⟩
  have hloadTail := hcall.step id ⟨⟨1, _, _, .step (by decide), rfl⟩, fun _ _ _ _ => rfl⟩
  have hloadHead := hloadTail.step id ⟨⟨1, _, _, .step (by decide), rfl⟩, fun _ _ _ _ => rfl⟩
  exact ⟨_, _, hloadHead, rfl, (answers_justified 1 0 1).2 _ _ hloadHead [none] (by decide) rfl⟩

/-- Between the two loads of a `Grab` the producer pushes a second task and takes the first: `Grab` returns 0 although the
queue holds a task at every instant of the call. -/
theorem grab_zero_of_loaded : ∃ (instants : List (Queue Nat)) (c : Conf Nat (Queue Nat) (Pc Nat)),
    CallOf (system 2 0) 1 instants c ∧ c.pc 1 = .grabRet [none] 0 ∧ ∀ q ∈ instants, q.waiting ≠ [] := by
  have hinit : (system 2 0).Reachable (⟨Queue.empty, fun _ => .idle⟩ : Conf Nat (Queue Nat) (Pc Nat)) :=
    .init ⟨rfl, fun _ => rfl⟩
  have hpush := hinit.step ⟨0, _, _, .call trivial (.tryPush 7 rfl), rfl⟩
  have hpushTail := hpush.step ⟨0, _, _, .step (by decide), rfl⟩
  have hpushHead := hpushTail.step ⟨0, _, _, .step (by decide), rfl⟩
  have hpushStore := hpushHead.step ⟨0, _, _, .step (by decide), rfl⟩
  have hpushBump := hpushStore.step ⟨0, _, _, .step (by decide), rfl⟩
  have hgrab : CallOf (system 2 0) 1 _ _ :=
    .enter hpushBump ⟨1, _, _, .call trivial (.grab [none]), rfl⟩ ⟨trivial, id⟩
  have hgrabTail := hgrab.step id ⟨1, _, _, .step (by decide), rfl⟩
  have hagain := hgrabTail.step id ⟨0, _, _, .call trivial (.tryPush 8 rfl), rfl⟩
  have hagainTail := hagain.step id ⟨0, _, _, .step (by decide), rfl⟩
  have hagainHead := hagainTail.step id ⟨0, _, _, .step (by decide), rfl⟩
  have hagainStore := hagainHead.step id ⟨0, _, _, .step (by decide), rfl⟩
  have hagainBump := hagainStore.step id ⟨0, _, _, .step (by decide), rfl⟩
  have hpop := hagainBump.step id ⟨0, _, _, .call trivial .tryPop, rfl⟩
  have hpopHead := hpop.step id ⟨0, _, _, .step (by decide), rfl⟩
  have hpopTail := hpopHead.step id ⟨0, _, _, .step (by decide), rfl⟩
  have hpopSlot := hpopTail.step id ⟨0, _, _, .step (by decide), rfl⟩
  have hpopCas := hpopSlot.step id ⟨0, _, _, .step (by decide), rfl⟩
  have hgrabHead := hpopCas.step id ⟨1, _, _, .step (by decide), rfl⟩
  exact ⟨_, _, hgrabHead, rfl, by decide⟩

end CppConcur.WorkStealing
