import CppConcur.WorkStealing.Queue
import Mathlib.Data.Nat.ModEq

/-!
# What the work-stealing queue keeps

`Queue.Good` is the invariant of the memory: the slots between `head_` and `tail_` hold exactly the
tasks pushed at these positions, and the consumers have received exactly the tasks before `head_`.
`Assertion` is what a thread knows at each step of an operation. What it read may be stale, so it
only says what the stale values mean if `head_` has not passed them: a compare-exchange that succeeds
has seen that `head_` has not.

The two lemmas the rest of the development uses are `Act.preserves`, for the thread that acts, and
`Assertion.stable`, for every other thread. They speak of one queue and one action only, so that a
program with many queues can use them for each of its queues.
-/

namespace CppConcur.WorkStealing

variable {α : Type*}

/-! ### Arithmetic of 64-bit words -/

theorem add64_eq {x y : Nat} (h : x + y < word) : add64 x y = x + y := Nat.mod_eq_of_lt h

theorem sub64_eq {x y : Nat} (hle : y ≤ x) (hx : x < word) : sub64 x y = x - y := by
  have hsum : x + (word - y) = (x - y) + word := by omega
  rw [sub64, hsum, Nat.add_mod_right]
  exact Nat.mod_eq_of_lt (by omega)

/-! ### The loop that moves the claimed tasks to the front -/

@[simp] theorem length_shift (out : List (Option α)) (offset n : Nat) : (shift out offset n).length = out.length := by
  induction n with
  | zero => rfl
  | succ n ih => rw [shift, List.length_set, ih]

theorem getElem?_shift (out : List (Option α)) (offset n j : Nat) (hfit : offset + n ≤ out.length) :
    (shift out offset n)[j]? = if j < n then out[offset + j]? else out[j]? := by
  induction n generalizing j with
  | zero => simp only [shift, Nat.not_lt_zero, if_false]
  | succ n ih =>
    have hread : (shift out offset n).getD (offset + n) none = out.getD (offset + n) none := by
      rw [List.getD_eq_getElem?_getD, ih _ (by omega), if_neg (by omega), List.getD_eq_getElem?_getD]
    rw [shift, hread, List.getElem?_set]
    by_cases hj : n = j
    · subst hj
      have hlt : offset + n < out.length := by omega
      rw [if_pos rfl, if_pos (by rw [length_shift]; omega), if_pos (Nat.lt_succ_self n), List.getD_eq_getElem?_getD,
        List.getElem?_eq_getElem hlt, Option.getD_some]
    · rw [if_neg hj, ih _ (by omega)]
      by_cases hlt : j < n
      · rw [if_pos hlt, if_pos (by omega)]
      · rw [if_neg hlt, if_neg (by omega)]

theorem take_shift (out : List (Option α)) (offset n : Nat) (hfit : offset + n ≤ out.length) :
    (shift out offset n).take n = (out.drop offset).take n := by
  apply List.ext_getElem?
  intro j
  by_cases hj : j < n
  · rw [List.getElem?_take_of_lt hj, List.getElem?_take_of_lt hj, getElem?_shift out offset n j hfit, if_pos hj,
      List.getElem?_drop]
  · rw [List.getElem?_eq_none (by rw [List.length_take]; omega), List.getElem?_eq_none (by rw [List.length_take]; omega)]

/-! ### The invariant -/

/-- The invariant of the memory of one queue. -/
structure Queue.Good (cap : Nat) (q : Queue α) : Prop where
  head_le_tail : q.head ≤ q.tail
  tail_le : q.tail ≤ q.head + cap
  tail_lt : q.tail < word
  length_pushed : q.pushed.length = q.tail
  handed_eq : q.handed = (q.pushed.take q.head).map some
  slot : ∀ j, q.head ≤ j → j < q.tail → q.buffer (j % cap) = q.pushed[j]?

/-- The first `n` entries of an output buffer are the tasks pushed from position `start` on, as far as
no consumer has claimed them. -/
def Copied (q : Queue α) (out : List (Option α)) (start n : Nat) : Prop :=
  ∀ k, k < n → q.head ≤ start + k → out[k]? = some q.pushed[start + k]?

/-- What a thread knows at each step of an operation. -/
def Assertion (cap : Nat) (isProducer : Prop) (q : Queue α) : Pc α → Prop
  | .pushLoadTail _ => isProducer
  | .pushLoadHead _ currentTail => isProducer ∧ currentTail = q.tail
  | .pushStore _ currentTail => isProducer ∧ currentTail = q.tail ∧ q.tail < q.head + cap
  | .pushBump task => isProducer ∧ q.tail < q.head + cap ∧ q.buffer (q.tail % cap) = some task
  | .popLoadTail oldHead => oldHead ≤ q.head
  | .popLoadSlot oldHead => oldHead ≤ q.head ∧ oldHead < q.tail
  | .popCas oldHead task => oldHead ≤ q.head ∧ oldHead < q.tail ∧ (q.head = oldHead → task = q.pushed[oldHead]?)
  | .grabLoadHead _ newHead => newHead ≤ q.tail
  | .grabCopy out oldHead newHead maxGrab i =>
      i < maxGrab ∧ maxGrab ≤ out.length ∧ (oldHead < newHead →
        newHead = oldHead + maxGrab ∧ newHead ≤ q.tail ∧ oldHead ≤ q.head ∧ Copied q out oldHead i)
  | .grabCas out oldHead newHead maxGrab =>
      oldHead < newHead ∧ oldHead ≤ q.head ∧ newHead ≤ q.tail ∧ maxGrab ≤ out.length ∧
        ∃ start, start ≤ oldHead ∧ newHead = start + maxGrab ∧ Copied q out start maxGrab
  | _ => True

/-- How an action changes the memory, as the other threads see it. -/
structure Evolves (isProducer : Prop) (q q' : Queue α) : Prop where
  head_le : q.head ≤ q'.head
  tail_le : q.tail ≤ q'.tail
  pushed_append : ∃ tasks, q'.pushed = q.pushed ++ tasks
  of_consumer : ¬ isProducer → q'.tail = q.tail ∧ q'.buffer = q.buffer

theorem Evolves.refl (isProducer : Prop) (q : Queue α) : Evolves isProducer q q :=
  ⟨le_rfl, le_rfl, ⟨[], (List.append_nil _).symm⟩, fun _ => ⟨rfl, rfl⟩⟩

theorem Evolves.getElem? {cap : Nat} {isProducer : Prop} {q q' : Queue α} (h : Evolves isProducer q q')
    (hgood : q.Good cap) {j : Nat} (hj : j < q.tail) : q'.pushed[j]? = q.pushed[j]? := by
  obtain ⟨tasks, htasks⟩ := h.pushed_append
  rw [htasks, List.getElem?_append_left (hgood.length_pushed ▸ hj)]

theorem Evolves.copied {cap : Nat} {isProducer : Prop} {q q' : Queue α} (h : Evolves isProducer q q')
    (hgood : q.Good cap) {out : List (Option α)} {start n : Nat} (hn : start + n ≤ q.tail)
    (hcopied : Copied q out start n) : Copied q' out start n := by
  intro k hk hhead
  rw [h.getElem? hgood (by omega)]
  exact hcopied k hk (h.head_le.trans hhead)

/-- No action of another thread interferes with what a thread knows. -/
theorem Assertion.stable {cap : Nat} {isProducer isProducer' : Prop} {q q' : Queue α}
    (h : Evolves isProducer q q') (hgood : q.Good cap) (hother : ¬ (isProducer ∧ isProducer')) {pc : Pc α}
    (hpc : Assertion cap isProducer' q pc) : Assertion cap isProducer' q' pc := by
  have hhead := h.head_le
  have htail := h.tail_le
  have hconsumer : isProducer' → q'.tail = q.tail ∧ q'.buffer = q.buffer :=
    fun hp => h.of_consumer fun hp' => hother ⟨hp', hp⟩
  cases pc with
  | pushLoadTail task => exact hpc
  | pushLoadHead task currentTail =>
    obtain ⟨hp, heq⟩ := hpc
    exact ⟨hp, heq.trans (hconsumer hp).1.symm⟩
  | pushStore task currentTail =>
    obtain ⟨hp, heq, hlt⟩ := hpc
    have hsame := (hconsumer hp).1
    exact ⟨hp, by omega, by omega⟩
  | pushBump task =>
    obtain ⟨hp, hlt, hslot⟩ := hpc
    obtain ⟨hsame, hbuffer⟩ := hconsumer hp
    refine ⟨hp, by omega, ?_⟩
    rw [hsame, hbuffer]
    exact hslot
  | popLoadTail oldHead => exact le_trans hpc hhead
  | popLoadSlot oldHead => exact ⟨hpc.1.trans hhead, hpc.2.trans_le htail⟩
  | popCas oldHead task =>
    obtain ⟨hle, hlt, htask⟩ := hpc
    refine ⟨hle.trans hhead, hlt.trans_le htail, fun heq => ?_⟩
    rw [h.getElem? hgood hlt]
    exact htask (by omega)
  | grabLoadHead out newHead => exact le_trans hpc htail
  | grabCopy out oldHead newHead maxGrab i =>
    obtain ⟨hi, hlen, hrange⟩ := hpc
    refine ⟨hi, hlen, fun hlt => ?_⟩
    obtain ⟨hnew, hnewTail, hold, hcopied⟩ := hrange hlt
    exact ⟨hnew, hnewTail.trans htail, hold.trans hhead, h.copied hgood (by omega) hcopied⟩
  | grabCas out oldHead newHead maxGrab =>
    obtain ⟨hlt, hold, hnewTail, hlen, start, hstart, hnew, hcopied⟩ := hpc
    exact ⟨hlt, hold.trans hhead, hnewTail.trans htail, hlen, start, hstart, hnew, h.copied hgood (by omega) hcopied⟩
  | _ => trivial

/-! ### What one action does -/

section Preserves

variable {cap : Nat} {isProducer : Prop} {q : Queue α}

/-- What is left to show of an action: the invariant, the thread's own assertion, and how the memory
changed. -/
def Keeps (cap : Nat) (isProducer : Prop) (q : Queue α) (next : Queue α × Pc α) : Prop :=
  next.1.Good cap ∧ Assertion cap isProducer next.1 next.2 ∧ Evolves isProducer q next.1

theorem step_of_outside {pc : Pc α} (h : pc.Outside) : step cap q pc = (q, pc) := by
  cases pc <;> first | rfl | exact h.elim

theorem keeps_of_read (hgood : q.Good cap) {pc : Pc α} (hpc : Assertion cap isProducer q pc) :
    Keeps cap isProducer q (q, pc) := ⟨hgood, hpc, .refl isProducer q⟩

theorem pushLoadHead_keeps (hgood : q.Good cap) (task : α) (currentTail : Nat)
    (hpc : Assertion cap isProducer q (.pushLoadHead task currentTail)) :
    Keeps cap isProducer q (step cap q (.pushLoadHead task currentTail)) := by
  obtain ⟨hp, rfl⟩ := hpc
  have hle := hgood.tail_le
  have hdiff := sub64_eq hgood.head_le_tail hgood.tail_lt
  simp only [step, hdiff]
  split
  · exact keeps_of_read hgood trivial
  · exact keeps_of_read hgood ⟨hp, rfl, by omega⟩

/-- Storing a task at `tail_` overwrites no slot between `head_` and `tail_`. -/
theorem pushStore_keeps (hgood : q.Good cap) (task : α) (currentTail : Nat)
    (hpc : Assertion cap isProducer q (.pushStore task currentTail)) :
    Keeps cap isProducer q (step cap q (.pushStore task currentTail)) := by
  obtain ⟨hp, rfl, hlt⟩ := hpc
  have hslot : ∀ j, q.head ≤ j → j < q.tail → j % cap ≠ q.tail % cap := by
    intro j hhead htail hmod
    have hdvd := (Nat.modEq_iff_dvd' htail.le).mp hmod
    have := Nat.le_of_dvd (by omega) hdvd
    omega
  refine ⟨⟨hgood.head_le_tail, hgood.tail_le, hgood.tail_lt, hgood.length_pushed, hgood.handed_eq, ?_⟩, ?_, ?_⟩
  · intro j hhead htail
    simp only [step, ne_eq, hslot j hhead htail, not_false_eq_true, Function.update_of_ne]
    exact hgood.slot j hhead htail
  · exact ⟨hp, hlt, Function.update_self ..⟩
  · exact ⟨le_rfl, le_rfl, ⟨[], (List.append_nil _).symm⟩, fun hnot => absurd hp hnot⟩

theorem pushBump_keeps (hgood : q.Good cap) (task : α)
    (hbound : (step cap q (.pushBump task)).1.pushed.length < word)
    (hpc : Assertion cap isProducer q (.pushBump task)) :
    Keeps cap isProducer q (step cap q (.pushBump task)) := by
  obtain ⟨hp, hlt, hslot⟩ := hpc
  have hhead := hgood.head_le_tail
  have hlength := hgood.length_pushed
  simp only [step, List.length_append, List.length_singleton] at hbound
  have htail : add64 q.tail 1 = q.tail + 1 := add64_eq (by omega)
  refine ⟨⟨?_, ?_, ?_, ?_, ?_, ?_⟩, trivial, ?_⟩
  · simp only [step, htail]; omega
  · simp only [step, htail]; omega
  · simp only [step, htail]; omega
  · simp only [step, htail, List.length_append, List.length_singleton]; omega
  · simp only [step]
    rw [List.take_append_of_le_length (by omega)]
    exact hgood.handed_eq
  · intro j hj hjt
    simp only [step, htail] at hj hjt ⊢
    by_cases hlast : j = q.tail
    · subst hlast
      rw [hslot, ← hlength, List.getElem?_concat_length]
    · rw [List.getElem?_append_left (by omega)]
      exact hgood.slot j hj (by omega)
  · refine ⟨le_rfl, ?_, ⟨[task], rfl⟩, fun hnot => absurd hp hnot⟩
    simp only [step, htail]
    omega

/-- Handing out the next tasks moves `head_` and appends these tasks to the history. -/
theorem claim_keeps (hgood : q.Good cap) (newHead : Nat) (tasks : List (Option α)) {pc : Pc α}
    (hle : q.head ≤ newHead) (hnew : newHead ≤ q.tail) (hpc : pc.Outside)
    (htasks : tasks = ((q.pushed.drop q.head).take (newHead - q.head)).map some) :
    Keeps cap isProducer q ({ q with head := newHead, handed := q.handed ++ tasks }, pc) := by
  have htail := hgood.tail_le
  refine ⟨⟨hnew, by simp only; omega, hgood.tail_lt, hgood.length_pushed, ?_, ?_⟩, ?_, ?_⟩
  · have hsum : newHead = q.head + (newHead - q.head) := by omega
    simp only
    rw [hgood.handed_eq, htasks, ← List.map_append]
    conv_rhs => rw [hsum, List.take_add]
  · intro j hj hjt
    exact hgood.slot j (hle.trans hj) hjt
  · cases pc <;> trivial
  · exact ⟨hle, le_rfl, ⟨[], (List.append_nil _).symm⟩, fun _ => ⟨rfl, rfl⟩⟩

theorem popCas_keeps (hgood : q.Good cap) (oldHead : Nat) (task : Option α)
    (hpc : Assertion cap isProducer q (.popCas oldHead task)) :
    Keeps cap isProducer q (step cap q (.popCas oldHead task)) := by
  obtain ⟨_, hlt, htask⟩ := hpc
  have htail := hgood.tail_lt
  have hlength := hgood.length_pushed
  simp only [step]
  split
  · rename_i heq
    subst heq
    rw [add64_eq (by omega)]
    refine claim_keeps hgood (q.head + 1) [task] (by omega) (by omega) trivial ?_
    have hlt' : q.head < q.pushed.length := by omega
    rw [htask rfl, Nat.add_sub_cancel_left, List.drop_eq_getElem_cons hlt', List.take_succ_cons, List.take_zero,
      List.map_singleton, List.getElem?_eq_getElem hlt']
  · exact keeps_of_read hgood le_rfl

theorem grabLoadHead_keeps (hgood : q.Good cap) (out : List (Option α)) (newHead : Nat)
    (hpc : Assertion cap isProducer q (.grabLoadHead out newHead)) :
    Keeps cap isProducer q (step cap q (.grabLoadHead out newHead)) := by
  have hpc : newHead ≤ q.tail := hpc
  have htail := hgood.tail_lt
  simp only [step]
  split
  · exact keeps_of_read hgood trivial
  · rename_i hmax
    refine keeps_of_read hgood ⟨by omega, by omega, fun hlt => ?_⟩
    -- the range is not empty, so `tail_` was loaded ahead of `head_` and the difference did not wrap
    have hahead : q.head < newHead := by omega
    have hdiff := sub64_eq hahead.le (by omega : newHead < word)
    rw [hdiff] at hlt ⊢
    have hadd : add64 q.head (min out.length (newHead - q.head)) = q.head + min out.length (newHead - q.head) :=
      add64_eq (by omega)
    rw [hadd]
    exact ⟨by omega, by omega, le_rfl, fun k hk => absurd hk (Nat.not_lt_zero k)⟩

theorem grabLoop_assertion {out : List (Option α)} {oldHead newHead maxGrab : Nat} (start : Nat)
    (hlen : maxGrab ≤ out.length)
    (hrange : oldHead < newHead → oldHead ≤ q.head ∧ newHead ≤ q.tail ∧ start ≤ oldHead ∧ newHead = start + maxGrab ∧
      Copied q out start maxGrab) :
    Assertion cap isProducer q (grabLoop out oldHead newHead maxGrab) := by
  unfold grabLoop
  split
  · rename_i hlt
    obtain ⟨hold, hnew, hstart, heq, hcopied⟩ := hrange hlt
    exact ⟨hlt, hold, hnew, hlen, start, hstart, heq, hcopied⟩
  · trivial

theorem grabCopy_keeps (hgood : q.Good cap) (out : List (Option α)) (oldHead newHead maxGrab i : Nat)
    (hpc : Assertion cap isProducer q (.grabCopy out oldHead newHead maxGrab i)) :
    Keeps cap isProducer q (step cap q (.grabCopy out oldHead newHead maxGrab i)) := by
  obtain ⟨hi, hlen, hrange⟩ := hpc
  have htail := hgood.tail_lt
  have hnext : oldHead < newHead →
      Copied q (out.set i (q.buffer (add64 oldHead i % cap))) oldHead (i + 1) := by
    intro hlt k hk hhead
    obtain ⟨hnew, hnewTail, hold, hcopied⟩ := hrange hlt
    by_cases hki : k = i
    · subst hki
      rw [List.getElem?_set_self (by omega), add64_eq (by omega), hgood.slot _ hhead (by omega)]
    · rw [List.getElem?_set_ne (by omega)]
      exact hcopied k (by omega) hhead
  simp only [step]
  split
  · rename_i hmore
    refine keeps_of_read hgood ⟨hmore, by rw [List.length_set]; exact hlen, fun hlt => ?_⟩
    obtain ⟨hnew, hnewTail, hold, _⟩ := hrange hlt
    exact ⟨hnew, hnewTail, hold, hnext hlt⟩
  · have hlast : i + 1 = maxGrab := by omega
    refine keeps_of_read hgood (grabLoop_assertion oldHead (by rw [List.length_set]; exact hlen) fun hlt => ?_)
    obtain ⟨hnew, hnewTail, hold, _⟩ := hrange hlt
    exact ⟨hold, hnewTail, le_rfl, hnew, hlast ▸ hnext hlt⟩

/-- A successful claim of `Grab` hands out the tasks it copied, less those other consumers claimed meanwhile. -/
theorem grabCas_keeps (hgood : q.Good cap) (out : List (Option α)) (oldHead newHead maxGrab : Nat)
    (hpc : Assertion cap isProducer q (.grabCas out oldHead newHead maxGrab)) :
    Keeps cap isProducer q (step cap q (.grabCas out oldHead newHead maxGrab)) := by
  obtain ⟨hlt, hold, hnewTail, hlen, start, hstart, hnew, hcopied⟩ := hpc
  have htail := hgood.tail_lt
  have hlength := hgood.length_pushed
  simp only [step]
  split
  · rename_i heq
    subst heq
    rw [sub64_eq hlt.le (by omega)]
    have hoffset : maxGrab - (newHead - q.head) = q.head - start := by omega
    rw [hoffset, take_shift out _ _ (by omega)]
    refine claim_keeps hgood newHead _ hlt.le hnewTail trivial ?_
    apply List.ext_getElem?
    intro j
    rw [List.getElem?_map]
    by_cases hj : j < newHead - q.head
    · have hsum : start + (q.head - start + j) = q.head + j := by omega
      have hlt' : q.head + j < q.pushed.length := by omega
      rw [List.getElem?_take_of_lt hj, List.getElem?_take_of_lt hj, List.getElem?_drop, List.getElem?_drop,
        hcopied _ (by omega) (by omega), hsum, List.getElem?_eq_getElem hlt', Option.map_some]
    · rw [List.getElem?_eq_none (by rw [List.length_take]; omega), List.getElem?_eq_none (by rw [List.length_take]; omega),
        Option.map_none]
  · refine keeps_of_read hgood (grabLoop_assertion start hlen fun _ => ?_)
    exact ⟨le_rfl, hnewTail, by omega, hnew, hcopied⟩

theorem step_keeps (hgood : q.Good cap) {pc : Pc α} (hbound : (step cap q pc).1.pushed.length < word)
    (hpc : Assertion cap isProducer q pc) : Keeps cap isProducer q (step cap q pc) := by
  cases pc with
  | pushLoadTail task => exact keeps_of_read hgood ⟨hpc, rfl⟩
  | pushLoadHead task currentTail => exact pushLoadHead_keeps hgood task currentTail hpc
  | pushStore task currentTail => exact pushStore_keeps hgood task currentTail hpc
  | pushBump task => exact pushBump_keeps hgood task hbound hpc
  | popLoadHead => exact keeps_of_read hgood le_rfl
  | popLoadTail oldHead =>
    have hpc : oldHead ≤ q.head := hpc
    have := hgood.head_le_tail
    simp only [step]
    split
    · exact keeps_of_read hgood trivial
    · exact keeps_of_read hgood ⟨hpc, by omega⟩
  | popLoadSlot oldHead =>
    obtain ⟨hle, hlt⟩ := hpc
    exact keeps_of_read hgood ⟨hle, hlt, fun heq => hgood.slot oldHead heq.le hlt⟩
  | popCas oldHead task => exact popCas_keeps hgood oldHead task hpc
  | grabLoadTail out => exact keeps_of_read hgood le_rfl
  | grabLoadHead out newHead => exact grabLoadHead_keeps hgood out newHead hpc
  | grabCopy out oldHead newHead maxGrab i => exact grabCopy_keeps hgood out oldHead newHead maxGrab i hpc
  | grabCas out oldHead newHead maxGrab => exact grabCas_keeps hgood out oldHead newHead maxGrab hpc
  | _ => exact keeps_of_read hgood trivial

/-- What every action of a thread keeps, and how it changes the memory. -/
theorem Act.preserves {q' : Queue α} {pc pc' : Pc α} (hgood : q.Good cap) (hpc : Assertion cap isProducer q pc)
    (hact : Act cap isProducer q pc q' pc') :
    q'.Good cap ∧ Assertion cap isProducer q' pc' ∧ Evolves isProducer q q' := by
  cases hact with
  | call _ hcall =>
    suffices hpc' : Assertion cap isProducer q pc' from keeps_of_read hgood hpc'
    cases hcall with
    | tryPush task hproducer => exact hproducer
    | _ => trivial
  | step hbound => exact step_keeps hgood hbound hpc

end Preserves

theorem good_empty (cap : Nat) : (Queue.empty : Queue α).Good cap where
  head_le_tail := le_rfl
  tail_le := Nat.zero_le _
  tail_lt := Nat.two_pow_pos 64
  length_pushed := rfl
  handed_eq := rfl
  slot := fun _ _ hj => absurd hj (Nat.not_lt_zero _)

/-! ### Every reachable state -/

variable {Tid : Type*} [DecidableEq Tid]

theorem invariant_of_reachable {cap : Nat} {producer : Tid} {c : Logic.Conf Tid (Queue α) (Pc α)}
    (h : (system cap producer).Reachable c) :
    c.mem.Good cap ∧ ∀ t, Assertion cap (t = producer) c.mem (c.pc t) := by
  refine (Logic.Program.outline (fun q (_ : Unit) => q.Good cap)
    (fun t q _ pc => Assertion cap (t = producer) q pc) ?_ ?_ h).elim fun _ hinv => hinv
  · rintro c ⟨hmem, hpc⟩
    refine ⟨(), hmem ▸ good_empty cap, fun t => ?_⟩
    rw [hpc t]
    trivial
  · intro t q _ pc q' pc' hgood hpc hact
    obtain ⟨hgood', hpc', hevolves⟩ := hact.preserves hgood hpc
    refine ⟨(), hgood', hpc', fun u hu k hk => ?_⟩
    exact hk.stable hevolves hgood fun hboth => hu (hboth.2.trans hboth.1.symm)

/-- In every reachable state of one producer and any consumers the counters stay within the capacity
of each other, and the tasks handed out are exactly the first tasks pushed, in push order. -/
theorem handed_prefix_of_pushed (cap : Nat) (producer : Tid) (c : Logic.Conf Tid (Queue α) (Pc α))
    (hreach : (system cap producer).Reachable c) :
    c.mem.head ≤ c.mem.tail ∧ c.mem.tail ≤ c.mem.head + cap ∧ c.mem.handed <+: c.mem.pushed.map some := by
  have hgood := (invariant_of_reachable hreach).1
  refine ⟨hgood.head_le_tail, hgood.tail_le, ?_⟩
  rw [hgood.handed_eq]
  exact (List.take_prefix _ _).map some

/-- One push and one pop through a queue with a single slot. -/
theorem handed_prefix_of_pushed_single : ∃ c : Logic.Conf Nat (Queue Nat) (Pc Nat),
    (system 1 0).Reachable c ∧ c.mem.handed = [some 7] ∧
      c.mem.head ≤ c.mem.tail ∧ c.mem.tail ≤ c.mem.head + 1 ∧ c.mem.handed <+: c.mem.pushed.map some := by
  have hinit : (system 1 0).Reachable (⟨Queue.empty, fun _ => .idle⟩ : Logic.Conf Nat (Queue Nat) (Pc Nat)) :=
    .init ⟨rfl, fun _ => rfl⟩
  have hpush := hinit.step ⟨0, _, _, .call trivial (.tryPush 7 rfl), rfl⟩
  have hloadTail := hpush.step ⟨0, _, _, .step (by decide), rfl⟩
  have hloadHead := hloadTail.step ⟨0, _, _, .step (by decide), rfl⟩
  have hstore := hloadHead.step ⟨0, _, _, .step (by decide), rfl⟩
  have hbump := hstore.step ⟨0, _, _, .step (by decide), rfl⟩
  have hpop := hbump.step ⟨1, _, _, .call trivial .tryPop, rfl⟩
  have hpopHead := hpop.step ⟨1, _, _, .step (by decide), rfl⟩
  have hpopTail := hpopHead.step ⟨1, _, _, .step (by decide), rfl⟩
  have hpopSlot := hpopTail.step ⟨1, _, _, .step (by decide), rfl⟩
  have hpopCas := hpopSlot.step ⟨1, _, _, .step (by decide), rfl⟩
  exact ⟨_, hpopCas, rfl, handed_prefix_of_pushed 1 0 _ hpopCas⟩

end CppConcur.WorkStealing
