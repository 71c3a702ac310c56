import CppConcur.Compute.Pool
import CppConcur.Logic.Count

/-!
# The blocking queue under its mutex

The thread that holds the mutex is the one inside a critical section. What such a thread contributes
to an invariant in the middle of its critical section is read off its place by `inside`.

`waiters_` counts the workers in the loop of `CV.wait`. A worker that sleeps without a notification is
paid for: as long as there is one, the tasks in the queue and the sleeping workers together are no
more than the workers in `Pop` that have passed the first line, one more being allowed between a
`PushBack` and its `notify_one`.
-/

namespace CppConcur.Compute

variable {n : Nat} {Client : Type*}

/-! ### The mutex -/

/-- The places inside a critical section. -/
def Pc.Critical : Pc n → Prop
  | .pushBody _ _ => True
  | .pushNotify _ => True
  | .pushUnlock _ => True
  | .popEnter => True
  | .popTest => True
  | .popTake => True
  | .popUnlock _ => True
  | .crashed => True
  | .closeSet => True
  | .closeNotify => True
  | .closeUnlock => True
  | _ => False

theorem not_critical_submitDone (current : Option Task) : ¬ (submitDone current : Pc n).Critical := by
  cases current <;> exact id

theorem not_critical_joinNext (j : Nat) : ¬ (joinNext j : Pc n).Critical := by
  unfold joinNext
  split <;> exact id

theorem critical_afterPush (waiters : Int) (current : Option Task) :
    (if 0 < waiters then .pushNotify current else .pushUnlock current : Pc n).Critical := by
  split <;> trivial

/-- What an action does to the mutex. -/
inductive LockMove (t : Thread n Client) (m : Mem n Client) (pc : Pc n) (m' : Mem n Client) (pc' : Pc n) : Prop
  | inside (hbefore : pc.Critical) (hafter : pc'.Critical) (hsame : m'.mutex = m.mutex)
  | outside (hbefore : ¬ pc.Critical) (hafter : ¬ pc'.Critical) (hsame : m'.mutex = m.mutex)
  | acquire (hbefore : ¬ pc.Critical) (hafter : pc'.Critical) (hfree : m.mutex = none) (htaken : m'.mutex = some t)
  | release (hbefore : pc.Critical) (hafter : ¬ pc'.Critical) (hfreed : m'.mutex = none)

theorem Act.lockMove {t : Thread n Client} {m m' : Mem n Client} {pc pc' : Pc n} (hact : Act t m pc m' pc') :
    LockMove t m pc m' pc' := by
  cases hact with
  | pushBack hopen => exact .inside trivial (critical_afterPush _ _) rfl
  | pushUnlock => exact .release trivial (not_critical_submitDone _) rfl
  | closeUnlock => exact .release trivial (not_critical_joinNext _) rfl
  | join hexited => exact .outside id (not_critical_joinNext _) rfl
  | pushLock hfree => exact .acquire id trivial hfree rfl
  | popLock hfree => exact .acquire id trivial hfree rfl
  | relock hfree => exact .acquire id trivial hfree rfl
  | closeLock hfree => exact .acquire id trivial hfree rfl
  | popWait hempty hopen => exact .release trivial id rfl
  | run => exact .release trivial id rfl
  | exit => exact .release trivial id rfl
  | call => exact .outside id id rfl
  | callInside => exact .outside id id rfl
  | wake hnotified => exact .outside id id rfl
  | wakeSpuriously => exact .outside id id rfl
  | finish => exact .outside id id rfl
  | stop => exact .outside id id rfl
  | _ => exact .inside trivial trivial rfl

/-! ### What an action does to the workers in `Pop` -/

/-- A worker in the loop of `CV.wait`. -/
def Pc.waiting : Pc n → Nat
  | .popTest => 1
  | .blocked => 1
  | .relock => 1
  | _ => 0

/-- A worker in `Pop` that has incremented `waiters_` and has not taken its result yet. -/
def Pc.active : Pc n → Nat
  | .popTest => 1
  | .blocked => 1
  | .relock => 1
  | .popTake => 1
  | _ => 0

/-- The notification between a `PushBack` and its `notify_one`. -/
def Pc.notifying : Pc n → Nat
  | .pushNotify _ => 1
  | _ => 0

section Places

variable (current : Option Task) (waiters : Int) (j : Nat)

@[simp] theorem waiting_submitDone : (submitDone current : Pc n).waiting = 0 := by
  cases current <;> rfl

@[simp] theorem active_submitDone : (submitDone current : Pc n).active = 0 := by
  cases current <;> rfl

@[simp] theorem notifying_submitDone : (submitDone current : Pc n).notifying = 0 := by
  cases current <;> rfl

@[simp] theorem waiting_joinNext : (joinNext j : Pc n).waiting = 0 := by
  unfold joinNext
  split <;> rfl

@[simp] theorem active_joinNext : (joinNext j : Pc n).active = 0 := by
  unfold joinNext
  split <;> rfl

@[simp] theorem notifying_joinNext : (joinNext j : Pc n).notifying = 0 := by
  unfold joinNext
  split <;> rfl

theorem notifying_of_not_critical (pc : Pc n) (h : ¬ pc.Critical) : pc.notifying = 0 := by
  cases pc with
  | pushNotify current => exact absurd trivial h
  | _ => rfl

end Places

section Actions

variable {t : Thread n Client} {m m' : Mem n Client} {pc pc' : Pc n}

theorem Act.waiters (hact : Act t m pc m' pc') :
    m'.waiters + pc.waiting = m.waiters + pc'.waiting ∧ ((∀ i, t ≠ .worker i) → pc'.waiting = pc.waiting) := by
  cases hact with
  | popEnter =>
    refine ⟨?_, fun ht => absurd rfl (ht _)⟩
    simp only [Pc.waiting]
    omega
  | popReady hready =>
    refine ⟨?_, fun ht => absurd rfl (ht _)⟩
    simp only [Pc.waiting]
    omega
  | pushBack hopen => split <;> exact ⟨rfl, fun _ => rfl⟩
  | pushUnlock =>
    rw [waiting_submitDone]
    exact ⟨rfl, fun _ => rfl⟩
  | closeUnlock =>
    rw [waiting_joinNext]
    exact ⟨rfl, fun _ => rfl⟩
  | join hexited =>
    rw [waiting_joinNext]
    exact ⟨rfl, fun _ => rfl⟩
  | _ => exact ⟨rfl, fun _ => rfl⟩

theorem Act.active_other (hact : Act t m pc m' pc') (ht : ∀ i, t ≠ .worker i) : pc'.active = pc.active := by
  cases hact with
  | popEnter => exact absurd rfl (ht _)
  | popNull hclosed hempty => exact absurd rfl (ht _)
  | popFront hqueue => exact absurd rfl (ht _)
  | popFrontEmpty hopen hempty => exact absurd rfl (ht _)
  | pushBack hopen => split <;> rfl
  | pushUnlock => exact active_submitDone _
  | closeUnlock => exact active_joinNext _
  | join hexited => exact active_joinNext _
  | _ => rfl

/-- A worker falls asleep only in `CV.wait`, and leaves it awake. -/
theorem Act.asleep (hact : Act t m pc m' pc') {i : Fin n} (hi : m'.sleeping i = true) :
    m.sleeping i = true ∧ (t = .worker i → pc ≠ .blocked) ∨ t = .worker i ∧ pc' = .blocked := by
  cases hact with
  | notifyOne v hsleeping =>
    left
    by_cases hv : i = v
    · subst hv
      simp only [Function.update_self, Bool.false_eq_true] at hi
    · simp only [ne_eq, hv, not_false_eq_true, Function.update_of_ne] at hi
      exact ⟨hi, fun _ => nofun⟩
  | @popWait j _ hempty hopen =>
    by_cases hj : i = j
    · subst hj
      exact .inr ⟨rfl, rfl⟩
    · simp only [ne_eq, hj, not_false_eq_true, Function.update_of_ne] at hi
      exact .inl ⟨hi, fun _ => nofun⟩
  | @wake j _ hnotified =>
    left
    refine ⟨hi, fun heq => ?_⟩
    cases heq
    rw [hnotified] at hi
    cases hi
  | @wakeSpuriously j =>
    left
    by_cases hj : i = j
    · subst hj
      simp only [Function.update_self, Bool.false_eq_true] at hi
    · simp only [ne_eq, hj, not_false_eq_true, Function.update_of_ne] at hi
      exact ⟨hi, fun heq => absurd (Thread.worker.inj heq).symm hj⟩
  | notifyAll => cases hi
  | _ => exact .inl ⟨hi, fun _ => nofun⟩

/-- What an action does to the balance between the queue, the sleeping workers and the active ones. -/
theorem Act.paid (hact : Act t m pc m' pc') (hwaiters : m.waiters ≤ 0 → ∀ i, m.sleeping i = false)
    (hawake : ∀ i, t = .worker i → pc ≠ .blocked → m.sleeping i = false) :
    (∀ i, m'.sleeping i = false) ∨ m'.queue = [] ∨
      ((∃ i, m'.sleeping i = true) → ∃ i, m.sleeping i = true) ∧
        m'.queue.length + ∑ i, (m'.sleeping i).toNat + pc.active + pc.notifying ≤
          m.queue.length + ∑ i, (m.sleeping i).toNat + pc'.active + pc'.notifying := by
  cases hact with
  | pushBack hopen =>
    split
    · right; right
      refine ⟨id, ?_⟩
      simp only [List.length_append, List.length_singleton, Pc.active, Pc.notifying]
      omega
    · exact .inl (hwaiters (by omega))
  | notifyOne v hsleeping =>
    right; right
    refine ⟨fun _ => ⟨v, hsleeping⟩, ?_⟩
    have hsum := Logic.sum_update_add Bool.toNat m.sleeping v false
    simp only [hsleeping, Bool.toNat_true, Bool.toNat_false] at hsum
    simp only [Pc.active, Pc.notifying]
    omega
  | notifyNone hnone => exact .inl hnone
  | notifyAll => exact .inl fun _ => rfl
  | popWait hempty hopen => exact .inr (.inl hempty)
  | popNull hclosed hempty => exact .inr (.inl hempty)
  | popFrontEmpty hopen hempty => exact .inr (.inl hempty)
  | popFront hqueue =>
    right; right
    refine ⟨id, ?_⟩
    simp only [hqueue, List.length_cons, Pc.active, Pc.notifying]
    omega
  | popEnter =>
    right; right
    refine ⟨id, ?_⟩
    simp only [Pc.active, Pc.notifying]
    omega
  | @wakeSpuriously j =>
    right; right
    refine ⟨fun ⟨i, hi⟩ => ?_, ?_⟩
    · by_cases hj : i = j
      · subst hj
        simp only [Function.update_self, Bool.false_eq_true] at hi
      · simp only [ne_eq, hj, not_false_eq_true, Function.update_of_ne] at hi
        exact ⟨i, hi⟩
    · have hsum := Logic.sum_update_add Bool.toNat m.sleeping j false
      simp only [Bool.toNat_false] at hsum
      simp only [Pc.active, Pc.notifying]
      omega
  | pushUnlock => exact .inr (.inr ⟨id, by simp only [active_submitDone, notifying_submitDone]; exact le_rfl⟩)
  | closeUnlock => exact .inr (.inr ⟨id, by simp only [active_joinNext, notifying_joinNext]; exact le_rfl⟩)
  | join hexited => exact .inr (.inr ⟨id, by simp only [active_joinNext, notifying_joinNext]; exact le_rfl⟩)
  | _ => exact .inr (.inr ⟨id, le_rfl⟩)

/-- Only `Close` closes the queue, and it then wakes everybody. -/
theorem Act.closed_cases (hact : Act t m pc m' pc') (hclosed : m'.closed = true) :
    t = .stopper ∧ pc' = .closeNotify ∨
      m.closed = true ∧ (∀ i, m'.sleeping i = true → m.sleeping i = true) ∧
        (t = .stopper → pc = .closeNotify → ∀ i, m'.sleeping i = false) := by
  cases hact with
  | closeSet => exact .inl ⟨rfl, rfl⟩
  | notifyAll => exact .inr ⟨hclosed, nofun, fun _ _ _ => rfl⟩
  | notifyOne v hsleeping =>
    refine .inr ⟨hclosed, fun i hi => ?_, nofun⟩
    by_cases hv : i = v
    · subst hv
      exact hsleeping
    · simpa only [ne_eq, hv, not_false_eq_true, Function.update_of_ne] using hi
  | popWait hempty hopen =>
    rw [hopen] at hclosed
    cases hclosed
  | @wakeSpuriously j =>
    refine .inr ⟨hclosed, fun i hi => ?_, nofun⟩
    by_cases hj : i = j
    · subst hj
      simp only [Function.update_self, Bool.false_eq_true] at hi
    · simpa only [ne_eq, hj, not_false_eq_true, Function.update_of_ne] using hi
  | _ => exact .inr ⟨hclosed, fun _ hi => hi, nofun⟩

end Actions

section Reachable

variable [DecidableEq Client] {c : Logic.Conf (Thread n Client) (Mem n Client) (Pc n)}

/-- The mutex is held by the thread inside a critical section. -/
def Locked (c : Logic.Conf (Thread n Client) (Mem n Client) (Pc n)) : Prop :=
  ∀ t, (c.pc t).Critical ↔ c.mem.mutex = some t

theorem Locked.act {t : Thread n Client} {m : Mem n Client} {pc : Pc n} (h : Locked c) (hact : Act t c.mem (c.pc t) m pc) :
    Locked ⟨m, Function.update c.pc t pc⟩ := by
  intro u
  by_cases hu : u = t
  · subst hu
    simp only [Function.update_self]
    cases hact.lockMove with
    | inside hbefore hafter hsame => simp only [hafter, hsame, (h u).1 hbefore]
    | outside hbefore hafter hsame => simpa only [hafter, hsame, hbefore, false_iff] using h u
    | acquire hbefore hafter hfree htaken => simp only [hafter, htaken]
    | release hbefore hafter hfreed => simp only [hafter, hfreed, reduceCtorEq]
  · simp only [ne_eq, hu, not_false_eq_true, Function.update_of_ne]
    have hother := h u
    cases hact.lockMove with
    | inside hbefore hafter hsame => rwa [hsame]
    | outside hbefore hafter hsame => rwa [hsame]
    | acquire hbefore hafter hfree htaken =>
      simp only [hfree, reduceCtorEq, iff_false] at hother
      simp only [htaken, Option.some.injEq, Ne.symm hu, hother]
    | release hbefore hafter hfreed =>
      rw [(h t).1 hbefore] at hother
      simp only [Option.some.injEq, Ne.symm hu, iff_false] at hother
      simp only [hother, hfreed, reduceCtorEq]

/-- What the thread inside a critical section contributes. -/
def inside {α : Type*} (f : Pc n → α) (d : α) (c : Logic.Conf (Thread n Client) (Mem n Client) (Pc n)) : α :=
  match c.mem.mutex with
  | none => d
  | some t => f (c.pc t)

/-- An action inside a critical section, at its start or at its end changes the contribution, and
no other one does. -/
theorem inside_act {α : Type*} {f : Pc n → α} {d : α} (hf : ∀ pc, ¬ pc.Critical → f pc = d) {t : Thread n Client}
    {m : Mem n Client} {pc : Pc n} (h : Locked c) (hact : Act t c.mem (c.pc t) m pc) :
    inside f d c = f (c.pc t) ∧ inside f d ⟨m, Function.update c.pc t pc⟩ = f pc ∨
      inside f d ⟨m, Function.update c.pc t pc⟩ = inside f d c ∧ f (c.pc t) = d ∧ f pc = d := by
  cases hact.lockMove with
  | inside hbefore hafter hsame =>
    have hmutex := (h t).1 hbefore
    left
    simp only [inside, hsame, hmutex, Function.update_self, and_self]
  | outside hbefore hafter hsame =>
    right
    refine ⟨?_, hf _ hbefore, hf _ hafter⟩
    simp only [inside, hsame]
    cases hmutex : c.mem.mutex with
    | none => rfl
    | some u =>
      have hu : u ≠ t := by
        intro heq
        subst heq
        exact hbefore ((h u).2 hmutex)
      simp only [ne_eq, hu, not_false_eq_true, Function.update_of_ne]
  | acquire hbefore hafter hfree htaken =>
    left
    simp only [inside, hfree, htaken, Function.update_self, hf _ hbefore, and_self]
  | release hbefore hafter hfreed =>
    left
    simp only [inside, hfreed, (h t).1 hbefore, hf _ hafter, and_self]

theorem locked_of_reachable (h : (system n Client).Reachable c) : Locked c := by
  refine h.invariant ?_ ?_
  · intro c hinit t
    obtain ⟨hmem, hpcs⟩ := hinit
    rw [hpcs, hmem]
    cases t <;> simp only [Thread.start, Pc.Critical, Mem.start, reduceCtorEq]
  · intro c c' _ hlocked hstep
    obtain ⟨t, m, pc, hact, rfl⟩ := hstep
    exact hlocked.act hact

/-! ### Sums over the workers -/

section Sums

variable {M : Type*} (f : Pc n → M) (pcs : Thread n Client → Pc n) (pc : Pc n)

theorem sum_worker_act [AddCommMonoid M] (i : Fin n) :
    ∑ j, f (Function.update pcs (.worker i) pc (.worker j)) + f (pcs (.worker i)) = ∑ j, f (pcs (.worker j)) + f pc := by
  have hcomp : (fun j => Function.update pcs (.worker i) pc (.worker j)) =
      Function.update (fun j => pcs (.worker j)) i pc := by
    funext j
    by_cases hj : j = i
    · subst hj
      simp only [Function.update_self]
    · simp only [ne_eq, Thread.worker.injEq, hj, not_false_eq_true, Function.update_of_ne]
  have hsum := Logic.sum_update_add f (fun j => pcs (.worker j)) i pc
  rw [← hcomp] at hsum
  exact hsum

theorem sum_other_act [AddCommMonoid M] {t : Thread n Client} (ht : ∀ i, t ≠ .worker i) :
    ∑ j, f (Function.update pcs t pc (.worker j)) = ∑ j, f (pcs (.worker j)) := by
  refine Finset.sum_congr rfl fun j _ => ?_
  rw [Function.update_of_ne (Ne.symm (ht j))]

end Sums

/-- A contribution that a thread changes only as a worker. -/
theorem sum_act (f : Pc n → Nat) {t : Thread n Client} {pc : Pc n} (hf : (∀ i, t ≠ .worker i) → f pc = f (c.pc t)) :
    ∑ j, f (Function.update c.pc t pc (.worker j)) + f (c.pc t) = ∑ j, f (c.pc (.worker j)) + f pc := by
  cases t with
  | worker i => exact sum_worker_act f c.pc pc i
  | client e => rw [sum_other_act f c.pc pc (by simp), hf (by simp)]
  | stopper => rw [sum_other_act f c.pc pc (by simp), hf (by simp)]

/-! ### The count of waiters -/

/-- `waiters_` counts the workers in the loop of `CV.wait`. -/
def WaitersCounted (c : Logic.Conf (Thread n Client) (Mem n Client) (Pc n)) : Prop :=
  c.mem.waiters = ((∑ i, (c.pc (.worker i)).waiting : Nat) : Int)

theorem waitersCounted_of_reachable (h : (system n Client).Reachable c) : WaitersCounted c := by
  refine h.invariant ?_ ?_
  · intro c hinit
    obtain ⟨hmem, hpcs⟩ := hinit
    simp only [WaitersCounted, hmem, hpcs]
    simp [Mem.start, Thread.start, Pc.waiting]
  · intro c c' _ hcounted hstep
    obtain ⟨t, m, pc, hact, rfl⟩ := hstep
    have hmove := hact.waiters
    have hsum := sum_act Pc.waiting hmove.2
    unfold WaitersCounted at hcounted ⊢
    dsimp only
    omega

/-! ### Sleeping workers -/

/-- What is known about the workers that sleep without a notification. -/
structure Sleeping (c : Logic.Conf (Thread n Client) (Mem n Client) (Pc n)) : Prop where
  blocked : ∀ i, c.mem.sleeping i = true → c.pc (.worker i) = .blocked
  paid : (∃ i, c.mem.sleeping i = true) →
    c.mem.queue.length + ∑ i, (c.mem.sleeping i).toNat ≤ ∑ i, (c.pc (.worker i)).active + inside Pc.notifying 0 c
  closed : c.mem.closed = true → (∀ i, c.mem.sleeping i = false) ∨ c.pc .stopper = .closeNotify

omit [DecidableEq Client] in
theorem sum_sleeping_le {sleeping : Fin n → Bool} {pcs : Thread n Client → Pc n}
    (hblocked : ∀ i, sleeping i = true → pcs (.worker i) = .blocked) :
    ∑ i, (sleeping i).toNat ≤ ∑ i, (pcs (.worker i)).active := by
  refine Finset.sum_le_sum fun i _ => ?_
  cases hi : sleeping i with
  | false => exact Nat.zero_le _
  | true =>
    rw [hblocked i hi]
    rfl

omit [DecidableEq Client] in
theorem Sleeping.awake_of_waiters (h : Sleeping c) (hcounted : WaitersCounted c) (hzero : c.mem.waiters ≤ 0) (i : Fin n) :
    c.mem.sleeping i = false := by
  by_contra hasleep
  have hpc := h.blocked i (by simpa using hasleep)
  have hwaiting : (c.pc (.worker i)).waiting = 1 := by
    rw [hpc]
    rfl
  have hle : (c.pc (.worker i)).waiting ≤ ∑ i, (c.pc (.worker i)).waiting :=
    Finset.single_le_sum (f := fun i => (c.pc (.worker i)).waiting) (fun _ _ => Nat.zero_le _) (Finset.mem_univ i)
  unfold WaitersCounted at hcounted
  omega

theorem Sleeping.act {t : Thread n Client} {m : Mem n Client} {pc : Pc n} (h : Sleeping c) (hlocked : Locked c)
    (hcounted : WaitersCounted c) (hact : Act t c.mem (c.pc t) m pc) : Sleeping ⟨m, Function.update c.pc t pc⟩ := by
  have hblocked : ∀ i, m.sleeping i = true → Function.update c.pc t pc (.worker i) = .blocked := by
    intro i hi
    rcases hact.asleep hi with ⟨hold, hother⟩ | ⟨rfl, rfl⟩
    · have hpc := h.blocked i hold
      have ht : t ≠ .worker i := by
        intro heq
        subst heq
        exact hother rfl hpc
      rwa [Function.update_of_ne (Ne.symm ht)]
    · exact Function.update_self ..
  have hawake : ∀ i, t = .worker i → c.pc t ≠ .blocked → c.mem.sleeping i = false := by
    intro i ht hne
    subst ht
    by_contra hasleep
    exact hne (h.blocked i (by simpa using hasleep))
  refine ⟨hblocked, fun hsome => ?_, fun hclosed => ?_⟩
  · rcases hact.paid (h.awake_of_waiters hcounted) hawake with hnone | hempty | ⟨hold, hbalance⟩
    · obtain ⟨i, hi⟩ := hsome
      rw [hnone i] at hi
      cases hi
    · have hle := sum_sleeping_le hblocked
      simp only [hempty, List.length_nil]
      omega
    · have hpaid := h.paid (hold hsome)
      have hsum := sum_act Pc.active hact.active_other
      rcases inside_act notifying_of_not_critical hlocked hact with ⟨hbefore, hafter⟩ | ⟨hsame, hzero, hzero'⟩
      · dsimp only
        omega
      · dsimp only
        omega
  · rcases hact.closed_cases hclosed with ⟨rfl, rfl⟩ | ⟨hold, hsub, hall⟩
    · right
      simp only [Function.update_self]
    · rcases h.closed hold with hnone | hnotify
      · left
        intro i
        by_contra hasleep
        have hbefore := hsub i (by simpa using hasleep)
        rw [hnone i] at hbefore
        cases hbefore
      · by_cases ht : t = .stopper
        · subst ht
          exact .inl (hall rfl hnotify)
        · right
          simpa only [ne_eq, Ne.symm ht, not_false_eq_true, Function.update_of_ne] using hnotify

theorem sleeping_of_reachable (h : (system n Client).Reachable c) : Sleeping c := by
  refine h.invariant ?_ ?_
  · intro c hinit
    obtain ⟨hmem, _⟩ := hinit
    constructor <;> simp only [hmem]
    · exact nofun
    · exact fun hsome => nomatch hsome.choose_spec
    · exact nofun
  · intro c c' hreach hsleeping hstep
    obtain ⟨t, m, pc, hact, rfl⟩ := hstep
    exact hsleeping.act (locked_of_reachable hreach) (waitersCounted_of_reachable hreach) hact

end Reachable

end CppConcur.Compute
