import CppConcur.Compute.PoolInvariant

/-!
# The tasks of the blocking queue

The popped tasks, then the queue, then the task of a `Push` that is about to append it, are the tasks
whose `Push` took the mutex before `Close`, in this order. `Pop` returns nothing only when the queue is
closed and empty, and it stays so. With the count of the tasks that workers have popped, started and
finished this gives that `Stop` drains the pool.
-/

namespace CppConcur.Compute

variable {n : Nat} {Client : Type*}

/-! ### The order of the tasks -/

theorem admitted_close (log : List Entry) : admitted (log ++ [.close]) = admitted log := by
  induction log with
  | nil => rfl
  | cons entry log ih =>
    cases entry with
    | push task => simp only [List.cons_append, admitted, ih]
    | close => rfl

theorem admitted_push {log : List Entry} (hopen : Entry.close ∉ log) (task : Task) :
    admitted (log ++ [.push task]) = admitted log ++ [task] := by
  induction log with
  | nil => rfl
  | cons entry log ih =>
    cases entry with
    | push first =>
      simp only [List.cons_append, admitted, List.cons.injEq, true_and]
      exact ih fun hmem => hopen (List.mem_cons_of_mem _ hmem)
    | close => exact absurd List.mem_cons_self hopen

theorem admitted_closed {log : List Entry} (hclosed : Entry.close ∈ log) (entry : Entry) :
    admitted (log ++ [entry]) = admitted log := by
  induction log with
  | nil => cases hclosed
  | cons first log ih =>
    cases first with
    | push task =>
      have hrest : Entry.close ∈ log := by
        rcases List.mem_cons.1 hclosed with heq | hmem
        · cases heq
        · exact hmem
      simp only [List.cons_append, admitted, ih hrest]
    | close => rfl

/-- The task of a `Push` inside its critical section, before `PushBack`. -/
def Pc.entering : Pc n → List Task
  | .pushBody _ task => [task]
  | _ => []

theorem entering_of_not_critical (pc : Pc n) (h : ¬ pc.Critical) : pc.entering = [] := by
  cases pc with
  | pushBody current task => exact absurd trivial h
  | _ => rfl

section Reachable

variable [DecidableEq Client] {c : Logic.Conf (Thread n Client) (Mem n Client) (Pc n)}

/-- The order of the tasks, and when the log has the entry of `Close`. -/
structure Ordered (c : Logic.Conf (Thread n Client) (Mem n Client) (Pc n)) : Prop where
  order : c.mem.popped ++ c.mem.queue ++ (if c.mem.closed then [] else inside Pc.entering [] c) = admitted c.mem.log
  logged : Entry.close ∈ c.mem.log ↔ c.mem.closed = true ∨ c.pc .stopper = .closeSet

theorem update_stopper_iff (t : Thread n Client) (pcs : Thread n Client → Pc n) (pc : Pc n) (hbefore : pcs t ≠ .closeSet)
    (hafter : pc ≠ .closeSet) : Function.update pcs t pc .stopper = .closeSet ↔ pcs .stopper = .closeSet := by
  by_cases ht : t = .stopper
  · subst ht
    simp only [Function.update_self, hbefore, hafter]
  · rw [Function.update_of_ne (Ne.symm ht)]

/-- An action that leaves the queue, the log and `closed_` alone. -/
theorem Ordered.quiet {t : Thread n Client} {m : Mem n Client} {pc : Pc n} (h : Ordered c) (hlocked : Locked c)
    (hact : Act t c.mem (c.pc t) m pc) (hpopped : m.popped = c.mem.popped) (hqueue : m.queue = c.mem.queue)
    (hclosed : m.closed = c.mem.closed) (hlog : m.log = c.mem.log) (hbefore : c.mem.closed = true ∨ (c.pc t).entering = [])
    (hafter : c.mem.closed = true ∨ pc.entering = []) (hset : c.pc t ≠ .closeSet) (hset' : pc ≠ .closeSet) :
    Ordered ⟨m, Function.update c.pc t pc⟩ := by
  constructor
  · simp only [hpopped, hqueue, hclosed, hlog, ← h.order]
    rcases hbefore with hc | hbefore
    · simp only [hc, if_true]
    rcases hafter with hc | hafter
    · simp only [hc, if_true]
    rcases inside_act entering_of_not_critical hlocked hact with ⟨hold, hnew⟩ | ⟨hsame, _⟩
    · rw [hold, hnew, hbefore, hafter]
    · rw [hsame]
  · simp only [hlog, hclosed, h.logged, update_stopper_iff t c.pc pc hset hset']

theorem Ordered.act {t : Thread n Client} {m : Mem n Client} {pc : Pc n} (h : Ordered c) (hlocked : Locked c)
    (hact : Act t c.mem (c.pc t) m pc) : Ordered ⟨m, Function.update c.pc t pc⟩ := by
  have hquiet := h.quiet hlocked hact
  have hinside := inside_act entering_of_not_critical hlocked hact
  have hheld := (hlocked t).1
  have horder := h.order
  have hlogged := h.logged
  generalize hpc : c.pc t = pc₀ at hact hquiet hinside hheld
  cases hact with
  | @pushLock _ _ current task hfree =>
    have hset : c.pc .stopper ≠ .closeSet := by
      intro hset
      have hmutex := (hlocked .stopper).1 (by rw [hset]; trivial)
      rw [hfree] at hmutex
      cases hmutex
    have hbefore : inside Pc.entering [] c = [] := by simp only [inside, hfree]
    have hafter : inside Pc.entering [] ⟨{ c.mem with mutex := some t, log := c.mem.log ++ [.push task] },
        Function.update c.pc t (.pushBody current task)⟩ = [task] := by
      simp only [inside, Function.update_self, Pc.entering]
    have hiff := update_stopper_iff t c.pc (.pushBody current task) (by rw [hpc]; rintro ⟨⟩) (by rintro ⟨⟩)
    constructor
    · rw [hafter]
      rw [hbefore] at horder
      cases hclosed : c.mem.closed with
      | true =>
        rw [hclosed] at horder hlogged
        rw [admitted_closed (hlogged.2 (.inl rfl)), ← horder]
        rfl
      | false =>
        rw [hclosed] at horder hlogged
        have hopen : Entry.close ∉ c.mem.log := by
          intro hmem
          rcases hlogged.1 hmem with hfalse | hclosing
          · cases hfalse
          · exact hset hclosing
        rw [admitted_push hopen, ← horder]
        simp
    · simp only [List.mem_append, List.mem_singleton, reduceCtorEq, or_false, hlogged, hiff]
  | pushClosed hclosed => exact hquiet rfl rfl rfl rfl (.inl hclosed) (.inl hclosed) (by rintro ⟨⟩) (by rintro ⟨⟩)
  | @pushBack _ _ current task hopen =>
    have hnext : (if 0 < c.mem.waiters then .pushNotify current else .pushUnlock current : Pc n).entering = [] := by
      split <;> rfl
    have hiff := update_stopper_iff t c.pc (if 0 < c.mem.waiters then .pushNotify current else .pushUnlock current)
      (by rw [hpc]; rintro ⟨⟩) (by split <;> rintro ⟨⟩)
    rcases hinside with ⟨hold, hnew⟩ | ⟨_, hnot, _⟩
    · constructor
      · rw [hnew, hnext]
        rw [hold] at horder
        simp only [hopen, Bool.false_eq_true, if_false, Pc.entering] at horder ⊢
        rw [← horder]
        simp
      · simp only [hlogged, hiff]
    · cases hnot
  | @popFront i _ task rest hqueue =>
    have hiff := update_stopper_iff (.worker i) c.pc (.popUnlock (some task)) (by rw [hpc]; rintro ⟨⟩) (by rintro ⟨⟩)
    have hsame : inside Pc.entering [] ⟨{ c.mem with queue := rest, popped := c.mem.popped ++ [task] },
        Function.update c.pc (.worker i) (.popUnlock (some task))⟩ = inside Pc.entering [] c := by
      rcases hinside with ⟨hold, hnew⟩ | ⟨hsame, _⟩
      · rw [hold, hnew]
        rfl
      · exact hsame
    constructor
    · rw [hsame, ← horder, hqueue]
      simp
    · simp only [hlogged, hiff]
  | closeLock hfree =>
    have hbefore : inside Pc.entering [] c = [] := by simp only [inside, hfree]
    have hafter : inside Pc.entering [] ⟨{ c.mem with mutex := some .stopper, log := c.mem.log ++ [.close] },
        Function.update c.pc .stopper .closeSet⟩ = [] := by
      simp only [inside, Function.update_self, Pc.entering]
    constructor
    · rw [hafter, admitted_close, ← horder, hbefore]
    · simp only [List.mem_append, List.mem_singleton, or_true, Function.update_self]
  | closeSet =>
    have hmutex := hheld trivial
    have hbefore : inside Pc.entering [] c = [] := by simp only [inside, hmutex, hpc, Pc.entering]
    constructor
    · simpa only [hbefore, ite_self, if_true] using horder
    · simp only [true_or, iff_true]
      exact hlogged.2 (.inr hpc)
  | pushUnlock =>
    rename_i current
    exact hquiet rfl rfl rfl rfl (.inr rfl) (.inr (entering_of_not_critical _ (not_critical_submitDone _))) (by rintro ⟨⟩)
      (by cases current <;> rintro ⟨⟩)
  | closeUnlock =>
    exact hquiet rfl rfl rfl rfl (.inr rfl) (.inr (entering_of_not_critical _ (not_critical_joinNext _))) (by rintro ⟨⟩)
      fun heq => absurd (heq ▸ trivial) (not_critical_joinNext (n := n) 0)
  | @join _ i hexited =>
    exact hquiet rfl rfl rfl rfl (.inr rfl) (.inr (entering_of_not_critical _ (not_critical_joinNext _))) (by rintro ⟨⟩)
      fun heq => absurd (heq ▸ trivial) (not_critical_joinNext (n := n) (i + 1))
  | _ => exact hquiet rfl rfl rfl rfl (.inr rfl) (.inr rfl) (by rintro ⟨⟩) (by rintro ⟨⟩)

theorem ordered_of_reachable (h : (system n Client).Reachable c) : Ordered c := by
  refine h.invariant ?_ ?_
  · intro c hinit
    obtain ⟨hmem, hpcs⟩ := hinit
    constructor
    · simp only [hmem, inside]
      rfl
    · rw [hmem, hpcs]
      simp [Mem.start, Thread.start]
  · intro c c' hreach hordered hstep
    obtain ⟨t, m, pc, hact, rfl⟩ := hstep
    exact hordered.act (locked_of_reachable hreach) hact

/-! ### The end of the queue -/

/-- A worker whose `Pop` has returned nothing. -/
def Pc.Ended : Pc n → Prop
  | .popUnlock none => True
  | .exited => True
  | _ => False

theorem not_ended_submitDone (current : Option Task) : ¬ (submitDone current : Pc n).Ended := by
  cases current <;> exact id

theorem not_ended_joinNext (j : Nat) : ¬ (joinNext j : Pc n).Ended := by
  unfold joinNext
  split <;> exact id

/-- The workers that have left the loop of `CV.wait`, and those for which there is nothing left. -/
structure Settled (c : Logic.Conf (Thread n Client) (Mem n Client) (Pc n)) : Prop where
  ended : ∀ t, (c.pc t).Ended → c.mem.closed = true ∧ c.mem.queue = []
  take : ∀ t, c.pc t = .popTake → c.mem.queue ≠ [] ∨ c.mem.closed = true
  crashed : ∀ t, c.pc t ≠ .crashed
  exited : ∀ i, c.mem.exited i = true → c.pc (.worker i) = .exited

omit [DecidableEq Client] in
/-- A closed and empty queue stays so. -/
theorem Act.closed_empty {t : Thread n Client} {m m' : Mem n Client} {pc pc' : Pc n} (hact : Act t m pc m' pc')
    (hclosed : m.closed = true) (hempty : m.queue = []) : m'.closed = true ∧ m'.queue = [] := by
  cases hact with
  | pushBack hopen =>
    rw [hopen] at hclosed
    cases hclosed
  | popFront hqueue =>
    rw [hqueue] at hempty
    cases hempty
  | closeSet => exact ⟨rfl, hempty⟩
  | _ => exact ⟨hclosed, hempty⟩

omit [DecidableEq Client] in
/-- A `Pop` that returns nothing finds the queue closed and empty. -/
theorem Act.ended {t : Thread n Client} {m m' : Mem n Client} {pc pc' : Pc n} (hact : Act t m pc m' pc')
    (hended : pc'.Ended) : pc.Ended ∨ m'.closed = true ∧ m'.queue = [] := by
  cases hact with
  | popNull hclosed hempty => exact .inr ⟨hclosed, hempty⟩
  | exit => exact .inl trivial
  | pushBack hopen => split at hended <;> exact hended.elim
  | pushUnlock => exact absurd hended (not_ended_submitDone _)
  | closeUnlock => exact absurd hended (not_ended_joinNext _)
  | join hexited => exact absurd hended (not_ended_joinNext _)
  | _ => exact hended.elim

omit [DecidableEq Client] in
/-- Only a thread inside a critical section removes tasks, and nothing reopens the queue. -/
theorem Act.keeps_task {t : Thread n Client} {m m' : Mem n Client} {pc pc' : Pc n} (hact : Act t m pc m' pc')
    (hfree : ¬ pc.Critical) (htask : m.queue ≠ [] ∨ m.closed = true) : m'.queue ≠ [] ∨ m'.closed = true := by
  cases hact with
  | pushBack hopen => exact absurd trivial hfree
  | popFront hqueue => exact absurd trivial hfree
  | closeSet => exact .inr rfl
  | _ => exact htask

omit [DecidableEq Client] in
theorem Act.take {t : Thread n Client} {m m' : Mem n Client} {pc pc' : Pc n} (hact : Act t m pc m' pc')
    (htake : pc' = .popTake) : m'.queue ≠ [] ∨ m'.closed = true := by
  cases hact with
  | popReady hready => exact hready
  | pushBack hopen => split at htake <;> cases htake
  | pushUnlock =>
    rename_i current
    cases current <;> cases htake
  | closeUnlock =>
    unfold joinNext at htake
    split at htake <;> cases htake
  | join hexited =>
    unfold joinNext at htake
    split at htake <;> cases htake
  | _ => cases htake

omit [DecidableEq Client] in
theorem Act.crashed {t : Thread n Client} {m m' : Mem n Client} {pc pc' : Pc n} (hact : Act t m pc m' pc')
    (hcrashed : pc' = .crashed) : pc = .popTake ∧ m.queue = [] ∧ m.closed = false := by
  cases hact with
  | popFrontEmpty hopen hempty => exact ⟨rfl, hempty, hopen⟩
  | pushBack hopen => split at hcrashed <;> cases hcrashed
  | pushUnlock =>
    rename_i current
    cases current <;> cases hcrashed
  | closeUnlock =>
    unfold joinNext at hcrashed
    split at hcrashed <;> cases hcrashed
  | join hexited =>
    unfold joinNext at hcrashed
    split at hcrashed <;> cases hcrashed
  | _ => cases hcrashed

omit [DecidableEq Client] in
theorem Act.exited {t : Thread n Client} {m m' : Mem n Client} {pc pc' : Pc n} (hact : Act t m pc m' pc') {i : Fin n}
    (hexited : m'.exited i = true) :
    m.exited i = true ∧ (t = .worker i → pc ≠ .exited) ∨ t = .worker i ∧ pc' = .exited := by
  cases hact with
  | @exit j =>
    by_cases hj : i = j
    · subst hj
      exact .inr ⟨rfl, rfl⟩
    · simp only [ne_eq, hj, not_false_eq_true, Function.update_of_ne] at hexited
      exact .inl ⟨hexited, fun _ => nofun⟩
  | _ => exact .inl ⟨hexited, fun _ => nofun⟩

theorem Settled.act {t : Thread n Client} {m : Mem n Client} {pc : Pc n} (h : Settled c) (hlocked : Locked c)
    (hact : Act t c.mem (c.pc t) m pc) : Settled ⟨m, Function.update c.pc t pc⟩ := by
  constructor
  · intro u hended
    by_cases hu : u = t
    · subst hu
      simp only [Function.update_self] at hended
      rcases hact.ended hended with hbefore | hnow
      · obtain ⟨hclosed, hempty⟩ := h.ended u hbefore
        exact hact.closed_empty hclosed hempty
      · exact hnow
    · simp only [ne_eq, hu, not_false_eq_true, Function.update_of_ne] at hended
      obtain ⟨hclosed, hempty⟩ := h.ended u hended
      exact hact.closed_empty hclosed hempty
  · intro u htake
    by_cases hu : u = t
    · subst hu
      simp only [Function.update_self] at htake
      exact hact.take htake
    · simp only [ne_eq, hu, not_false_eq_true, Function.update_of_ne] at htake
      refine hact.keeps_task (fun hcritical => hu ?_) (h.take u htake)
      have hmutex := (hlocked u).1 (by rw [htake]; trivial)
      rw [(hlocked t).1 hcritical] at hmutex
      exact (Option.some.inj hmutex).symm
  · intro u hcrashed
    by_cases hu : u = t
    · subst hu
      simp only [Function.update_self] at hcrashed
      obtain ⟨htake, hempty, hopen⟩ := hact.crashed hcrashed
      rcases h.take u htake with hne | hclosed
      · exact hne hempty
      · rw [hopen] at hclosed
        cases hclosed
    · simp only [ne_eq, hu, not_false_eq_true, Function.update_of_ne] at hcrashed
      exact h.crashed u hcrashed
  · intro i hexited
    rcases hact.exited hexited with ⟨hbefore, hne⟩ | ⟨rfl, rfl⟩
    · have hpc := h.exited i hbefore
      have ht : t ≠ .worker i := by
        intro heq
        subst heq
        exact hne rfl hpc
      simpa only [ne_eq, Ne.symm ht, not_false_eq_true, Function.update_of_ne] using hpc
    · simp only [Function.update_self]

theorem settled_of_reachable (h : (system n Client).Reachable c) : Settled c := by
  refine h.invariant ?_ ?_
  · intro c hinit
    obtain ⟨hmem, hpcs⟩ := hinit
    constructor <;> intro t <;> simp only [hpcs, hmem]
    · cases t <;> exact False.elim
    · cases t <;> nofun
    · cases t <;> nofun
    · nofun
  · intro c c' hreach hsettled hstep
    obtain ⟨t, m, pc, hact, rfl⟩ := hstep
    exact hsettled.act (locked_of_reachable hreach) hact

/-! ### Joined workers -/

/-- The workers that `Stop` has joined have ended. -/
def Joined (m : Mem n Client) : Pc n → Prop
  | .join i => ∀ j, j < i → m.exited j = true
  | .stopReturned => ∀ j, m.exited j = true
  | _ => True

omit [DecidableEq Client] in
theorem joined_joinNext {m : Mem n Client} {k : Nat} (h : ∀ j : Fin n, j.val < k → m.exited j = true) :
    Joined m (joinNext k) := by
  unfold joinNext
  split
  · exact fun j hj => h j hj
  · exact fun j => h j (by omega)

omit [DecidableEq Client] in
theorem Act.exited_mono {t : Thread n Client} {m m' : Mem n Client} {pc pc' : Pc n} (hact : Act t m pc m' pc') {i : Fin n}
    (hexited : m.exited i = true) : m'.exited i = true := by
  cases hact with
  | @exit j =>
    by_cases hj : i = j
    · subst hj
      exact Function.update_self ..
    · simpa only [ne_eq, hj, not_false_eq_true, Function.update_of_ne] using hexited
  | _ => exact hexited

omit [DecidableEq Client] in
theorem Joined.mono {m m' : Mem n Client} {pc : Pc n} (h : Joined m pc)
    (hmono : ∀ i, m.exited i = true → m'.exited i = true) :
    Joined m' pc := by
  cases pc with
  | join i => exact fun j hj => hmono j (h j hj)
  | stopReturned => exact fun j => hmono j (h j)
  | _ => trivial

omit [DecidableEq Client] in
theorem Joined.act {m m' : Mem n Client} {pc pc' : Pc n} (h : Joined m pc) (hact : Act .stopper m pc m' pc') :
    Joined m' pc' := by
  cases hact with
  | pushBack hopen => split <;> trivial
  | pushUnlock =>
    rename_i current
    cases current <;> trivial
  | closeUnlock => exact joined_joinNext fun _ hj => absurd hj (Nat.not_lt_zero _)
  | @join _ i hexited =>
    refine joined_joinNext fun j hj => ?_
    rcases Nat.lt_succ_iff_lt_or_eq.1 hj with hlt | heq
    · exact h j hlt
    · rw [Fin.ext heq]
      exact hexited
  | _ => trivial

theorem joined_of_reachable (h : (system n Client).Reachable c) : Joined c.mem (c.pc .stopper) := by
  induction h with
  | init hinit =>
    rw [hinit.2]
    trivial
  | step _ hstep hjoined =>
    obtain ⟨t, m, pc, hact, rfl⟩ := hstep
    by_cases ht : t = .stopper
    · subst ht
      simp only [Function.update_self]
      exact hjoined.act hact
    · simp only [ne_eq, Ne.symm ht, not_false_eq_true, Function.update_of_ne]
      exact hjoined.mono fun _ => hact.exited_mono

/-! ### Popped, started and finished tasks -/

/-- The task that a worker has popped and not started yet. -/
def Pc.taken : Pc n → List Task
  | .popUnlock (some task) => [task]
  | _ => []

/-- The task that a worker runs. -/
def Pc.runs : Pc n → List Task
  | .running current => [current]
  | .pushLock current _ => current.toList
  | .pushBody current _ => current.toList
  | .pushNotify current => current.toList
  | .pushUnlock current => current.toList
  | _ => []

theorem taken_joinNext (j : Nat) : (joinNext j : Pc n).taken = [] := by
  unfold joinNext
  split <;> rfl

theorem runs_joinNext (j : Nat) : (joinNext j : Pc n).runs = [] := by
  unfold joinNext
  split <;> rfl

theorem runs_submitDone (current : Option Task) : (submitDone current : Pc n).runs = current.toList := by
  cases current <;> rfl

/-- What an action does to the histories, as a worker and as any other thread. -/
structure RunsMove (t : Thread n Client) (m : Mem n Client) (pc : Pc n) (m' : Mem n Client) (pc' : Pc n) (task : Task) :
    Prop where
  taken : m'.popped.count task + pc.taken.count task + m.started.count task =
    m.popped.count task + pc'.taken.count task + m'.started.count task
  runs : m'.started.count task + pc.runs.count task + m.finished.count task =
    m.started.count task + pc'.runs.count task + m'.finished.count task
  other : (∀ i, t ≠ .worker i) → pc'.taken = pc.taken ∧ pc'.runs = pc.runs

omit [DecidableEq Client] in
theorem Act.runsMove {t : Thread n Client} {m m' : Mem n Client} {pc pc' : Pc n} (hact : Act t m pc m' pc') (task : Task) :
    RunsMove t m pc m' pc' task := by
  cases hact with
  | popFront hqueue =>
    refine ⟨?_, rfl, fun ht => absurd rfl (ht _)⟩
    simp only [List.count_append, Pc.taken, List.count_nil]
    omega
  | run =>
    refine ⟨?_, ?_, fun ht => absurd rfl (ht _)⟩
    · simp only [List.count_append, Pc.taken, List.count_nil]
      omega
    · simp only [List.count_append, Pc.runs, List.count_nil]
      omega
  | finish =>
    refine ⟨rfl, ?_, fun ht => absurd rfl (ht _)⟩
    simp only [List.count_append, Pc.runs, List.count_nil]
    omega
  | pushBack hopen => split <;> exact ⟨rfl, rfl, fun _ => ⟨rfl, rfl⟩⟩
  | pushUnlock =>
    rename_i current
    cases current <;> exact ⟨rfl, rfl, fun _ => ⟨rfl, rfl⟩⟩
  | closeUnlock =>
    constructor
    · rw [taken_joinNext]
      rfl
    · rw [runs_joinNext]
      rfl
    · exact fun _ => ⟨taken_joinNext 0, runs_joinNext 0⟩
  | @join _ i hexited =>
    constructor
    · rw [taken_joinNext]
      rfl
    · rw [runs_joinNext]
      rfl
    · exact fun _ => ⟨taken_joinNext _, runs_joinNext _⟩
  | _ => exact ⟨rfl, rfl, fun _ => ⟨rfl, rfl⟩⟩

/-- The popped tasks are those about to be started and the started ones, and these are running or
have finished. -/
structure Accounted (c : Logic.Conf (Thread n Client) (Mem n Client) (Pc n)) (task : Task) : Prop where
  popped : c.mem.popped.count task = c.mem.started.count task + ∑ i, (c.pc (.worker i)).taken.count task
  started : c.mem.started.count task = c.mem.finished.count task + ∑ i, (c.pc (.worker i)).runs.count task

theorem accounted_of_reachable (h : (system n Client).Reachable c) (task : Task) : Accounted c task := by
  induction h with
  | init hinit =>
    obtain ⟨hmem, hpcs⟩ := hinit
    constructor <;> simp [hmem, hpcs, Mem.start, Thread.start, Pc.taken, Pc.runs]
  | @step c c' _ hstep haccounted =>
    obtain ⟨t, m, pc, hact, rfl⟩ := hstep
    have hmove := hact.runsMove task
    have hpopped := haccounted.popped
    have hstarted := haccounted.started
    have htaken := sum_act (c := c) (fun pc => pc.taken.count task) fun ht => congrArg (List.count task) (hmove.other ht).1
    have hruns := sum_act (c := c) (fun pc => pc.runs.count task) fun ht => congrArg (List.count task) (hmove.other ht).2
    have hmtaken := hmove.taken
    have hmruns := hmove.runs
    constructor <;> dsimp only <;> omega

/-! ### Every task is pushed once -/

/-- All tasks whose `Push` took the mutex. -/
def pushes : List Entry → List Task
  | [] => []
  | .push task :: log => task :: pushes log
  | .close :: log => pushes log

theorem pushes_append (log log' : List Entry) : pushes (log ++ log') = pushes log ++ pushes log' := by
  induction log with
  | nil => rfl
  | cons entry log ih => cases entry <;> simp only [List.cons_append, pushes, ih]

theorem admitted_sublist (log : List Entry) : (admitted log).Sublist (pushes log) := by
  induction log with
  | nil => exact .slnil
  | cons entry log ih =>
    cases entry with
    | push task => exact ih.cons_cons task
    | close => exact List.nil_sublist _

/-- The task of a `Push` that has not taken the mutex yet. -/
def Pc.calling : Pc n → Option Task
  | .pushLock _ task => some task
  | _ => none

/-- Every task is pushed by one call only. -/
structure Fresh (c : Logic.Conf (Thread n Client) (Mem n Client) (Pc n)) : Prop where
  logged : ∀ task ∈ pushes c.mem.log, task < c.mem.submitted
  nodup : (pushes c.mem.log).Nodup
  calling : ∀ t task, (c.pc t).calling = some task → task < c.mem.submitted ∧ task ∉ pushes c.mem.log
  distinct : ∀ t u task, (c.pc t).calling = some task → (c.pc u).calling = some task → t = u

/-- How an action takes part in submitting tasks. -/
inductive FreshMove (m : Mem n Client) (pc : Pc n) (m' : Mem n Client) (pc' : Pc n) : Prop
  | none (hsubmitted : m'.submitted = m.submitted) (hlog : pushes m'.log = pushes m.log) (hcalling : pc'.calling = none)
  | call (hsubmitted : m'.submitted = m.submitted + 1) (hlog : m'.log = m.log) (hcalling : pc'.calling = some m.submitted)
  | push (task : Task) (hsubmitted : m'.submitted = m.submitted) (hbefore : pc.calling = some task)
      (hlog : pushes m'.log = pushes m.log ++ [task]) (hcalling : pc'.calling = none)

omit [DecidableEq Client] in
theorem Act.freshMove {t : Thread n Client} {m m' : Mem n Client} {pc pc' : Pc n} (hact : Act t m pc m' pc') :
    FreshMove m pc m' pc' := by
  cases hact with
  | call => exact .call rfl rfl rfl
  | callInside => exact .call rfl rfl rfl
  | @pushLock _ _ _ task hfree => exact .push task rfl rfl (pushes_append _ _) rfl
  | closeLock hfree => exact .none rfl (by rw [pushes_append]; exact List.append_nil _) rfl
  | pushBack hopen => split <;> exact .none rfl rfl rfl
  | pushUnlock =>
    rename_i current
    cases current <;> exact .none rfl rfl rfl
  | closeUnlock =>
    unfold joinNext
    split <;> exact .none rfl rfl rfl
  | join hexited =>
    unfold joinNext
    split <;> exact .none rfl rfl rfl
  | _ => exact .none rfl rfl rfl

theorem Fresh.act {t : Thread n Client} {m : Mem n Client} {pc : Pc n} (h : Fresh c) (hact : Act t c.mem (c.pc t) m pc) :
    Fresh ⟨m, Function.update c.pc t pc⟩ := by
  have hcases : ∀ u task, (Function.update c.pc t pc u).calling = some task →
      u = t ∧ pc.calling = some task ∨ u ≠ t ∧ (c.pc u).calling = some task := by
    intro u task hcalling
    by_cases hu : u = t
    · subst hu
      rw [Function.update_self] at hcalling
      exact .inl ⟨rfl, hcalling⟩
    · rw [Function.update_of_ne hu] at hcalling
      exact .inr ⟨hu, hcalling⟩
  cases hact.freshMove with
  | none hsubmitted hlog hnone =>
    have hother : ∀ u task, (Function.update c.pc t pc u).calling = some task → (c.pc u).calling = some task := by
      intro u task hcalling
      rcases hcases u task hcalling with ⟨_, hown⟩ | ⟨_, hold⟩
      · rw [hnone] at hown
        cases hown
      · exact hold
    constructor
    · simpa only [hlog, hsubmitted] using h.logged
    · simpa only [hlog] using h.nodup
    · intro u task hcalling
      simpa only [hlog, hsubmitted] using h.calling u task (hother u task hcalling)
    · exact fun u v task hu hv => h.distinct u v task (hother u task hu) (hother v task hv)
  | call hsubmitted hlog hcall =>
    constructor
    · intro task hmem
      rw [hlog] at hmem
      rw [hsubmitted]
      exact (h.logged task hmem).trans (Nat.lt_succ_self _)
    · simpa only [hlog] using h.nodup
    · intro u task hcalling
      rw [hlog, hsubmitted]
      rcases hcases u task hcalling with ⟨_, hown⟩ | ⟨_, hold⟩
      · rw [hcall] at hown
        cases hown
        exact ⟨Nat.lt_succ_self _, fun hmem => absurd (h.logged _ hmem) (lt_irrefl _)⟩
      · obtain ⟨hlt, hnot⟩ := h.calling u task hold
        exact ⟨hlt.trans (Nat.lt_succ_self _), hnot⟩
    · intro u v task hu hv
      rcases hcases u task hu with ⟨rfl, hown⟩ | ⟨hne, hold⟩
      · rcases hcases v task hv with ⟨rfl, _⟩ | ⟨_, hold⟩
        · rfl
        · rw [hcall] at hown
          cases hown
          exact absurd (h.calling v _ hold).1 (lt_irrefl _)
      · rcases hcases v task hv with ⟨rfl, hown⟩ | ⟨_, hold'⟩
        · rw [hcall] at hown
          cases hown
          exact absurd (h.calling u _ hold).1 (lt_irrefl _)
        · exact h.distinct u v task hold hold'
  | push task hsubmitted hbefore hlog hnone =>
    obtain ⟨hlt, hfresh⟩ := h.calling t task hbefore
    have hother : ∀ u task, (Function.update c.pc t pc u).calling = some task →
        u ≠ t ∧ (c.pc u).calling = some task := by
      intro u task hcalling
      rcases hcases u task hcalling with ⟨_, hown⟩ | hold
      · rw [hnone] at hown
        cases hown
      · exact hold
    constructor
    · intro other hmem
      rw [hlog] at hmem
      rw [hsubmitted]
      rcases List.mem_append.1 hmem with hold | hnew
      · exact h.logged other hold
      · rw [List.mem_singleton.1 hnew]
        exact hlt
    · rw [hlog]
      exact h.nodup.append (List.nodup_singleton task) (List.disjoint_singleton.2 hfresh)
    · intro u other hcalling
      obtain ⟨hne, hold⟩ := hother u other hcalling
      rw [hlog, hsubmitted]
      refine ⟨(h.calling u other hold).1, fun hmem => ?_⟩
      rcases List.mem_append.1 hmem with hin | hnew
      · exact (h.calling u other hold).2 hin
      · rw [List.mem_singleton.1 hnew] at hold
        exact hne (h.distinct u t task hold hbefore)
    · exact fun u v other hu hv => h.distinct u v other (hother u other hu).2 (hother v other hv).2

theorem fresh_of_reachable (h : (system n Client).Reachable c) : Fresh c := by
  refine h.invariant ?_ ?_
  · intro c hinit
    obtain ⟨hmem, hpcs⟩ := hinit
    have hnone : ∀ t, (c.pc t).calling = none := by
      intro t
      rw [hpcs]
      cases t <;> rfl
    constructor
    · rw [hmem]
      exact nofun
    · rw [hmem]
      exact List.nodup_nil
    · intro t task hcalling
      rw [hnone] at hcalling
      cases hcalling
    · intro t u task hcalling
      rw [hnone] at hcalling
      cases hcalling
  · intro c c' _ hfresh hstep
    obtain ⟨t, m, pc, hact, rfl⟩ := hstep
    exact hfresh.act hact

/-! ### The guarantees of the queue and of the pool -/

/-- The places in `Pop`. -/
def Pc.InPop : Pc n → Prop
  | .popLock => True
  | .popEnter => True
  | .popTest => True
  | .blocked => True
  | .relock => True
  | .popTake => True
  | .popUnlock _ => True
  | _ => False

/-- A thread that is about to notify inside its critical section. -/
def Pc.Notifying : Pc n → Prop
  | .pushNotify _ => True
  | .closeNotify => True
  | _ => False

/-- There is a task or the queue is closed, and some worker is in `Pop`, but all of them sleep, no
notification is on its way to them, and no thread is about to give one. -/
def Stuck (c : Logic.Conf (Thread n Client) (Mem n Client) (Pc n)) : Prop :=
  (c.mem.queue ≠ [] ∨ c.mem.closed = true) ∧ (∃ i, (c.pc (.worker i)).InPop) ∧
    (∀ i, (c.pc (.worker i)).InPop → c.pc (.worker i) = .blocked ∧ c.mem.sleeping i = true) ∧ ∀ t, ¬ (c.pc t).Notifying

omit [DecidableEq Client] in
theorem inside_notifying_of_not {f : Thread n Client → Pc n} {m : Mem n Client} (hnone : ∀ t, ¬ (f t).Notifying) :
    inside Pc.notifying 0 ⟨m, f⟩ = 0 := by
  unfold inside
  split
  · rfl
  · rename_i t _
    have ht := hnone t
    dsimp only
    generalize f t = pc at ht
    cases pc with
    | pushNotify current => exact absurd trivial ht
    | _ => rfl

theorem not_stuck (h : (system n Client).Reachable c) : ¬ Stuck c := by
  rintro ⟨htask, ⟨i, hin⟩, hall, hnone⟩
  have hsleeping := sleeping_of_reachable h
  have hasleep := (hall i hin).2
  have hempty : c.mem.queue = [] := by
    have hpaid := hsleeping.paid ⟨i, hasleep⟩
    have hinside : inside Pc.notifying 0 c = 0 := inside_notifying_of_not hnone
    have hactive : ∑ i, (c.pc (.worker i)).active ≤ ∑ i, (c.mem.sleeping i).toNat := by
      refine Finset.sum_le_sum fun j _ => ?_
      by_cases hpop : (c.pc (.worker j)).InPop
      · rw [(hall j hpop).1, (hall j hpop).2]
        exact le_rfl
      · have hzero : (c.pc (.worker j)).active = 0 := by
          generalize c.pc (.worker j) = pc at hpop
          cases pc <;> first | rfl | exact absurd trivial hpop
        omega
    exact List.length_eq_zero_iff.1 (by omega)
  rcases htask with hne | hclosed
  · exact hne hempty
  · rcases hsleeping.closed hclosed with hawake | hnotify
    · rw [hawake i] at hasleep
      cases hasleep
    · exact hnone .stopper (by rw [hnotify]; trivial)

/-- The popped tasks are a prefix of the tasks whose `Push` took the mutex before `Close`, each of them
once; `Pop` returns nothing only when the queue is closed and empty; no worker sleeps forever while
there is a task or the queue is closed; `waiters_` does not drop below zero; and when `Stop` of a pool
with at least one worker returns, every such task has been run exactly once. -/
theorem queue_drained (h : (system n Client).Reachable c) :
    c.mem.popped <+: admitted c.mem.log ∧ (admitted c.mem.log).Nodup ∧
      (∀ i, (c.pc (.worker i)).Ended → c.mem.closed = true ∧ c.mem.queue = []) ∧ ¬ Stuck c ∧
      (0 ≤ c.mem.waiters ∧ ∀ i, c.pc (.worker i) = .popTest → 1 ≤ c.mem.waiters) ∧
      (0 < n → c.pc .stopper = .stopReturned → ∀ task ∈ admitted c.mem.log,
        c.mem.started.count task = 1 ∧ c.mem.finished.count task = 1) := by
  have hordered := ordered_of_reachable h
  have hsettled := settled_of_reachable h
  have hcounted := waitersCounted_of_reachable h
  have hnodup := (fresh_of_reachable h).nodup.sublist (admitted_sublist c.mem.log)
  refine ⟨?_, hnodup, fun i => hsettled.ended _, not_stuck h, ⟨?_, fun i hpc => ?_⟩, fun hn hreturned task hmem => ?_⟩
  · exact ⟨_, by rw [← List.append_assoc]; exact hordered.order⟩
  · rw [hcounted]
    exact Int.natCast_nonneg _
  · have hwaiting : (c.pc (.worker i)).waiting = 1 := by
      rw [hpc]
      rfl
    have hle : (c.pc (.worker i)).waiting ≤ ∑ i, (c.pc (.worker i)).waiting :=
      Finset.single_le_sum (f := fun i => (c.pc (.worker i)).waiting) (fun _ _ => Nat.zero_le _) (Finset.mem_univ i)
    rw [hcounted]
    omega
  · have hjoined := joined_of_reachable h
    rw [hreturned] at hjoined
    have hexited : ∀ i, c.pc (.worker i) = .exited := fun i => hsettled.exited i (hjoined i)
    obtain ⟨hclosed, hempty⟩ := hsettled.ended (.worker ⟨0, hn⟩) (by rw [hexited]; trivial)
    have horder := hordered.order
    simp only [hclosed, hempty, if_true, List.append_nil] at horder
    have haccounted := accounted_of_reachable h task
    have hpopped := haccounted.popped
    have hstarted := haccounted.started
    simp only [hexited, Pc.taken, Pc.runs, List.count_nil, Finset.sum_const_zero, Nat.add_zero] at hpopped hstarted
    have hone := List.count_eq_one_of_mem hnodup hmem
    rw [← horder] at hone
    omega

/-- A client submits a task, the worker runs it, and `Stop` closes the queue and joins the worker. -/
theorem queue_drained_single :
    ∃ c, (system 1 Unit).Reachable c ∧ c.pc .stopper = .stopReturned ∧ admitted c.mem.log = [0] ∧
      c.mem.started.count 0 = 1 ∧ c.mem.finished.count 0 = 1 := by
  have h0 : (system 1 Unit).Reachable ⟨.start 1 Unit, Thread.start⟩ := .init ⟨rfl, fun _ => rfl⟩
  have h1 := h0.step ⟨.client (), _, _, .call, rfl⟩
  have h2 := h1.step ⟨.client (), _, _, .pushLock rfl, rfl⟩
  have h3 := h2.step ⟨.client (), _, _, .pushBack rfl, rfl⟩
  have h4 := h3.step ⟨.client (), _, _, .pushUnlock, rfl⟩
  have h5 := h4.step ⟨.worker 0, _, _, .popLock rfl, rfl⟩
  have h6 := h5.step ⟨.worker 0, _, _, .popEnter, rfl⟩
  have h7 := h6.step ⟨.worker 0, _, _, .popReady (.inl nofun), rfl⟩
  have h8 := h7.step ⟨.worker 0, _, _, .popFront rfl, rfl⟩
  have h9 := h8.step ⟨.worker 0, _, _, .run, rfl⟩
  have h10 := h9.step ⟨.worker 0, _, _, .finish, rfl⟩
  have h11 := h10.step ⟨.stopper, _, _, .stop, rfl⟩
  have h12 := h11.step ⟨.stopper, _, _, .closeLock rfl, rfl⟩
  have h13 := h12.step ⟨.stopper, _, _, .closeSet, rfl⟩
  have h14 := h13.step ⟨.stopper, _, _, .notifyAll, rfl⟩
  have h15 := h14.step ⟨.stopper, _, _, .closeUnlock, rfl⟩
  have h16 := h15.step ⟨.worker 0, _, _, .popLock rfl, rfl⟩
  have h17 := h16.step ⟨.worker 0, _, _, .popEnter, rfl⟩
  have h18 := h17.step ⟨.worker 0, _, _, .popReady (.inr rfl), rfl⟩
  have h19 := h18.step ⟨.worker 0, _, _, .popNull rfl rfl, rfl⟩
  have h20 := h19.step ⟨.worker 0, _, _, .exit, rfl⟩
  have h21 := h20.step ⟨.stopper, _, _, .join rfl, rfl⟩
  have hdrained := (queue_drained h21).2.2.2.2.2 Nat.one_pos rfl 0 (List.mem_singleton.2 rfl)
  exact ⟨_, h21, rfl, rfl, hdrained⟩

end Reachable

end CppConcur.Compute
