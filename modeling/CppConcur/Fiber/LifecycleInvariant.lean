import CppConcur.Fiber.LifecyclePlaces

/-!
# The invariant of the fibers

Besides the places, what is kept is that the code of a fiber goes on where it has been suspended: the calls on
its stack are those that have not returned, and all but the innermost one are in a function of the user. Each
part of the invariant has its own lemmas about what a step changes.
-/

namespace CppConcur.Fiber.Lifecycle

open Logic

variable {Fib Obj Tid Sch : Type} {C : Obj → Component (Call Fib)}

/-- A fiber is in the queue of its scheduler only, and there once. -/
structure Queues (s : State Tid Sch C) : Prop where
  nodup : ∀ k, (s.queue k).Nodup
  scheduler : ∀ k, ∀ f ∈ s.queue k, s.scheduler f = k

/-- The calls on the stack of a fiber are those that have not returned, and those below the top have called a
function of the user. -/
structure Stacks (s : State Tid Sch C) : Prop where
  number_lt : ∀ f, ∀ x ∈ s.stack f, x.2 < s.calls f
  nodup : ∀ f, (s.stack f).Nodup
  out_iff : ∀ f o n, s.stage o (f, n) = .out ↔ (o, n) ∉ s.stack f
  user : ∀ f, ∀ x ∈ (s.stack f).tail, s.stage x.1 (f, x.2) = .user

/-- The awaiters that run, and the fibers that have ended. -/
structure Threads (s : State Tid Sch C) : Prop where
  awaiter_iff : ∀ f o n, s.stage o (f, n) = .awaiter ↔ ∃ t, s.worker t = .await f (some (o, n))
  completed_iff : ∀ f, s.completed f = true ↔ (∃ t, s.worker t = .exited f) ∨ s.deleted f ≠ 0
  deleted_le : ∀ f, s.deleted f ≤ 1
  born : ∀ f, s.deleted f ≠ 0 → s.born f = true
  stack_nil : ∀ f, s.completed f = true → s.stack f = []

/-- What holds in every state. -/
structure Sound [DecidableEq Fib] (s : State Tid Sch C) : Prop where
  custody : Custody s.Live s.Found
  queues : Queues s
  frames : Stacks s
  threads : Threads s
  reachable : ∀ o, (C o).system.Reachable (s.conf o)

section Queues

variable [DecidableEq Sch] {s : State Tid Sch C} {f : Fib}

theorem mem_schedule {k : Sch} {u : Fib} :
    u ∈ (s.schedule f).queue k ↔ u ∈ s.queue k ∨ k = s.scheduler f ∧ u = f := by
  by_cases hk : k = s.scheduler f
  · subst hk
    simp [State.schedule]
  · simp [State.schedule, hk]

theorem mem_schedule_self : f ∈ (s.schedule f).queue (s.scheduler f) :=
  mem_schedule.mpr (.inr ⟨rfl, rfl⟩)

theorem mem_schedule_of_ne {k : Sch} {u : Fib} (hne : (k, u) ≠ (s.scheduler f, f)) :
    u ∈ (s.schedule f).queue k ↔ u ∈ s.queue k := by
  rw [mem_schedule]
  exact or_iff_left fun heq => hne (Prod.ext heq.1 heq.2)

theorem Queues.schedule (h : Queues s) (hf : f ∉ s.queue (s.scheduler f)) : Queues (s.schedule f) where
  nodup k := by
    by_cases hk : k = s.scheduler f
    · subst hk
      simp only [State.schedule, Function.update_self]
      exact List.nodup_append.mpr ⟨h.nodup _, List.nodup_singleton f, by
        intro u hu v hv
        rw [List.mem_singleton.mp hv]
        exact fun heq => hf (heq ▸ hu)⟩
    · simp only [State.schedule, Function.update_of_ne hk]
      exact h.nodup k
  scheduler k u hu := by
    rcases mem_schedule.mp hu with hu | ⟨rfl, rfl⟩
    · exact h.scheduler k u hu
    · rfl

end Queues

section Stacks

variable {s s' : State Tid Sch C} {f : Fib} {o : Obj} {n : Nat} {rest : List (Obj × Nat)}

/-- The step of a call changes the stages of no other calls, except that a handle is scheduled. -/
def Touched (s s' : State Tid Sch C) (o : Obj) (c : Call Fib) : Prop :=
  ∀ o' d, (o', d) ≠ (o, c) → s'.stage o' d = s.stage o' d ∨ s.stage o' d = .parked ∧ s'.stage o' d = .woken

theorem call_inj {u : Fib} {x : Obj × Nat} : (x.1, (u, x.2)) = (o, (f, n)) ↔ u = f ∧ x = (o, n) := by
  simp only [Prod.ext_iff]
  exact and_left_comm

theorem Touched.iff (h : Touched s s' o (f, n)) (st : Stage) (hparked : st ≠ .parked) (hwoken : st ≠ .woken)
    {o' : Obj} {d : Call Fib} (hne : (o', d) ≠ (o, (f, n))) : s'.stage o' d = st ↔ s.stage o' d = st := by
  rcases h o' d hne with h | ⟨h, h'⟩
  · rw [h]
  · rw [h, h']
    exact iff_of_false hwoken.symm hparked.symm

/-- A call below the top of a stack is not the one on top. -/
theorem Stacks.ne_of_mem_tail (h : Stacks s) (hstack : s.stack f = (o, n) :: rest) {u : Fib} {x : Obj × Nat}
    (hx : x ∈ (s.stack u).tail) : (x.1, (u, x.2)) ≠ (o, (f, n)) := by
  intro heq
  obtain ⟨rfl, rfl⟩ := call_inj.mp heq
  have hnodup := h.nodup u
  rw [hstack] at hx hnodup
  exact (List.nodup_cons.mp hnodup).1 hx

/-- The call on top goes on. -/
theorem Stacks.act (h : Stacks s) (hstack : s.stack f = (o, n) :: rest) (htouched : Touched s s' o (f, n))
    (hout : s'.stage o (f, n) ≠ .out) (hstack' : s'.stack = s.stack) (hcalls : s'.calls = s.calls) : Stacks s' where
  number_lt := by
    rw [hstack', hcalls]
    exact h.number_lt
  nodup := by
    rw [hstack']
    exact h.nodup
  out_iff u o' n' := by
    rw [hstack']
    by_cases hne : (o', (u, n')) = (o, (f, n))
    · cases hne
      exact iff_of_false hout fun hnot => hnot (by simp [hstack])
    · rw [htouched.iff .out (by decide) (by decide) hne]
      exact h.out_iff u o' n'
  user u x hx := by
    rw [hstack'] at hx
    rw [htouched.iff .user (by decide) (by decide) (h.ne_of_mem_tail hstack hx)]
    exact h.user u x hx

/-- The call on top returns. -/
theorem Stacks.ret [DecidableEq Fib] (h : Stacks s) (hstack : s.stack f = (o, n) :: rest)
    (htouched : Touched s s' o (f, n)) (hout : s'.stage o (f, n) = .out)
    (hstack' : s'.stack = Function.update s.stack f (s.stack f).tail) (hcalls : s'.calls = s.calls) : Stacks s' := by
  have hsub (u : Fib) : (s'.stack u).Sublist (s.stack u) := by
    rw [hstack']
    by_cases hu : u = f
    · subst hu
      rw [Function.update_self]
      exact List.tail_sublist _
    · rw [Function.update_of_ne hu]
  refine ⟨fun u x hx => ?_, fun u => (h.nodup u).sublist (hsub u), fun u o' n' => ?_, fun u x hx => ?_⟩
  · rw [hcalls]
    exact h.number_lt u x ((hsub u).subset hx)
  · by_cases hne : (o', (u, n')) = (o, (f, n))
    · cases hne
      have hnodup := h.nodup f
      rw [hstack] at hnodup
      rw [hstack', Function.update_self, hstack]
      exact iff_of_true hout (List.nodup_cons.mp hnodup).1
    · rw [htouched.iff .out (by decide) (by decide) hne, h.out_iff, hstack']
      by_cases hu : u = f
      · subst hu
        rw [Function.update_self, hstack, List.tail_cons, List.mem_cons]
        have : (o', n') ≠ (o, n) := fun heq => hne (by cases heq; rfl)
        simp [this]
      · rw [Function.update_of_ne hu]
  · have hmem : x ∈ (s.stack u).tail := by
      rw [hstack'] at hx
      by_cases hu : u = f
      · subst hu
        rw [Function.update_self] at hx
        exact List.mem_of_mem_tail hx
      · rw [Function.update_of_ne hu] at hx
        exact hx
    rw [htouched.iff .user (by decide) (by decide) (h.ne_of_mem_tail hstack hmem)]
    exact h.user u x hmem

/-- A call is made. -/
theorem Stacks.call [DecidableEq Fib] (h : Stacks s) (huser : s.InUser f)
    (htouched : ∀ o' d, (o', d) ≠ (o, (f, s.calls f)) → s'.stage o' d = s.stage o' d)
    (hcode : s'.stage o (f, s.calls f) = .code)
    (hstack' : s'.stack = Function.update s.stack f ((o, s.calls f) :: s.stack f))
    (hcalls : s'.calls = Function.update s.calls f (s.calls f + 1)) : Stacks s' := by
  have hnew : (o, s.calls f) ∉ s.stack f := fun hmem => absurd (h.number_lt f _ hmem) (Nat.lt_irrefl _)
  refine ⟨fun u x hx => ?_, fun u => ?_, fun u o' n' => ?_, fun u x hx => ?_⟩
  all_goals rw [hstack'] at *
  all_goals by_cases hu : u = f
  · subst hu
    rw [Function.update_self] at hx
    rw [hcalls, Function.update_self]
    rcases List.mem_cons.mp hx with rfl | hx
    · exact Nat.lt_succ_self _
    · exact Nat.lt_succ_of_lt (h.number_lt u x hx)
  · rw [Function.update_of_ne hu] at hx
    rw [hcalls, Function.update_of_ne hu]
    exact h.number_lt u x hx
  · subst hu
    rw [Function.update_self]
    exact List.nodup_cons.mpr ⟨hnew, h.nodup u⟩
  · rw [Function.update_of_ne hu]
    exact h.nodup u
  · subst hu
    rw [Function.update_self, List.mem_cons]
    by_cases hne : (o', n') = (o, s.calls u)
    · cases hne
      rw [hcode]
      simp
    · rw [htouched o' (u, n') fun heq => hne (by cases heq; rfl), h.out_iff]
      simp [hne]
  · rw [Function.update_of_ne hu, htouched o' (u, n') fun heq => hu (by cases heq; rfl)]
    exact h.out_iff u o' n'
  · subst hu
    rw [Function.update_self, List.tail_cons] at hx
    have hne : x ≠ (o, s.calls u) := fun heq => hnew (heq ▸ hx)
    rw [htouched x.1 (u, x.2) fun heq => hne (call_inj.mp heq).2]
    cases hstack : s.stack u with
    | nil =>
      rw [hstack] at hx
      cases hx
    | cons y rest =>
      rw [hstack] at hx
      rcases List.mem_cons.mp hx with rfl | hx
      · exact huser _ _ rest hstack
      · exact h.user u x (by rwa [hstack])
  · rw [Function.update_of_ne hu] at hx
    rw [htouched x.1 (u, x.2) fun heq => hu (call_inj.mp heq).1]
    exact h.user u x hx

end Stacks

section Threads

variable {s s' : State Tid Sch C} {t : Tid} {w w' : Worker Fib Obj}

/-- One thread has changed, from a state that does not matter to one that does not matter. -/
theorem exists_worker_congr [DecidableEq Tid] (P : Worker Fib Obj → Prop) (hworker : s.worker t = w) (hold : ¬ P w)
    (hnew : ¬ P w') : (∃ t', P (Function.update s.worker t w' t')) ↔ ∃ t', P (s.worker t') := by
  refine exists_congr fun t' => ?_
  by_cases ht : t' = t
  · subst ht
    rw [hworker, Function.update_self]
    exact iff_of_false hnew hold
  · rw [Function.update_of_ne ht]

/-- No call is made, goes on or returns, and no fiber ends. -/
theorem Threads.congr (h : Threads s) (hstage : ∀ o c, s'.stage o c = s.stage o c)
    (hawait : ∀ f x, (∃ t, s'.worker t = .await f (some x)) ↔ ∃ t, s.worker t = .await f (some x))
    (hexited : ∀ f, (∃ t, s'.worker t = .exited f) ↔ ∃ t, s.worker t = .exited f)
    (hcompleted : s'.completed = s.completed) (hdeleted : s'.deleted = s.deleted)
    (hborn : ∀ f, s.born f = true → s'.born f = true) (hstack : s'.stack = s.stack) : Threads s' where
  awaiter_iff f o n := by
    rw [hstage, hawait]
    exact h.awaiter_iff f o n
  completed_iff f := by
    rw [hcompleted, hexited, hdeleted]
    exact h.completed_iff f
  deleted_le := by
    rw [hdeleted]
    exact h.deleted_le
  born f hf := hborn f (h.born f (hdeleted ▸ hf))
  stack_nil := by
    rw [hcompleted, hstack]
    exact h.stack_nil

/-- A call goes on, by itself or by its awaiter. -/
theorem Threads.act (h : Threads s) {o : Obj} {f : Fib} {n : Nat} (htouched : Touched s s' o (f, n))
    (hself : s'.stage o (f, n) = .awaiter ↔ ∃ t, s'.worker t = .await f (some (o, n)))
    (hawait : ∀ u x, ¬ (u = f ∧ x = (o, n)) →
      ((∃ t, s'.worker t = .await u (some x)) ↔ ∃ t, s.worker t = .await u (some x)))
    (hexited : ∀ u, (∃ t, s'.worker t = .exited u) ↔ ∃ t, s.worker t = .exited u)
    (hcompleted : s'.completed = s.completed) (hdeleted : s'.deleted = s.deleted) (hborn : s'.born = s.born)
    (hstack : ∀ u, s.completed u = true → s.stack u = [] → s'.stack u = []) : Threads s' where
  awaiter_iff u o' n' := by
    by_cases heq : u = f ∧ (o', n') = (o, n)
    · obtain ⟨rfl, heq⟩ := heq
      cases heq
      exact hself
    · rw [htouched.iff .awaiter (by decide) (by decide) fun h => heq (call_inj.mp h), hawait u (o', n') heq]
      exact h.awaiter_iff u o' n'
  completed_iff u := by
    rw [hcompleted, hexited, hdeleted]
    exact h.completed_iff u
  deleted_le := by
    rw [hdeleted]
    exact h.deleted_le
  born := by
    rw [hdeleted, hborn]
    exact h.born
  stack_nil u hu := hstack u (hcompleted ▸ hu) (h.stack_nil u (hcompleted ▸ hu))

end Threads

section Act

variable [DecidableEq Fib] [DecidableEq Obj] {s : State Tid Sch C} {o o' : Obj} {c d : Call Fib}
  {m' : (C o).Mem} {pc' : (C o).Pc}

theorem stage_act_self : (s.act o c m' pc').stage o c = (C o).stage c m' pc' := by
  simp [State.stage, State.act, State.setConf]

theorem stage_act_of_ne (hd : d ≠ c) : (s.act o c m' pc').stage o d = (C o).stage d m' ((s.conf o).pc d) := by
  simp [State.stage, State.act, State.setConf, hd]

theorem stage_act_other (ho : o' ≠ o) : (s.act o c m' pc').stage o' d = s.stage o' d := by
  simp [State.stage, State.act, State.setConf, ho]

/-- A call that the step does not change. -/
theorem stage_act (hne : (o', d) ≠ (o, c))
    (hrest : o' = o → d ≠ c → (C o).stage d m' ((s.conf o).pc d) = s.stage o d) :
    (s.act o c m' pc').stage o' d = s.stage o' d := by
  by_cases ho : o' = o
  · subst ho
    have hd : d ≠ c := fun heq => hne (heq ▸ rfl)
    rw [stage_act_of_ne hd, hrest rfl hd]
  · exact stage_act_other ho

theorem reachable_act (hreachable : ∀ o, (C o).system.Reachable (s.conf o))
    (hstep : (C o).system.step (s.conf o) ⟨m', Function.update (s.conf o).pc c pc'⟩) (o' : Obj) :
    (C o').system.Reachable ((s.act o c m' pc').conf o') := by
  by_cases ho : o' = o
  · subst ho
    simp only [State.act, State.setConf, Function.update_self]
    exact (hreachable o').step hstep
  · simp only [State.act, State.setConf, Function.update_of_ne ho]
    exact hreachable o'

end Act

end CppConcur.Fiber.Lifecycle
