import CppConcur.Fiber.LifecycleInvariant

/-!
# Every fiber is at one place

For primitives that are `Lawful` each step moves at most one fiber, from the place where it is. There is one
lemma for each step, and the run lemma is last.
-/

namespace CppConcur.Fiber.Lifecycle

open Logic

variable {Fib Obj Tid Sch : Type} {C : Obj → Component (Call Fib)}

section Steps

variable [DecidableEq Fib] {s s' : State Tid Sch C} {t : Tid} {f : Fib} {o : Obj} {n : Nat}
  {rest : List (Obj × Nat)} {m' : (C o).Mem} {pc' : (C o).Pc}

/-- A fiber that runs is nowhere else. -/
theorem Sound.runs (h : Sound s) (hrun : s.worker t = .run f) (hstack : s.stack f = (o, n) :: rest) :
    (s.stage o (f, n)).Runs := by
  have hfound : s.Found (.running t) f := found_running.mpr (.inl hrun)
  cases hstage : s.stage o (f, n) with
  | code | user | woken => trivial
  | out => exact (h.frames.out_iff f o n).mp hstage (by simp [hstack])
  | awaiter =>
    obtain ⟨t', hawait⟩ := (h.threads.awaiter_iff f o n).mp hstage
    cases h.custody.unique hfound (found_awaiting.mpr ⟨_, hawait⟩)
  | parked => cases h.custody.unique hfound (found_parked.mpr hstage)

theorem Sound.not_queued (h : Sound s) {r : Place Tid Sch Obj} (hfound : s.Found r f) (hne : ∀ k, r ≠ .queued k)
    (k : Sch) : f ∉ s.queue k :=
  fun hmem => hne k (h.custody.unique hfound (found_queued.mpr hmem))

/-- The fiber has not ended, unless this is the end of `Run`. -/
theorem Sound.not_completed (h : Sound s) {r : Place Tid Sch Obj} (hfound : s.Found r f)
    (hne : ∀ t, r = .running t → s.worker t ≠ .exited f) : s.completed f ≠ true := by
  intro hcompleted
  rcases (h.threads.completed_iff f).mp hcompleted with ⟨t', hexited⟩ | hdeleted
  · exact hne t' (h.custody.unique hfound (found_running.mpr (.inr hexited))) hexited
  · exact hdeleted (h.custody.held_of_found hfound).2

theorem Sound.awaiter (h : Sound s) (hawait : s.worker t = .await f (some (o, n))) : s.stage o (f, n) = .awaiter :=
  (h.threads.awaiter_iff f o n).mpr ⟨t, hawait⟩

/-- One thread runs the awaiter of a fiber. -/
theorem Sound.await_unique (h : Sound s) {t' : Tid} {call call' : Option (Obj × Nat)}
    (hawait : s.worker t = .await f call) (hawait' : s.worker t' = .await f call') : t' = t := by
  cases h.custody.unique (found_awaiting.mpr ⟨_, hawait⟩) (found_awaiting.mpr ⟨_, hawait'⟩)
  rfl

/-- The fiber of an awaiter has not ended. -/
theorem Sound.stack_of_await (h : Sound s) (hawait : s.worker t = .await f (some (o, n))) :
    ∃ rest, s.stack f = (o, n) :: rest := by
  have hmem : (o, n) ∈ s.stack f := by
    by_contra hnot
    have := (h.frames.out_iff f o n).mpr hnot
    rw [h.awaiter hawait] at this
    cases this
  cases hstack : s.stack f with
  | nil =>
    rw [hstack] at hmem
    cases hmem
  | cons x rest =>
    rw [hstack] at hmem
    rcases List.mem_cons.mp hmem with rfl | htail
    · exact ⟨rest, rfl⟩
    · have := h.frames.user f (o, n) (by rwa [hstack])
      rw [show s.stage o (f, n) = _ from h.awaiter hawait] at this
      cases this

theorem Stage.Runs.ne_parked {st : Stage} (h : st.Runs) : st ≠ .parked := by
  rintro rfl
  exact h

theorem Stage.Runs.ne_awaiter {st : Stage} (h : st.Runs) : st ≠ .awaiter := by
  rintro rfl
  exact h

omit [DecidableEq Fib] in
theorem parked_iff (hself : s.stage o (f, n) ≠ .parked) (hself' : s'.stage o (f, n) ≠ .parked)
    (hrest : ∀ o' d, (o', d) ≠ (o, (f, n)) → s'.stage o' d = s.stage o' d) (o' : Obj) (d : Call Fib) :
    s'.stage o' d = .parked ↔ s.stage o' d = .parked := by
  by_cases hne : (o', d) = (o, (f, n))
  · cases hne
    exact iff_of_false hself' hself
  · rw [hrest o' d hne]

variable [DecidableEq Obj]

/-- A step of a call changes its own stage, and that of the call whose handle it schedules. -/
theorem stage_act_of_wakes (hC : ∀ o, (C o).Lawful) (h : Sound s)
    (hstep : (C o).step (f, n) (s.conf o).mem ((s.conf o).pc (f, n)) m' pc') {o' : Obj} {d : Call Fib}
    (hne : (o', d) ≠ (o, (f, n))) (hwakes : (o', some d) ≠ (o, s.wakes o (f, n))) :
    (s.act o (f, n) m' pc').stage o' d = s.stage o' d := by
  refine stage_act hne fun ho hd => (hC o).others _ (h.reachable o) _ _ _ hstep d hd fun heq => ?_
  exact hwakes (Prod.ext ho heq.symm)

theorem stage_act_of_wakes_none (hC : ∀ o, (C o).Lawful) (h : Sound s)
    (hstep : (C o).step (f, n) (s.conf o).mem ((s.conf o).pc (f, n)) m' pc') (hwakes : s.wakes o (f, n) = none)
    (o' : Obj) (d : Call Fib) (hne : (o', d) ≠ (o, (f, n))) : (s.act o (f, n) m' pc').stage o' d = s.stage o' d := by
  refine stage_act_of_wakes hC h hstep hne ?_
  rw [hwakes]
  exact nofun

variable [DecidableEq Sch]

/-- The fiber executes the code of a call. -/
theorem Sound.act_running (hC : ∀ o, (C o).Lawful) (h : Sound s) (hrun : s.worker t = .run f)
    (hstack : s.stack f = (o, n) :: rest)
    (hstep : (C o).step (f, n) (s.conf o).mem ((s.conf o).pc (f, n)) m' pc')
    (hs' : s' = (s.act o (f, n) m' pc').wake (s.wakes o (f, n))) :
    Custody s'.Live s'.Found ∧ Queues s' ∧ Touched s s' o (f, n) := by
  have hruns := h.runs hrun hstack
  rcases (hC o).code _ (h.reachable o) _ _ _ hstep hruns with ⟨hwakes, hmem⟩ | ⟨d, hd, hwakes, hparked, hwoken, hmem⟩
  · have hrest := stage_act_of_wakes_none hC h hstep hwakes
    have hself : (s.act o (f, n) m' pc').stage o (f, n) ≠ .parked := by
      rw [stage_act_self]
      intro heq
      simp [heq] at hmem
    rw [show s.wakes o (f, n) = none from hwakes] at hs'
    subst hs'
    exact ⟨custody_same h.custody (fun _ => Iff.rfl) (fun _ => rfl) rfl (parked_iff hruns.ne_parked hself hrest),
      ⟨h.queues.nodup, h.queues.scheduler⟩, fun o' d hd => .inl (hrest o' d hd)⟩
  · have hwakes : s.wakes o (f, n) = some d := hwakes
    have hself : (s.act o (f, n) m' pc').stage o (f, n) ≠ .parked := by
      rw [stage_act_self]
      intro heq
      simp [heq] at hmem
    have hd' : (s.act o (f, n) m' pc').stage o d = .woken := (stage_act_of_ne hd).trans hwoken
    have hrest (o' : Obj) (d' : Call Fib) (hc : (o', d') ≠ (o, (f, n))) (hd : (o', d') ≠ (o, d)) :
        (s.act o (f, n) m' pc').stage o' d' = s.stage o' d' := by
      refine stage_act_of_wakes hC h hstep hc ?_
      rw [hwakes]
      exact fun heq => hd (by cases heq; rfl)
    rw [hwakes] at hs'
    subst hs'
    have hqueued := h.not_queued (found_parked.mpr hparked) nofun
    refine ⟨custody_wake h.custody (fun _ => Iff.rfl) rfl mem_schedule_self (fun _ _ => mem_schedule_of_ne) hparked
      (n := d.2) ?_ ?_, Queues.schedule ⟨h.queues.nodup, h.queues.scheduler⟩ (hqueued _), fun o' d' hc => ?_⟩
    · show (s.act o (f, n) m' pc').stage o d ≠ .parked
      rw [hd']
      decide
    · intro o' d' hne
      show (s.act o (f, n) m' pc').stage o' d' = .parked ↔ _
      by_cases hc : (o', d') = (o, (f, n))
      · cases hc
        exact iff_of_false hself hruns.ne_parked
      · rw [hrest o' d' hc hne]
    · by_cases heq : (o', d') = (o, d)
      · cases heq
        exact .inr ⟨hparked, hd'⟩
      · exact .inl (hrest o' d' hc heq)

omit [DecidableEq Fib] [DecidableEq Obj] in
/-- To schedule a handle changes only the queues. -/
theorem exists_wake (s : State Tid Sch C) (d : Option (Call Fib)) : ∃ q, s.wake d = { s with queue := q } := by
  cases d with
  | none => exact ⟨s.queue, rfl⟩
  | some d => exact ⟨_, rfl⟩

theorem Sound.code (hC : ∀ o, (C o).Lawful) (h : Sound s) (hrun : s.worker t = .run f)
    (hstack : s.stack f = (o, n) :: rest)
    (hstep : (C o).step (f, n) (s.conf o).mem ((s.conf o).pc (f, n)) m' pc')
    (hstage : (C o).stage (f, n) m' pc' = .code ∨ (C o).stage (f, n) m' pc' = .user) :
    Sound ((s.act o (f, n) m' pc').wake (s.wakes o (f, n))) := by
  obtain ⟨hcustody, hqueues, htouched⟩ := h.act_running hC hrun hstack hstep rfl
  have hself : (s.act o (f, n) m' pc').stage o (f, n) = .code ∨ (s.act o (f, n) m' pc').stage o (f, n) = .user := by
    rw [stage_act_self]
    exact hstage
  obtain ⟨q, hq⟩ := exists_wake (s.act o (f, n) m' pc') (s.wakes o (f, n))
  rw [hq] at hcustody hqueues htouched ⊢
  refine ⟨hcustody, hqueues, h.frames.act hstack htouched ?_ rfl rfl,
    h.threads.act htouched ?_ (fun _ _ _ => Iff.rfl) (fun _ => Iff.rfl) rfl rfl rfl fun _ _ => id,
    reachable_act h.reachable (.step hstep)⟩
  · show (s.act o (f, n) m' pc').stage o (f, n) ≠ .out
    rcases hself with h | h <;> simp [h]
  · refine Iff.trans (iff_of_false ?_ (h.runs hrun hstack).ne_awaiter) (h.threads.awaiter_iff f o n)
    show (s.act o (f, n) m' pc').stage o (f, n) ≠ .awaiter
    rcases hself with h | h <;> simp [h]

theorem Sound.ret (hC : ∀ o, (C o).Lawful) (h : Sound s) (hrun : s.worker t = .run f)
    (hstack : s.stack f = (o, n) :: rest)
    (hstep : (C o).step (f, n) (s.conf o).mem ((s.conf o).pc (f, n)) m' pc')
    (hstage : (C o).stage (f, n) m' pc' = .out) :
    Sound (((s.act o (f, n) m' pc').wake (s.wakes o (f, n))).pop f) := by
  obtain ⟨hcustody, hqueues, htouched⟩ := h.act_running hC hrun hstack hstep rfl
  have hself : (s.act o (f, n) m' pc').stage o (f, n) = .out := stage_act_self.trans hstage
  obtain ⟨q, hq⟩ := exists_wake (s.act o (f, n) m' pc') (s.wakes o (f, n))
  rw [hq] at hcustody hqueues htouched ⊢
  refine ⟨custody_same hcustody (fun _ => Iff.rfl) (fun _ => rfl) rfl (fun _ _ => Iff.rfl),
    ⟨hqueues.nodup, hqueues.scheduler⟩, h.frames.ret hstack htouched hself rfl rfl,
    h.threads.act htouched ?_ (fun _ _ _ => Iff.rfl) (fun _ => Iff.rfl) rfl rfl rfl ?_,
    reachable_act h.reachable (.step hstep)⟩
  · refine Iff.trans (iff_of_false ?_ (h.runs hrun hstack).ne_awaiter) (h.threads.awaiter_iff f o n)
    show (s.act o (f, n) m' pc').stage o (f, n) ≠ .awaiter
    simp [hself]
  · intro u _ hu
    show Function.update s.stack f (s.stack f).tail u = []
    by_cases huf : u = f
    · subst huf
      simp [hu]
    · rw [Function.update_of_ne huf, hu]

theorem Sound.await (hC : ∀ o, (C o).Lawful) (h : Sound s) (hawait : s.worker t = .await f (some (o, n)))
    (hstep : (C o).step (f, n) (s.conf o).mem ((s.conf o).pc (f, n)) m' pc')
    (hstage : (C o).stage (f, n) m' pc' = .awaiter) :
    Sound ((s.act o (f, n) m' pc').wake (s.wakes o (f, n))) := by
  have hold := h.awaiter hawait
  obtain ⟨rest, hstack⟩ := h.stack_of_await hawait
  have hwakes : s.wakes o (f, n) = none := by
    rcases (hC o).awaiter _ (h.reachable o) _ _ _ hstep hold with ⟨hwakes, _⟩ | ⟨_, hwoken⟩
    · exact hwakes
    · rw [hstage] at hwoken
      cases hwoken
  have hrest := stage_act_of_wakes_none hC h hstep hwakes
  have hself : (s.act o (f, n) m' pc').stage o (f, n) = .awaiter := stage_act_self.trans hstage
  have htouched : Touched s (s.act o (f, n) m' pc') o (f, n) := fun o' d hd => .inl (hrest o' d hd)
  have hparked := parked_iff (hold.trans_ne (by decide)) (hself.trans_ne (by decide)) hrest
  rw [hwakes]
  exact ⟨custody_same h.custody (fun _ => Iff.rfl) (fun _ => rfl) rfl hparked,
    ⟨h.queues.nodup, h.queues.scheduler⟩, h.frames.act hstack htouched (hself.trans_ne (by decide)) rfl rfl,
    h.threads.act htouched (iff_of_true hself ⟨t, hawait⟩) (fun _ _ _ => Iff.rfl) (fun _ => Iff.rfl) rfl rfl rfl
      fun _ _ => id,
    reachable_act h.reachable (.step hstep)⟩

variable [DecidableEq Tid]

omit [DecidableEq Fib] [DecidableEq Obj] [DecidableEq Sch] in
theorem goto_worker_of_ne {w : Worker Fib Obj} {t' : Tid} (ht : t' ≠ t) : (s.goto t w).worker t' = s.worker t' :=
  Function.update_of_ne ht _ _

omit [DecidableEq Fib] [DecidableEq Obj] [DecidableEq Sch] in
theorem goto_worker_self {w : Worker Fib Obj} : (s.goto t w).worker t = w :=
  Function.update_self _ _ _

theorem Sound.suspend (hC : ∀ o, (C o).Lawful) (h : Sound s) (hrun : s.worker t = .run f)
    (hstack : s.stack f = (o, n) :: rest)
    (hstep : (C o).step (f, n) (s.conf o).mem ((s.conf o).pc (f, n)) m' pc')
    (hstage : (C o).stage (f, n) m' pc' = .awaiter) :
    Sound (((s.act o (f, n) m' pc').wake (s.wakes o (f, n))).goto t (.await f (some (o, n)))) := by
  have hruns := h.runs hrun hstack
  -- a step that schedules a handle does not suspend
  have hwakes : s.wakes o (f, n) = none := by
    rcases (hC o).code _ (h.reachable o) _ _ _ hstep hruns with ⟨hwakes, _⟩ | ⟨d, _, _, _, _, hmem⟩
    · exact hwakes
    · simp [hstage] at hmem
  have hrest := stage_act_of_wakes_none hC h hstep hwakes
  have hself : (s.act o (f, n) m' pc').stage o (f, n) = .awaiter := stage_act_self.trans hstage
  have htouched : Touched s (s.act o (f, n) m' pc') o (f, n) := fun o' d hd => .inl (hrest o' d hd)
  have hparked := parked_iff hruns.ne_parked (by rw [hself]; decide) hrest
  rw [hwakes]
  refine ⟨custody_suspend h.custody (fun _ => Iff.rfl) hrun goto_worker_self (fun _ => goto_worker_of_ne) rfl hparked,
    ⟨h.queues.nodup, h.queues.scheduler⟩, h.frames.act hstack htouched (hself.trans_ne (by decide)) rfl rfl,
    h.threads.act htouched (iff_of_true hself ⟨t, goto_worker_self⟩) ?_ ?_ rfl rfl rfl fun _ _ => id,
    reachable_act h.reachable (.step hstep)⟩
  · intro u x hne
    refine exists_worker_congr (· = .await u (some x)) hrun nofun ?_
    exact fun heq => hne (by cases heq; exact ⟨rfl, rfl⟩)
  · intro u
    exact exists_worker_congr (· = .exited u) hrun nofun nofun

/-- The awaiter schedules the handle or gives it to the primitive. -/
theorem Sound.act_awaiting (hC : ∀ o, (C o).Lawful) (h : Sound s) (hawait : s.worker t = .await f (some (o, n)))
    (hstep : (C o).step (f, n) (s.conf o).mem ((s.conf o).pc (f, n)) m' pc')
    (hstage : (C o).stage (f, n) m' pc' ≠ .awaiter)
    (hs' : s' = ((s.act o (f, n) m' pc').wake (s.wakes o (f, n))).goto t (.leave o (f, n))) :
    Custody s'.Live s'.Found ∧ Queues s' ∧ s'.stage o (f, n) ≠ .out ∧
      ∀ o' d, (o', d) ≠ (o, (f, n)) → s'.stage o' d = s.stage o' d := by
  have hold : s.stage o (f, n) ≠ .parked := (h.awaiter hawait).trans_ne (by decide)
  rcases (hC o).awaiter _ (h.reachable o) _ _ _ hstep (h.awaiter hawait) with ⟨hwakes, hmem⟩ | ⟨hwakes, hwoken⟩
  · have hself : (s.act o (f, n) m' pc').stage o (f, n) = .parked := by
      rw [stage_act_self]
      simpa [hstage] using hmem
    have hrest := stage_act_of_wakes_none hC h hstep hwakes
    rw [show s.wakes o (f, n) = none from hwakes] at hs'
    subst hs'
    refine ⟨?_, ⟨h.queues.nodup, h.queues.scheduler⟩, hself.trans_ne (by decide), hrest⟩
    refine custody_park h.custody (fun _ => Iff.rfl) hawait goto_worker_self nofun (fun _ => goto_worker_of_ne) rfl
      hself fun o' d hne => ?_
    exact Eq.congr_left (hrest o' d hne)
  · have hwakes : s.wakes o (f, n) = some (f, n) := hwakes
    have hself : (s.act o (f, n) m' pc').stage o (f, n) = .woken := stage_act_self.trans hwoken
    have hrest (o' : Obj) (d : Call Fib) (hne : (o', d) ≠ (o, (f, n))) :
        (s.act o (f, n) m' pc').stage o' d = s.stage o' d := by
      refine stage_act_of_wakes hC h hstep hne ?_
      rw [hwakes]
      exact fun heq => hne (by cases heq; rfl)
    rw [hwakes] at hs'
    subst hs'
    have hqueued := h.not_queued (found_awaiting.mpr ⟨_, hawait⟩) nofun (s.scheduler f)
    have hqueues : Queues (s.act o (f, n) m' pc') := ⟨h.queues.nodup, h.queues.scheduler⟩
    have hqueues' := hqueues.schedule hqueued
    refine ⟨?_, ⟨hqueues'.nodup, hqueues'.scheduler⟩, hself.trans_ne (by decide), hrest⟩
    exact custody_reschedule h.custody (fun _ => Iff.rfl) hawait goto_worker_self nofun (fun _ => goto_worker_of_ne)
      (mem_schedule_self (s := s)) (fun _ _ => mem_schedule_of_ne (s := s))
      (parked_iff hold (hself.trans_ne (by decide)) hrest)

theorem Sound.handOver (hC : ∀ o, (C o).Lawful) (h : Sound s) (hawait : s.worker t = .await f (some (o, n)))
    (hstep : (C o).step (f, n) (s.conf o).mem ((s.conf o).pc (f, n)) m' pc')
    (hstage : (C o).stage (f, n) m' pc' ≠ .awaiter) :
    Sound (((s.act o (f, n) m' pc').wake (s.wakes o (f, n))).goto t (.leave o (f, n))) := by
  obtain ⟨hcustody, hqueues, hout, hrest⟩ := h.act_awaiting hC hawait hstep hstage rfl
  obtain ⟨rest, hstack⟩ := h.stack_of_await hawait
  obtain ⟨q, hq⟩ := exists_wake (s.act o (f, n) m' pc') (s.wakes o (f, n))
  have hself : (s.act o (f, n) m' pc').stage o (f, n) ≠ .awaiter := by
    rw [stage_act_self]
    exact hstage
  rw [hq] at hcustody hqueues hout hrest ⊢
  refine ⟨hcustody, hqueues, h.frames.act hstack (fun o' d hd => .inl (hrest o' d hd)) hout rfl rfl,
    h.threads.act (fun o' d hd => .inl (hrest o' d hd)) (iff_of_false hself ?_) ?_ ?_ rfl rfl rfl fun _ _ => id,
    reachable_act h.reachable (.step hstep)⟩
  · -- no other thread runs this awaiter
    rintro ⟨t', ht'⟩
    by_cases ht : t' = t
    · subst ht
      rw [goto_worker_self] at ht'
      cases ht'
    · rw [goto_worker_of_ne ht] at ht'
      exact ht (h.await_unique hawait ht')
  · intro u x hne
    refine exists_worker_congr (· = .await u (some x)) hawait ?_ nofun
    exact fun heq => hne (by cases heq; exact ⟨rfl, rfl⟩)
  · intro u
    exact exists_worker_congr (· = .exited u) hawait nofun nofun

omit [DecidableEq Tid] [DecidableEq Sch] in
theorem Sound.call (hC : ∀ o, (C o).Lawful) (h : Sound s) (hrun : s.worker t = .run f) (huser : s.InUser f)
    (henter : (C o).enter (f, s.calls f) (s.conf o).mem ((s.conf o).pc (f, s.calls f)) m' pc') :
    Sound ((s.act o (f, s.calls f) m' pc').push f o) := by
  obtain ⟨hout, hcode, hothers⟩ := (hC o).enter _ (h.reachable o) _ _ _ henter
  have hself : (s.act o (f, s.calls f) m' pc').stage o (f, s.calls f) = .code := stage_act_self.trans hcode
  have hrest (o' : Obj) (d : Call Fib) (hne : (o', d) ≠ (o, (f, s.calls f))) :
      (s.act o (f, s.calls f) m' pc').stage o' d = s.stage o' d :=
    stage_act hne fun _ hd => hothers d hd
  have hout : s.stage o (f, s.calls f) = .out := hout
  refine ⟨custody_same h.custody (fun _ => Iff.rfl) (fun _ => rfl) rfl
      (parked_iff (hout.trans_ne (by decide)) (hself.trans_ne (by decide)) hrest),
    ⟨h.queues.nodup, h.queues.scheduler⟩, h.frames.call huser hrest hself rfl rfl,
    h.threads.act (fun o' d hd => .inl (hrest o' d hd)) ?_ (fun _ _ _ => Iff.rfl) (fun _ => Iff.rfl) rfl rfl rfl ?_,
    reachable_act h.reachable (.enter henter)⟩
  · refine Iff.trans (iff_of_false (hself.trans_ne (by decide)) ?_) (h.threads.awaiter_iff f o _)
    exact hout.trans_ne (by decide)
  · intro u hcompleted hu
    have huf : u ≠ f := by
      rintro rfl
      exact h.not_completed (found_running.mpr (.inl hrun)) (fun t' heq => by cases heq; simp [hrun]) hcompleted
    exact (Function.update_of_ne huf _ _).trans hu

omit [DecidableEq Obj] [DecidableEq Sch] in
theorem Sound.yield (h : Sound s) (hrun : s.worker t = .run f) : Sound (s.goto t (.await f none)) := by
  refine ⟨custody_suspend h.custody (fun _ => Iff.rfl) hrun goto_worker_self (fun _ => goto_worker_of_ne) rfl
      (fun _ _ => Iff.rfl),
    ⟨h.queues.nodup, h.queues.scheduler⟩,
    ⟨h.frames.number_lt, h.frames.nodup, h.frames.out_iff, h.frames.user⟩,
    h.threads.congr (fun _ _ => rfl) (fun u x => ?_) (fun u => ?_) rfl rfl (fun _ => id) rfl, h.reachable⟩
  · exact exists_worker_congr (· = .await u (some x)) hrun nofun nofun
  · exact exists_worker_congr (· = .exited u) hrun nofun nofun

omit [DecidableEq Obj] in
theorem Sound.yieldAwait (h : Sound s) (hawait : s.worker t = .await f none) :
    Sound ((s.goto t .idle).schedule f) := by
  have hqueued := h.not_queued (found_awaiting.mpr ⟨_, hawait⟩) nofun (s.scheduler f)
  have hqueues : Queues (s.goto t .idle) := ⟨h.queues.nodup, h.queues.scheduler⟩
  refine ⟨custody_reschedule h.custody (fun _ => Iff.rfl) hawait goto_worker_self nofun (fun _ => goto_worker_of_ne)
      (mem_schedule_self (s := s)) (fun _ _ => mem_schedule_of_ne (s := s)) (fun _ _ => Iff.rfl),
    hqueues.schedule hqueued, ⟨h.frames.number_lt, h.frames.nodup, h.frames.out_iff, h.frames.user⟩,
    h.threads.congr (fun _ _ => rfl) (fun u x => ?_) (fun u => ?_) rfl rfl (fun _ => id) rfl, h.reachable⟩
  · exact exists_worker_congr (· = .await u (some x)) hawait nofun nofun
  · exact exists_worker_congr (· = .exited u) hawait nofun nofun

omit [DecidableEq Sch] in
theorem Sound.leave (hC : ∀ o, (C o).Lawful) (h : Sound s) {c : Call Fib} (hworker : s.worker t = .leave o c) :
    Sound ((s.setConf o ⟨(C o).leave c (s.conf o).mem, (s.conf o).pc⟩).goto t .idle) := by
  have hstage (o' : Obj) (d : Call Fib) :
      (s.setConf o ⟨(C o).leave c (s.conf o).mem, (s.conf o).pc⟩).stage o' d = s.stage o' d := by
    by_cases ho : o' = o
    · subst ho
      simp only [State.stage, State.setConf, Function.update_self]
      exact (hC o').leave c d _ _
    · simp only [State.stage, State.setConf, Function.update_of_ne ho]
  refine ⟨custody_same h.custody (fun _ => Iff.rfl) (fun t' => ?_) rfl (fun o' d => Eq.congr_left (hstage o' d)),
    ⟨h.queues.nodup, h.queues.scheduler⟩, ⟨h.frames.number_lt, h.frames.nodup, fun u o' n' => ?_, fun u x hx => ?_⟩,
    h.threads.congr hstage (fun u x => ?_) (fun u => ?_) rfl rfl (fun _ => id) rfl, fun o' => ?_⟩
  · by_cases ht : t' = t
    · subst ht
      rw [goto_worker_self, hworker]
      rfl
    · rw [goto_worker_of_ne ht]
      rfl
  · exact (Eq.congr_left (hstage o' (u, n'))).trans (h.frames.out_iff u o' n')
  · exact (hstage x.1 (u, x.2)).trans (h.frames.user u x hx)
  · exact exists_worker_congr (· = .await u (some x)) hworker (by simp) (by simp)
  · exact exists_worker_congr (· = .exited u) hworker (by simp) (by simp)
  · show (C o').system.Reachable (Function.update s.conf o _ o')
    by_cases ho : o' = o
    · subst ho
      rw [Function.update_self]
      exact (h.reachable o').step (.leave c)
    · rw [Function.update_of_ne ho]
      exact h.reachable o'

omit [DecidableEq Obj] in
theorem Sound.run (h : Sound s) {k : Sch} (hidle : s.worker t = .idle) (hmem : f ∈ s.queue k) :
    Sound { s.goto t (.run f) with queue := Function.update s.queue k ((s.queue k).erase f) } := by
  have hqueue (k' : Sch) (u : Fib) (hne : (k', u) ≠ (k, f)) :
      u ∈ Function.update s.queue k ((s.queue k).erase f) k' ↔ u ∈ s.queue k' := by
    by_cases hk : k' = k
    · subst hk
      have hu : u ≠ f := fun heq => hne (heq ▸ rfl)
      rw [Function.update_self]
      exact List.mem_erase_of_ne hu
    · rw [Function.update_of_ne hk]
  have hout : f ∉ Function.update s.queue k ((s.queue k).erase f) k := by
    rw [Function.update_self]
    exact (h.queues.nodup k).not_mem_erase
  have hsub (k' : Sch) : (Function.update s.queue k ((s.queue k).erase f) k').Sublist (s.queue k') := by
    by_cases hk : k' = k
    · subst hk
      rw [Function.update_self]
      exact List.erase_sublist
    · rw [Function.update_of_ne hk]
  refine ⟨custody_run h.custody (fun _ => Iff.rfl) hidle goto_worker_self (fun _ => goto_worker_of_ne) hmem hout hqueue
      (fun _ _ => Iff.rfl),
    ⟨fun k' => (h.queues.nodup k').sublist (hsub k'), fun k' u hu => h.queues.scheduler k' u ((hsub k').subset hu)⟩,
    ⟨h.frames.number_lt, h.frames.nodup, h.frames.out_iff, h.frames.user⟩,
    h.threads.congr (fun _ _ => rfl) (fun u x => ?_) (fun u => ?_) rfl rfl (fun _ => id) rfl, h.reachable⟩
  · exact exists_worker_congr (· = .await u (some x)) hidle nofun nofun
  · exact exists_worker_congr (· = .exited u) hidle nofun nofun

omit [DecidableEq Obj] [DecidableEq Tid] in
theorem Sound.go (h : Sound s) (k : Sch) (hborn : s.born f = false) :
    Sound (State.schedule
      { s with born := Function.update s.born f true, scheduler := Function.update s.scheduler f k } f) := by
  have hnew : ¬ s.Live f := fun hlive => by simp [hlive.1] at hborn
  have hqueued (k' : Sch) : f ∉ s.queue k' := fun hmem => h.custody.not_found hnew (found_queued.mpr hmem)
  have hdeleted : s.deleted f = 0 := by
    by_contra hne
    simp [h.threads.born f hne] at hborn
  have hqueues : Queues { s with
      born := Function.update s.born f true, scheduler := Function.update s.scheduler f k } := by
    refine ⟨h.queues.nodup, fun k' u hu => ?_⟩
    have huf : u ≠ f := fun heq => hqueued k' (heq ▸ hu)
    exact (Function.update_of_ne huf _ _).trans (h.queues.scheduler k' u hu)
  refine ⟨custody_go h.custody hnew ⟨Function.update_self _ _ _, hdeleted⟩ (fun u hu => ?_) rfl mem_schedule_self
      (fun _ _ => mem_schedule_of_ne) (fun _ _ => Iff.rfl),
    hqueues.schedule (hqueued _), ⟨h.frames.number_lt, h.frames.nodup, h.frames.out_iff, h.frames.user⟩,
    h.threads.congr (fun _ _ => rfl) (fun _ _ => Iff.rfl) (fun _ => Iff.rfl) rfl rfl (fun u hu => ?_) rfl, h.reachable⟩
  · show Function.update s.born f true u = true ∧ _ ↔ _
    rw [Function.update_of_ne hu]
    rfl
  · show Function.update s.born f true u = true
    by_cases huf : u = f
    · rw [huf, Function.update_self]
    · rw [Function.update_of_ne huf, hu]

omit [DecidableEq Obj] [DecidableEq Sch] in
theorem Sound.finish (h : Sound s) (hrun : s.worker t = .run f) (hstack : s.stack f = []) :
    Sound { s.goto t (.exited f) with completed := Function.update s.completed f true } := by
  refine ⟨custody_same h.custody (fun _ => Iff.rfl) (fun t' => ?_) rfl (fun _ _ => Iff.rfl),
    ⟨h.queues.nodup, h.queues.scheduler⟩,
    ⟨h.frames.number_lt, h.frames.nodup, h.frames.out_iff, h.frames.user⟩,
    ⟨fun u o n => ?_, fun u => ?_, h.threads.deleted_le, h.threads.born, fun u hu => ?_⟩, h.reachable⟩
  · by_cases ht : t' = t
    · subst ht
      rw [show _ = Worker.exited f from goto_worker_self, hrun]
      rfl
    · rw [show _ = s.worker t' from goto_worker_of_ne ht]
  · refine (h.threads.awaiter_iff u o n).trans (Iff.symm ?_)
    exact exists_worker_congr (· = .await u (some (o, n))) hrun nofun nofun
  · show Function.update s.completed f true u = true ↔ _
    by_cases huf : u = f
    · subst huf
      rw [Function.update_self]
      exact iff_of_true rfl (.inl ⟨t, goto_worker_self⟩)
    · rw [Function.update_of_ne huf, h.threads.completed_iff]
      refine or_congr_left (Iff.symm ?_)
      refine exists_worker_congr (· = .exited u) hrun nofun ?_
      exact fun heq => huf (by cases heq; rfl)
  · by_cases huf : u = f
    · rw [huf]
      exact hstack
    · exact h.threads.stack_nil u ((Function.update_of_ne huf _ _).symm.trans hu)

omit [DecidableEq Obj] [DecidableEq Sch] in
theorem Sound.delete (h : Sound s) (hexited : s.worker t = .exited f) :
    Sound { s.goto t .idle with deleted := Function.update s.deleted f (s.deleted f + 1) } := by
  have hlive : s.Live f := h.custody.held_of_found (found_running.mpr (.inr hexited))
  have hzero : s.deleted f + 1 = 1 := by rw [hlive.2]
  rw [hzero]
  refine ⟨custody_delete h.custody (fun hlive' => ?_) (fun u hu => ?_) hexited goto_worker_self
      (fun _ => goto_worker_of_ne) rfl (fun _ _ => Iff.rfl),
    ⟨h.queues.nodup, h.queues.scheduler⟩,
    ⟨h.frames.number_lt, h.frames.nodup, h.frames.out_iff, h.frames.user⟩,
    ⟨fun u o n => ?_, fun u => ?_, fun u => ?_, fun u hu => ?_, h.threads.stack_nil⟩, h.reachable⟩
  · have : Function.update s.deleted f 1 f = 0 := hlive'.2
    rw [Function.update_self] at this
    cases this
  · show _ ∧ Function.update s.deleted f 1 u = 0 ↔ _
    rw [Function.update_of_ne hu]
    rfl
  · refine (h.threads.awaiter_iff u o n).trans (Iff.symm ?_)
    exact exists_worker_congr (· = .await u (some (o, n))) hexited nofun nofun
  · show s.completed u = true ↔ _ ∨ Function.update s.deleted f 1 u ≠ 0
    by_cases huf : u = f
    · subst huf
      rw [Function.update_self]
      exact iff_of_true ((h.threads.completed_iff u).mpr (.inl ⟨t, hexited⟩)) (.inr (by decide))
    · rw [Function.update_of_ne huf, h.threads.completed_iff]
      refine or_congr_left (Iff.symm ?_)
      refine exists_worker_congr (· = .exited u) hexited ?_ nofun
      exact fun heq => huf (by cases heq; rfl)
  · show Function.update s.deleted f 1 u ≤ 1
    by_cases huf : u = f
    · subst huf
      exact Nat.le_of_eq (Function.update_self _ _ _)
    · rw [Function.update_of_ne huf]
      exact h.threads.deleted_le u
  · by_cases huf : u = f
    · rw [huf]
      exact hlive.1
    · exact h.threads.born u ((Function.update_of_ne huf 1 s.deleted).symm.trans_ne hu)

/-- Every step keeps each fiber at one place. -/
theorem Sound.step (hC : ∀ o, (C o).Lawful) (h : Sound s) (hstep : Step s s') : Sound s' := by
  cases hstep with
  | go k hborn => exact h.go k hborn
  | run hworker hmem => exact h.run hworker hmem
  | yield hworker _ => exact h.yield hworker
  | yieldAwait hworker => exact h.yieldAwait hworker
  | call hworker huser henter => exact h.call hC hworker huser henter
  | code hworker hstack hstep hstage => exact h.code hC hworker hstack hstep hstage
  | ret hworker hstack hstep hstage => exact h.ret hC hworker hstack hstep hstage
  | suspend hworker hstack hstep hstage => exact h.suspend hC hworker hstack hstep hstage
  | await hworker hstep hstage => exact h.await hC hworker hstep hstage
  | handOver hworker hstep hstage => exact h.handOver hC hworker hstep hstage
  | leave hworker => exact h.leave hC hworker
  | finish hworker hstack => exact h.finish hworker hstack
  | delete hworker => exact h.delete hworker

omit [DecidableEq Obj] [DecidableEq Sch] [DecidableEq Tid] in
theorem sound_initial (hC : ∀ o, (C o).Lawful) (k : Sch) : Sound (initial k : State Tid Sch C) := by
  have hout (o : Obj) (c : Call Fib) : (initial k : State Tid Sch C).stage o c = .out := (hC o).init c
  have hfound (r : Place Tid Sch Obj) (f : Fib) : ¬ (initial k : State Tid Sch C).Found r f := by
    intro hfound
    cases hfound with
    | thread h => cases h
    | queued h => cases h
    | parked h =>
      rw [hout] at h
      cases h
  refine ⟨⟨fun hp => absurd hp (hfound _ _), fun f => iff_of_false nofun fun ⟨r, hr⟩ => hfound r f hr⟩,
    ⟨fun _ => List.nodup_nil, nofun⟩, ⟨nofun, fun _ => List.nodup_nil, fun f o n => ?_, nofun⟩,
    ⟨fun f o n => ?_, fun f => iff_of_false nofun ?_, fun f => Nat.zero_le _, fun f hf => absurd rfl hf, nofun⟩,
    fun o => .init rfl⟩
  · exact iff_of_true (hout o (f, n)) List.not_mem_nil
  · rw [hout]
    exact iff_of_false nofun nofun
  · rintro (⟨t, h⟩ | h)
    · cases h
    · exact h rfl

/-- In every reachable state each fiber is at one place. -/
theorem sound_of_reachable (hC : ∀ o, (C o).Lawful) (h : (system Tid Sch C).Reachable s) : Sound s := by
  apply h.invariant
  · rintro _ ⟨k, rfl⟩
    exact sound_initial hC k
  · intro s s' _ hs hstep
    exact hs.step hC hstep

end Steps

end CppConcur.Fiber.Lifecycle
