import CppConcur.Coro.SpinLocks

/-!
# Threads that wait for themselves

A thread that is about to take a spinlock which a call further down its own stack holds will spin
forever. It cannot happen as long as no locked section runs a coroutine: then the call that holds a
spinlock is the innermost one of its thread. It does happen when a waiter without a scheduler is
resumed from inside `Unlock` and gives the mutex back.
-/

namespace CppConcur.Coro

open Logic

variable {Tid Cid Oid : Type} {kind : Oid → Kind}

/-- The call holds the spinlock of the primitive. -/
def Frame.Holds (o : Oid) : Frame Oid Cid → Prop
  | .call o' _ .held => o' = o
  | .call o' _ .waking => o' = o
  | .call o' _ .closing => o' = o
  | _ => False

/-- The thread is about to run a coroutine from inside a locked section: the next waiter that `Unlock`,
or the loop of `Done`, schedules has no scheduler, or has `sched::Inline()`. -/
def RunsInside (m : Mem Tid Cid Oid) : List (Frame Oid Cid) → Prop
  | .call o .unlock .held :: _ => ∃ w ws, (m.obj o).waiters = w :: ws ∧ m.sched w ≠ .queue
  | .call o .done .waking :: _ => ∃ w w' ws, (m.obj o).waiters = w :: w' :: ws ∧ m.sched w ≠ .queue
  | _ => False

/-- Frames that hold no spinlock. -/
def Quiet (fs : List (Frame Oid Cid)) : Prop := ∀ f ∈ fs, ∀ o, ¬ f.Holds o

/-- The thread holds no spinlock, or its innermost call holds the only one. -/
inductive Disciplined (m : Mem Tid Cid Oid) (t : Tid) : List (Frame Oid Cid) → Prop
  | clean {fs : List (Frame Oid Cid)} (hquiet : Quiet fs) (hspin : ∀ o, m.spin o ≠ some t) :
      Disciplined m t fs
  | holding {f : Frame Oid Cid} {fs : List (Frame Oid Cid)} {o : Oid} (hf : f.Holds o)
      (hquiet : Quiet fs) (hspin : ∀ o', m.spin o' = some t → o' = o) : Disciplined m t (f :: fs)

/-! ### Frames -/

section Frames

variable {m m' : Mem Tid Cid Oid} {fs fs' : List (Frame Oid Cid)} {f : Frame Oid Cid} {t : Tid}

theorem Quiet.append (h : Quiet fs) (h' : Quiet fs') : Quiet (fs ++ fs') :=
  fun f hf => (List.mem_append.mp hf).elim (h f) (h' f)

theorem Quiet.cons (hf : ∀ o, ¬ f.Holds o) (h : Quiet fs) : Quiet (f :: fs) := by
  intro g hg
  obtain rfl | hg := List.mem_cons.mp hg
  · exact hf
  · exact h g hg

theorem Quiet.tail (h : Quiet (f :: fs)) : Quiet fs :=
  fun g hg => h g (List.mem_cons_of_mem f hg)

theorem quiet_nil : Quiet ([] : List (Frame Oid Cid)) :=
  fun _ hf => absurd hf List.not_mem_nil

theorem quiet_enter {o : Oid} {k : Call Cid} : Quiet [Frame.call o k .enter] :=
  quiet_nil.cons fun _ => id

theorem quiet_resumed (o : Oid) (c : Cid) : Quiet (resumed kind o c) := by
  intro f hf o'
  unfold resumed at hf
  split at hf
  all_goals
    simp only [List.mem_cons, List.not_mem_nil, or_false] at hf
  · rcases hf with rfl | rfl | rfl <;> exact id
  · rw [hf]
    exact id
  · rw [hf]
    exact id

theorem quiet_acquired (o : Oid) : Quiet (acquired kind o : List (Frame Oid Cid)) := by
  intro f hf o'
  unfold acquired at hf
  split at hf
  · simp only [List.mem_cons, List.not_mem_nil, or_false] at hf
    rcases hf with rfl | rfl <;> exact id
  · exact absurd hf List.not_mem_nil
  · exact absurd hf List.not_mem_nil

theorem quiet_frames (task : Task Oid Cid) : Quiet (task.frames kind) := by
  cases task with
  | waiter o c => exact quiet_resumed o c
  | jumped c =>
    intro f hf o
    rw [List.mem_singleton.mp hf]
    exact id

theorem Frame.Holds.eq {o o' : Oid} (h : f.Holds o) (h' : f.Holds o') : o = o' := by
  cases f with
  | code => exact h.elim
  | call o'' k st =>
    cases st with
    | held | waking | closing => exact Eq.trans (Eq.symm h) h'
    | enter | last => exact h.elim

theorem Disciplined.of_not_holds (h : Disciplined m t (f :: fs)) (hf : ∀ o, ¬ f.Holds o) :
    Quiet fs ∧ ∀ o, m.spin o ≠ some t := by
  cases h with
  | clean hquiet hspin => exact ⟨hquiet.tail, hspin⟩
  | holding hholds => exact absurd hholds (hf _)

theorem Disciplined.of_holds {o : Oid} (h : Disciplined m t (f :: fs)) (hf : f.Holds o) :
    Quiet fs ∧ ∀ o', m.spin o' = some t → o' = o := by
  cases h with
  | clean hquiet => exact absurd hf (hquiet _ List.mem_cons_self o)
  | holding hholds hquiet hspin =>
    refine ⟨hquiet, fun o' ho' => ?_⟩
    rw [hspin o' ho', hholds.eq hf]

theorem Disciplined.of_free (h : Disciplined m t fs) (hfree : Free fs) :
    Quiet fs ∧ ∀ o, m.spin o ≠ some t := by
  cases h with
  | clean hquiet hspin => exact ⟨hquiet, hspin⟩
  | holding hholds =>
    cases hfree
    exact hholds.elim

/-- What another thread does to the spinlocks does not give one to this thread. -/
theorem Disciplined.mono (h : Disciplined m t fs)
    (hspin : ∀ o, m'.spin o = some t → m.spin o = some t) : Disciplined m' t fs := by
  cases h with
  | clean hquiet hnone => exact .clean hquiet fun o ho => hnone o (hspin o ho)
  | holding hf hquiet hone => exact .holding hf hquiet fun o ho => hone o (hspin o ho)

/-- A call that holds no spinlock is made or returns. -/
theorem Disciplined.push (h : Disciplined m t (f :: fs)) (hf : ∀ o, ¬ f.Holds o) {gs : List (Frame Oid Cid)}
    (hgs : Quiet gs) (hspin : m'.spin = m.spin) : Disciplined m' t (gs ++ f :: fs) := by
  obtain ⟨hquiet, hnone⟩ := h.of_not_holds hf
  exact .clean (hgs.append (hquiet.cons hf)) (hspin ▸ hnone)

theorem Disciplined.pop (h : Disciplined m t (f :: fs)) (hf : ∀ o, ¬ f.Holds o) {gs : List (Frame Oid Cid)}
    (hgs : Quiet gs) (hspin : m'.spin = m.spin) : Disciplined m' t (gs ++ fs) := by
  obtain ⟨hquiet, hnone⟩ := h.of_not_holds hf
  exact .clean (hgs.append hquiet) (hspin ▸ hnone)

variable [DecidableEq Oid]

/-- The innermost call gives its spinlock back. -/
theorem Disciplined.release {o : Oid} (h : Disciplined m t (f :: fs)) (hf : f.Holds o)
    {gs : List (Frame Oid Cid)} (hgs : Quiet gs) (hspin : m'.spin = Function.update m.spin o none) :
    Disciplined m' t (gs ++ fs) := by
  obtain ⟨hquiet, hone⟩ := h.of_holds hf
  refine .clean (hgs.append hquiet) ?_
  intro o' ho'
  rw [hspin] at ho'
  rcases eq_or_ne o' o with rfl | hne
  · rw [Function.update_self] at ho'
    cases ho'
  · rw [Function.update_of_ne hne] at ho'
    exact hne (hone o' ho')

/-- The innermost call gives its spinlock back and suspends the coroutine that made it. -/
theorem Disciplined.suspend {o : Oid} {c : Option Cid} (h : Disciplined m t (f :: .code c :: fs))
    (hf : f.Holds o) (hspin : m'.spin = Function.update m.spin o none) : Disciplined m' t fs := by
  have hcode : Disciplined m' t (.code c :: fs) := h.release hf quiet_nil hspin
  exact hcode.pop (fun _ => id) quiet_nil rfl

theorem spin_of_release {o o' : Oid} {u : Tid} (h : (Function.update m.spin o none) o' = some u) :
    m.spin o' = some u := by
  rcases eq_or_ne o' o with rfl | hne
  · rw [Function.update_self] at h
    cases h
  · rwa [Function.update_of_ne hne] at h

end Frames

/-! ### Steps -/

section Steps

variable [DecidableEq Oid] [DecidableEq Cid] {m m' : Mem Tid Cid Oid} {fs fs' : List (Frame Oid Cid)}
  {t : Tid}

/-- A step changes the spinlocks only for the thread itself. -/
theorem Act.spin_other (h : Act kind t m fs m' fs') {u : Tid} (hu : u ≠ t) {o : Oid}
    (hspin : m'.spin o = some u) : m.spin o = some u := by
  cases h with
  | await | unlock | add | done | wait | start | run | ret | jumpQueue | jumpInline | unlockInline
  | doneZero | wakeQueue | wakeInline | lastQueue | lastInline => exact hspin
  | @lock o' k fs hfree =>
    have hupdate : Function.update m.spin o' (some t) o = some u := hspin
    rcases eq_or_ne o o' with rfl | hne
    · rw [Function.update_self] at hupdate
      exact absurd (Option.some.inj hupdate).symm hu
    · rwa [Function.update_of_ne hne] at hupdate
  | lockFree | lockPark | unlockEmpty | unlockQueue | unlockClose | addBody | doneReturn | wakeLast
  | waitReturn | waitPark => exact spin_of_release hspin

/-- A thread that runs no coroutine from inside a locked section keeps its spinlock innermost. -/
theorem Act.disciplined (h : Act kind t m fs m' fs') (hinside : ¬ RunsInside m fs)
    (hd : Disciplined m t fs) : Disciplined m' t fs' := by
  cases h with
  | await | unlock | add | done | wait => exact hd.push (fun _ => id) quiet_enter rfl
  | start hfree =>
    obtain ⟨hquiet, hnone⟩ := hd.of_free hfree
    exact .clean (hquiet.cons fun _ => id) hnone
  | run hfree hqueued =>
    obtain ⟨hquiet, hnone⟩ := hd.of_free hfree
    exact .clean ((quiet_frames _).append hquiet) hnone
  | ret | jumpQueue => exact hd.pop (fun _ => id) quiet_nil rfl
  | jumpInline => exact hd.push (fun _ => id) quiet_nil rfl
  | @lock o k fs hfree =>
    obtain ⟨hquiet, hnone⟩ := hd.of_not_holds fun _ => id
    refine .holding (o := o) rfl hquiet ?_
    intro o' ho'
    by_contra hne
    have hold : m.spin o' = some t := by
      rw [← ho']
      exact (Function.update_of_ne hne _ _).symm
    exact hnone o' hold
  | lockFree => exact hd.release rfl (quiet_acquired _) rfl
  | lockPark | waitPark => exact hd.suspend rfl rfl
  | unlockEmpty | unlockQueue | unlockClose | addBody | doneReturn | waitReturn =>
    exact hd.release rfl quiet_nil rfl
  | unlockInline hwaiters hsched => exact absurd ⟨_, _, hwaiters, hsched⟩ hinside
  | doneZero | wakeQueue =>
    obtain ⟨hquiet, hone⟩ := hd.of_holds rfl
    exact .holding rfl hquiet hone
  | wakeInline hwaiters hsched => exact absurd ⟨_, _, _, hwaiters, hsched⟩ hinside
  | wakeLast => exact hd.release rfl (quiet_nil.cons fun _ => id) rfl
  | lastQueue => exact hd.pop (fun _ => id) quiet_nil rfl
  | lastInline => exact hd.pop (fun _ => id) (quiet_resumed _ _) rfl

variable [DecidableEq Tid]

/-- The runs in which no thread runs a coroutine from inside a locked section. -/
def outsideSystem (Tid Cid : Type) {Oid : Type} [DecidableEq Tid] [DecidableEq Cid] [DecidableEq Oid]
    (kind : Oid → Kind) : System (Conf Tid (Mem Tid Cid Oid) (List (Frame Oid Cid))) :=
  Program.system (fun t m fs m' fs' => Act kind t m fs m' fs' ∧ ¬ RunsInside m fs) Initial

theorem disciplined_of_reachable {c : Conf Tid (Mem Tid Cid Oid) (List (Frame Oid Cid))}
    (h : (outsideSystem Tid Cid kind).Reachable c) (t : Tid) : Disciplined c.mem t (c.pc t) := by
  revert t
  apply h.invariant
  · intro c hinit t
    obtain ⟨hobj, _, hpc⟩ := hinit
    rw [hpc t]
    refine .clean quiet_nil ?_
    intro o
    rw [(hobj o).2]
    exact nofun
  · intro c c' _ hd hstep u
    obtain ⟨t, m', fs', ⟨hact, hinside⟩, rfl⟩ := hstep
    rcases eq_or_ne u t with rfl | hne
    · simp only [Function.update_self]
      exact hact.disciplined hinside (hd u)
    · simp only [ne_eq, hne, not_false_eq_true, Function.update_of_ne]
      exact (hd u).mono fun o ho => hact.spin_other hne ho

end Steps

/-! ### One thread, a mutex and two coroutines -/

section Run

variable [DecidableEq Oid] [DecidableEq Cid] {m m' : Mem Unit Cid Oid} {fs fs' : List (Frame Oid Cid)}

theorem Act.reachable (hact : Act kind () m fs m' fs')
    (h : (system Unit Cid kind).Reachable ⟨m, fun _ => fs⟩) :
    (system Unit Cid kind).Reachable ⟨m', fun _ => fs'⟩ :=
  .step h ⟨(), m', fs', hact, by rw [Function.update_eq_const_of_subsingleton]; rfl⟩

theorem Act.reachable_outside (hact : Act kind () m fs m' fs')
    (h : (outsideSystem Unit Cid kind).Reachable ⟨m, fun _ => fs⟩) (hinside : ¬ RunsInside m fs) :
    (outsideSystem Unit Cid kind).Reachable ⟨m', fun _ => fs'⟩ :=
  .step h ⟨(), m', fs', ⟨hact, hinside⟩, by rw [Function.update_eq_const_of_subsingleton]; rfl⟩

end Run

/-! ### The discipline of the schedulers -/

/-- As long as every waiter that `Unlock`, or the loop of `Done`, schedules inside its locked section
has a scheduler that only enqueues, no thread comes to take a spinlock that it holds. -/
theorem no_self_deadlock [DecidableEq Oid] [DecidableEq Cid] [DecidableEq Tid]
    {c : Conf Tid (Mem Tid Cid Oid) (List (Frame Oid Cid))}
    (h : (outsideSystem Tid Cid kind).Reachable c) {t : Tid} {o : Oid} {k : Call Cid}
    {fs : List (Frame Oid Cid)} (hpc : c.pc t = .call o k .enter :: fs) : c.mem.spin o ≠ some t := by
  have hd := disciplined_of_reachable h t
  rw [hpc] at hd
  exact (hd.of_not_holds fun _ => id).2 o

/-- A coroutine that jumped to a scheduler which enqueues waits for the mutex, is handed it by
`Unlock`, and gives it back. -/
theorem no_self_deadlock_queue :
    ∃ c : Conf Unit (Mem Unit Bool Unit) (List (Frame Unit Bool)),
      (outsideSystem Unit Bool fun _ : Unit => .scopedLock).Reachable c ∧
        c.pc () = [.call () .unlock .enter, .code (some false), .code (some true)] ∧
          c.mem.spin () ≠ some () := by
  have h₀ : (outsideSystem Unit Bool fun _ : Unit => .scopedLock).Reachable
      ⟨⟨fun _ => ⟨false, 0, []⟩, fun _ => none, fun _ => .null, []⟩, fun _ => []⟩ :=
    .init ⟨fun _ => ⟨rfl, rfl⟩, rfl, fun _ => rfl⟩
  have h₁ := (Act.start (c := false) .idle).reachable_outside h₀ id
  have h₂ := Act.jumpQueue.reachable_outside h₁ id
  have h₃ := (Act.start (c := true) .idle).reachable_outside h₂ id
  have h₄ := (Act.await (o := ()) (by decide)).reachable_outside h₃ id
  have h₅ := (Act.lock rfl).reachable_outside h₄ id
  have h₆ := (Act.lockFree rfl).reachable_outside h₅ id
  have h₇ := (Act.run (.code _ _) (List.nil_append (_ :: _)).symm).reachable_outside h₆ id
  have h₈ := (Act.await (o := ()) (by decide)).reachable_outside h₇ id
  have h₉ := (Act.lock rfl).reachable_outside h₈ id
  have h₁₀ := (Act.lockPark rfl).reachable_outside h₉ id
  have h₁₁ := (Act.unlock (o := ()) rfl).reachable_outside h₁₀ id
  have h₁₂ := (Act.lock rfl).reachable_outside h₁₁ id
  have h₁₃ := (Act.unlockQueue rfl rfl).reachable_outside h₁₂ <| by
    intro hinside
    obtain ⟨w, ws, hwaiters, hsched⟩ := hinside
    cases hwaiters
    exact hsched rfl
  have h₁₄ := (Act.run (.code _ _) (List.nil_append (_ :: _)).symm).reachable_outside h₁₃ id
  have h₁₅ := (Act.unlock (o := ()) rfl).reachable_outside h₁₄ id
  exact ⟨_, h₁₅, rfl, no_self_deadlock h₁₅ rfl⟩

/-- A coroutine that never jumped waits for the mutex. `Unlock` resumes it with the spinlock held, and
it calls `Unlock` when it leaves its critical section. -/
theorem self_deadlock_null :
    ∃ c : Conf Unit (Mem Unit Bool Unit) (List (Frame Unit Bool)),
      (system Unit Bool fun _ : Unit => .scopedLock).Reachable c ∧
        c.pc () = [.call () .unlock .enter, .code (some false), .call () .unlock .closing, .code (some true)] ∧
          c.mem.spin () = some () := by
  have h₀ : (system Unit Bool fun _ : Unit => .scopedLock).Reachable
      ⟨⟨fun _ => ⟨false, 0, []⟩, fun _ => none, fun _ => .null, []⟩, fun _ => []⟩ :=
    .init ⟨fun _ => ⟨rfl, rfl⟩, rfl, fun _ => rfl⟩
  have h₁ := (Act.start (c := true) .idle).reachable h₀
  have h₂ := (Act.await (o := ()) (by decide)).reachable h₁
  have h₃ := (Act.lock rfl).reachable h₂
  have h₄ := (Act.lockFree rfl).reachable h₃
  have h₅ := (Act.start (c := false) (.code _ _)).reachable h₄
  have h₆ := (Act.await (o := ()) (by decide)).reachable h₅
  have h₇ := (Act.lock rfl).reachable h₆
  have h₈ := (Act.lockPark rfl).reachable h₇
  have h₉ := (Act.unlock (o := ()) rfl).reachable h₈
  have h₁₀ := (Act.lock rfl).reachable h₉
  have h₁₁ := (Act.unlockInline rfl (by decide)).reachable h₁₀
  have h₁₂ := (Act.unlock (o := ()) rfl).reachable h₁₁
  exact ⟨_, h₁₂, rfl, rfl⟩

end CppConcur.Coro
