import CppConcur.Fiber.GuardedHandles
import CppConcur.Fiber.LifecycleSafety
import CppConcur.Fiber.StrandHandles

/-!
# The life of fibers that use the primitives

Fibers that use any number of mutexes, events, wait groups, buffered channels and strands. The primitives are
`Lawful`, so that every fiber is at one place, and what `Fiber::Run` does follows from the places.
-/

namespace CppConcur.Fiber.Lifecycle

open Logic

/-- The classes of primitives. -/
inductive Kind
  | mutex
  | event
  | waitGroup
  | channel (capacity : Nat)
  | strand

section Kind

variable {Fib : Type} [DecidableEq Fib]

def Kind.component : Kind → Component (Call Fib)
  | .mutex => Guarded.Mutex.primitive.component
  | .event => Guarded.Event.primitive.component
  | .waitGroup => Guarded.WaitGroup.primitive.component
  | .channel capacity => (Guarded.Channel.primitive capacity).component
  | .strand => Strand.component

theorem Kind.lawful (kind : Kind) : (kind.component : Component (Call Fib)).Lawful := by
  cases kind with
  | mutex | event | waitGroup | channel => exact Guarded.lawful _
  | strand => exact Strand.lawful

end Kind

variable {Fib Obj Tid Sch : Type} {C : Obj → Component (Call Fib)}

/-- Where the fibers are in a state. -/
structure AtOnePlace (s : State Tid Sch C) : Prop where
  live : ∀ f, s.Live f → ∃! r, s.Found r f
  gone : ∀ f, ¬ s.Live f → ∀ r, ¬ s.Found r f
  /-- a scheduler has a fiber once, and only its own fibers -/
  queue_nodup : ∀ k, (s.queue k).Nodup
  queue_scheduler : ∀ k, ∀ f ∈ s.queue k, s.scheduler f = k
  /-- a fiber that is suspended in a primitive has one handle, and the other fibers have none -/
  handle : ∀ o f n, s.Found (.parked o n) f → ∃! spot, (C o).holds (s.conf o).mem (s.conf o).pc (f, n) spot
  held : ∀ o f n spot, (C o).holds (s.conf o).mem (s.conf o).pc (f, n) spot → s.Found (.parked o n) f

/-- What a step does to the life of the fibers. -/
structure OneLife (s s' : State Tid Sch C) : Prop where
  /-- the coroutine is resumed when it is on no thread and has not ended -/
  resume : ∀ t f, s.worker t ≠ .run f → s'.worker t = .run f →
    f ∈ s.queue (s.scheduler f) ∧ s.completed f = false ∧ s.deleted f = 0 ∧ ∀ t', ¬ s.Found (.running t') f
  /-- the body ends in a call of `Run` -/
  complete : ∀ f, s.completed f = false → s'.completed f = true → ∃ t, s.worker t = .run f ∧ s'.worker t = .exited f
  /-- that call goes on to delete the fiber -/
  exited : ∀ t f, s.worker t = .exited f →
    s.completed f = true ∧ s.deleted f = 0 ∧ (s'.worker t = .exited f ∨ s'.worker t = .idle ∧ s'.deleted f = 1)
  /-- and nobody else deletes it -/
  delete : ∀ f, s'.deleted f ≠ s.deleted f →
    s.deleted f = 0 ∧ s'.deleted f = 1 ∧ ∃ t, s.worker t = .exited f ∧ s'.worker t = .idle

/-! ### What a step does on the threads -/

section Turn

variable [DecidableEq Fib] [DecidableEq Tid] {s s' : State Tid Sch C}

/-- A thread begins to run a fiber, the body of a fiber ends, a fiber is deleted, or nothing of this happens. -/
inductive Turn (s s' : State Tid Sch C) : Prop
  | run (t : Tid) (k : Sch) (f : Fib) (hmem : f ∈ s.queue k) (hidle : s.worker t = .idle)
      (hworker : s'.worker = Function.update s.worker t (.run f)) (hcompleted : s'.completed = s.completed)
      (hdeleted : s'.deleted = s.deleted)
  | finish (t : Tid) (f : Fib) (hrun : s.worker t = .run f)
      (hworker : s'.worker = Function.update s.worker t (.exited f))
      (hcompleted : s'.completed = Function.update s.completed f true) (hdeleted : s'.deleted = s.deleted)
  | delete (t : Tid) (f : Fib) (hexited : s.worker t = .exited f)
      (hworker : s'.worker = Function.update s.worker t .idle) (hcompleted : s'.completed = s.completed)
      (hdeleted : s'.deleted = Function.update s.deleted f (s.deleted f + 1))
  | other (hworker : ∀ t, s'.worker t = s.worker t ∨
        (∀ f, s.worker t ≠ .exited f) ∧ (∀ f, s'.worker t ≠ .run f))
      (hcompleted : s'.completed = s.completed) (hdeleted : s'.deleted = s.deleted)

/-- A thread goes on to something else than a fiber. -/
theorem turn_goto {t : Tid} {w w' : Worker Fib Obj} (hold : s.worker t = w)
    (hworker : s'.worker = Function.update s.worker t w') (hexited : ∀ f, w ≠ .exited f) (hrun : ∀ f, w' ≠ .run f)
    (hcompleted : s'.completed = s.completed) (hdeleted : s'.deleted = s.deleted) : Turn s s' := by
  refine .other (fun t' => ?_) hcompleted hdeleted
  rw [hworker]
  by_cases ht : t' = t
  · subst ht
    rw [hold, Function.update_self]
    exact .inr ⟨hexited, hrun⟩
  · rw [Function.update_of_ne ht]
    exact .inl rfl

/-! ### The life of a fiber -/

omit [DecidableEq Tid] in
theorem Sound.atOnePlace (hC : ∀ o, (C o).Lawful) (h : Sound s) : AtOnePlace s where
  live _ hf := h.custody.existsUnique hf
  gone _ hf _ := h.custody.not_found hf
  queue_nodup := h.queues.nodup
  queue_scheduler := h.queues.scheduler
  handle o _ _ hfound := (hC o).parked _ (h.reachable o) _ (found_parked.mp hfound)
  held o _ _ spot hspot := found_parked.mpr ((hC o).held _ (h.reachable o) _ spot hspot)

/-- A thread begins to run a fiber only if that fiber is in its queue. -/
theorem Sound.resume (h : Sound s) (hturn : Turn s s') (t : Tid) (f : Fib) (hold : s.worker t ≠ .run f)
    (hnew : s'.worker t = .run f) :
    f ∈ s.queue (s.scheduler f) ∧ s.completed f = false ∧ s.deleted f = 0 ∧ ∀ t', ¬ s.Found (.running t') f := by
  have hupdate {t' : Tid} {w : Worker Fib Obj} (hworker : s'.worker = Function.update s.worker t' w) : t = t' ∧ w = .run f := by
    rw [hworker] at hnew
    by_cases ht : t = t'
    · subst ht
      rw [Function.update_self] at hnew
      exact ⟨rfl, hnew⟩
    · rw [Function.update_of_ne ht] at hnew
      exact absurd hnew hold
  cases hturn with
  | run t' k f' hmem hidle hworker =>
    obtain ⟨rfl, heq⟩ := hupdate hworker
    cases heq
    have hfound : s.Found (.queued k) f := found_queued.mpr hmem
    have hcompleted := h.not_completed hfound nofun
    refine ⟨?_, by simpa using hcompleted, (h.custody.held_of_found hfound).2, fun t' hrunning => ?_⟩
    · rw [h.queues.scheduler k f hmem]
      exact hmem
    · cases h.custody.unique hfound hrunning
  | finish t' f' hrun hworker => cases (hupdate hworker).2
  | delete t' f' hexited hworker => cases (hupdate hworker).2
  | other hworker =>
    rcases hworker t with hsame | ⟨_, hne⟩
    · exact absurd (hsame.symm.trans hnew) hold
    · exact absurd hnew (hne f)

theorem Sound.oneLife (h : Sound s) (hturn : Turn s s') : OneLife s s' where
  resume := h.resume hturn
  complete f hold hnew := by
    cases hturn with
    | finish t f' hrun hworker hcompleted =>
      have hf : f = f' := by
        by_contra hne
        rw [hcompleted, Function.update_of_ne hne, hold] at hnew
        cases hnew
      subst hf
      exact ⟨t, hrun, by rw [hworker, Function.update_self]⟩
    | run _ _ _ _ _ _ hcompleted | delete _ _ _ _ hcompleted | other _ hcompleted =>
      rw [hcompleted, hold] at hnew
      cases hnew
  exited t f hexited := by
    have hlive : s.Live f := h.custody.held_of_found (found_running.mpr (.inr hexited))
    refine ⟨(h.threads.completed_iff f).mpr (.inl ⟨t, hexited⟩), hlive.2, ?_⟩
    cases hturn with
    | run t' k f' hmem hidle hworker =>
      have ht : t ≠ t' := by
        rintro rfl
        cases hexited.symm.trans hidle
      exact .inl (by rw [hworker, Function.update_of_ne ht, hexited])
    | finish t' f' hrun hworker =>
      have ht : t ≠ t' := by
        rintro rfl
        cases hexited.symm.trans hrun
      exact .inl (by rw [hworker, Function.update_of_ne ht, hexited])
    | delete t' f' hexited' hworker _ hdeleted =>
      by_cases ht : t = t'
      · subst ht
        cases hexited.symm.trans hexited'
        refine .inr ⟨by rw [hworker, Function.update_self], ?_⟩
        rw [hdeleted, Function.update_self, hlive.2]
      · exact .inl (by rw [hworker, Function.update_of_ne ht, hexited])
    | other hworker =>
      rcases hworker t with hsame | ⟨hne, _⟩
      · exact .inl (hsame.trans hexited)
      · exact absurd hexited (hne f)
  delete f hne := by
    cases hturn with
    | delete t f' hexited hworker _ hdeleted =>
      have hf : f = f' := by
        by_contra hff
        rw [hdeleted, Function.update_of_ne hff] at hne
        exact hne rfl
      subst hf
      have hlive : s.Live f := h.custody.held_of_found (found_running.mpr (.inr hexited))
      refine ⟨hlive.2, ?_, t, hexited, by rw [hworker, Function.update_self]⟩
      rw [hdeleted, Function.update_self, hlive.2]
    | run _ _ _ _ _ _ _ hdeleted | finish _ _ _ _ _ hdeleted | other _ _ hdeleted =>
      rw [hdeleted] at hne
      exact absurd rfl hne

variable [DecidableEq Obj] [DecidableEq Sch]

theorem Step.turn (h : Step s s') : Turn s s' := by
  cases h with
  | go k hborn => exact .other (fun _ => .inl rfl) rfl rfl
  | run hworker hmem => exact .run _ _ _ hmem hworker rfl rfl rfl
  | yield hworker _ => exact turn_goto hworker rfl nofun nofun rfl rfl
  | yieldAwait hworker => exact turn_goto hworker rfl nofun nofun rfl rfl
  | call => exact .other (fun _ => .inl rfl) rfl rfl
  | @code _ f o n _ m' pc' =>
    obtain ⟨q, hq⟩ := exists_wake (s.act o (f, n) m' pc') (s.wakes o (f, n))
    rw [hq]
    exact .other (fun _ => .inl rfl) rfl rfl
  | @ret _ f o n _ m' pc' =>
    obtain ⟨q, hq⟩ := exists_wake (s.act o (f, n) m' pc') (s.wakes o (f, n))
    rw [hq]
    exact .other (fun _ => .inl rfl) rfl rfl
  | @suspend _ f o n _ m' pc' hworker =>
    obtain ⟨q, hq⟩ := exists_wake (s.act o (f, n) m' pc') (s.wakes o (f, n))
    rw [hq]
    exact turn_goto hworker rfl nofun nofun rfl rfl
  | @await _ f o n m' pc' =>
    obtain ⟨q, hq⟩ := exists_wake (s.act o (f, n) m' pc') (s.wakes o (f, n))
    rw [hq]
    exact .other (fun _ => .inl rfl) rfl rfl
  | @handOver _ f o n m' pc' hworker =>
    obtain ⟨q, hq⟩ := exists_wake (s.act o (f, n) m' pc') (s.wakes o (f, n))
    rw [hq]
    exact turn_goto hworker rfl nofun nofun rfl rfl
  | leave hworker => exact turn_goto hworker rfl nofun nofun rfl rfl
  | finish hworker _ => exact .finish _ _ hworker rfl rfl rfl
  | delete hworker => exact .delete _ _ hworker rfl rfl rfl

end Turn

/-- For any program of fibers that use the primitives, over any number of schedulers and threads: in every
reachable state each live fiber is at exactly one place, a suspended one with exactly one handle; a coroutine is
resumed only when it is on no thread and has not ended; and a fiber is deleted once, by the `Run` in which its
body ended. -/
theorem fiber_lifecycle [DecidableEq Fib] [DecidableEq Obj] [DecidableEq Tid] [DecidableEq Sch] (kind : Obj → Kind)
    (s : State Tid Sch fun o => ((kind o).component : Component (Call Fib)))
    (h : (system Tid Sch fun o => ((kind o).component : Component (Call Fib))).Reachable s) :
    AtOnePlace s ∧ ∀ s', Step s s' → OneLife s s' := by
  have hC (o : Obj) : ((kind o).component : Component (Call Fib)).Lawful := (kind o).lawful
  have hsound := sound_of_reachable hC h
  exact ⟨hsound.atOnePlace hC, fun s' hstep => hsound.oneLife hstep.turn⟩

/-- A fiber waits for an event: its awaiter has put the handle on the list and has not returned. -/
theorem fiber_lifecycle_event : ∃ s : State Unit Unit fun _ : Unit => (Kind.event.component : Component (Call Unit)),
    (system Unit Unit fun _ : Unit => (Kind.event.component : Component (Call Unit))).Reachable s ∧
      s.worker () = .leave () ((), 0) ∧ s.Found (.parked () 0) () ∧ AtOnePlace s ∧ ∀ s', Step s s' → OneLife s s' := by
  have h₀ : (system Unit Unit fun _ : Unit => (Kind.event.component : Component (Call Unit))).Reachable (initial ()) :=
    .init ⟨(), rfl⟩
  have h₁ := h₀.step (.go (f := ()) () rfl)
  have h₂ := h₁.step (.run (t := ()) (k := ()) (f := ()) rfl List.mem_cons_self)
  have h₃ := h₂.step (.call (t := ()) (f := ()) (o := ()) rfl nofun ⟨rfl, rfl, .wait, rfl⟩)
  have h₄ := h₃.step (.suspend (t := ()) (f := ()) (o := ()) rfl rfl .suspend rfl)
  have h₅ := h₄.step (.await (t := ()) (f := ()) (o := ()) rfl (.awaitLock rfl) rfl)
  have h₆ := h₅.step (.handOver (t := ()) (f := ()) (o := ()) rfl (.awaitWait rfl) nofun)
  exact ⟨_, h₆, rfl, found_parked.mpr rfl, fiber_lifecycle (fun _ => .event) _ h₆⟩

end CppConcur.Fiber.Lifecycle
