import CppConcur.Fiber.Lifecycle
import CppConcur.Logic.Custody
import Mathlib.Data.List.Nodup

/-!
# Where a fiber is

The handle of a fiber is a token: the fiber runs on a thread, its awaiter has the handle, a primitive has it,
or the fiber is in the queue of its scheduler. This module has the moves from one of these places to another.
-/

namespace CppConcur.Fiber.Lifecycle

open Logic

variable {Fib Obj Tid Sch : Type} {C : Obj → Component (Call Fib)}

/-- The places of fibers. -/
inductive Place (Tid Sch Obj : Type)
  /-- `Fiber::Run` executes the coroutine, or has just seen its end -/
  | running (t : Tid)
  /-- suspended, and the awaiter that runs on the thread has the handle -/
  | awaiting (t : Tid)
  | queued (k : Sch)
  /-- suspended, and the primitive has the handle for the fiber's call number `n` -/
  | parked (o : Obj) (n : Nat)

/-- The fiber that a thread has to do with. -/
def Worker.place (t : Tid) : Worker Fib Obj → Option (Place Tid Sch Obj × Fib)
  | .run f => some (.running t, f)
  | .exited f => some (.running t, f)
  | .await f _ => some (.awaiting t, f)
  | .idle => none
  | .leave _ _ => none

/-- The fiber is at a place. -/
inductive State.Found (s : State Tid Sch C) : Place Tid Sch Obj → Fib → Prop
  | thread {t : Tid} {r : Place Tid Sch Obj} {f : Fib} (h : (s.worker t).place t = some (r, f)) : Found s r f
  | queued {k : Sch} {f : Fib} (h : f ∈ s.queue k) : Found s (.queued k) f
  | parked {o : Obj} {n : Nat} {f : Fib} (h : s.stage o (f, n) = .parked) : Found s (.parked o n) f

section Found

variable {s s' : State Tid Sch C} {f : Fib} {t : Tid} {r : Place Tid Sch Obj}

theorem Worker.place_thread {w : Worker Fib Obj} (h : w.place t = some (r, f)) : r = .running t ∨ r = .awaiting t := by
  cases w with
  | run | exited =>
    cases h
    exact .inl rfl
  | await =>
    cases h
    exact .inr rfl
  | idle | leave => cases h

theorem found_running : s.Found (.running t) f ↔ s.worker t = .run f ∨ s.worker t = .exited f := by
  refine ⟨fun h => ?_, fun h => ?_⟩
  · cases h with
    | @thread t' _ _ h =>
      cases hworker : s.worker t' with
      | run | exited =>
        rw [hworker] at h
        cases h
        simp [hworker]
      | await | idle | leave =>
        rw [hworker] at h
        cases h
  · rcases h with h | h <;> exact .thread (by rw [h]; rfl)

theorem found_awaiting : s.Found (.awaiting t) f ↔ ∃ call, s.worker t = .await f call := by
  refine ⟨fun h => ?_, fun ⟨call, h⟩ => .thread (by rw [h]; rfl)⟩
  cases h with
  | @thread t' _ _ h =>
    cases hworker : s.worker t' with
    | await g call =>
      rw [hworker] at h
      cases h
      exact ⟨call, hworker⟩
    | run | exited | idle | leave =>
      rw [hworker] at h
      cases h

theorem found_queued {k : Sch} : s.Found (.queued k) f ↔ f ∈ s.queue k := by
  refine ⟨fun h => ?_, .queued⟩
  cases h with
  | thread h => exact absurd (Worker.place_thread h) (by simp)
  | queued h => exact h

theorem found_parked {o : Obj} {n : Nat} : s.Found (.parked o n) f ↔ s.stage o (f, n) = .parked := by
  refine ⟨fun h => ?_, .parked⟩
  cases h with
  | thread h => exact absurd (Worker.place_thread h) (by simp)
  | parked h => exact h

/-- Threads, queues and primitives that are as before as far as a place and a fiber are concerned. -/
theorem found_congr
    (hthread : ∀ t, (s'.worker t).place t = some (r, f) ↔ (s.worker t).place t = some (r, f))
    (hqueue : ∀ k, r = .queued k → (f ∈ s'.queue k ↔ f ∈ s.queue k))
    (hparked : ∀ o n, r = .parked o n → (s'.stage o (f, n) = .parked ↔ s.stage o (f, n) = .parked)) :
    s'.Found r f ↔ s.Found r f := by
  refine ⟨fun h => ?_, fun h => ?_⟩
  · cases h with
    | thread h => exact .thread ((hthread _).mp h)
    | queued h => exact .queued ((hqueue _ rfl).mp h)
    | parked h => exact .parked ((hparked _ _ rfl).mp h)
  · cases h with
    | thread h => exact .thread ((hthread _).mpr h)
    | queued h => exact .queued ((hqueue _ rfl).mpr h)
    | parked h => exact .parked ((hparked _ _ rfl).mpr h)

/-- One thread has changed, and neither before nor after has it to do with this place and this fiber. -/
theorem thread_congr {w w' : Worker Fib Obj} (hworker : s.worker t = w) (hworker' : s'.worker t = w')
    (hthreads : ∀ t', t' ≠ t → s'.worker t' = s.worker t') (hold : w.place t ≠ some (r, f))
    (hnew : w'.place t ≠ some (r, f)) (t' : Tid) :
    (s'.worker t').place t' = some (r, f) ↔ (s.worker t').place t' = some (r, f) := by
  by_cases ht : t' = t
  · subst ht
    rw [hworker, hworker']
    exact iff_of_false hnew hold
  · rw [hthreads t' ht]

end Found

/-! ### One fiber moves -/

section Moves

variable {s s' : State Tid Sch C} {f : Fib} {t : Tid} {k : Sch} {o : Obj} {n : Nat} {w w' : Worker Fib Obj}

/-- A thread takes a fiber from a queue. -/
theorem custody_run (h : Custody s.Live s.Found) (hlive : ∀ u, s'.Live u ↔ s.Live u)
    (hidle : s.worker t = .idle) (hrun : s'.worker t = .run f)
    (hthreads : ∀ t', t' ≠ t → s'.worker t' = s.worker t') (hmem : f ∈ s.queue k) (hout : f ∉ s'.queue k)
    (hqueue : ∀ k' u, (k', u) ≠ (k, f) → (u ∈ s'.queue k' ↔ u ∈ s.queue k'))
    (hparked : ∀ o c, s'.stage o c = .parked ↔ s.stage o c = .parked) : Custody s'.Live s'.Found := by
  refine h.move (found_queued.mpr hmem) hlive (fun hfound => hout (found_queued.mp hfound))
    (found_running.mpr (.inl hrun)) fun r u hleft harrived => ?_
  refine found_congr (thread_congr hidle hrun hthreads nofun ?_) ?_ fun o n _ => hparked o _
  · exact fun heq => harrived (Option.some.inj heq).symm
  · rintro k' rfl
    exact hqueue k' u fun heq => hleft (by cases heq; rfl)

/-- A fiber is switched out, and its awaiter is called. -/
theorem custody_suspend (h : Custody s.Live s.Found) {call : Option (Obj × Nat)} (hlive : ∀ u, s'.Live u ↔ s.Live u)
    (hrun : s.worker t = .run f) (hawait : s'.worker t = .await f call)
    (hthreads : ∀ t', t' ≠ t → s'.worker t' = s.worker t') (hqueue : s'.queue = s.queue)
    (hparked : ∀ o c, s'.stage o c = .parked ↔ s.stage o c = .parked) : Custody s'.Live s'.Found := by
  refine h.move (found_running.mpr (.inl hrun)) hlive ?_ (found_awaiting.mpr ⟨call, hawait⟩) fun r u hleft harrived => ?_
  · rw [found_running, hawait]
    exact nofun
  · refine found_congr (thread_congr hrun hawait hthreads ?_ ?_) (fun k _ => by rw [hqueue]) fun o n _ => hparked o _
    · exact fun heq => hleft (Option.some.inj heq).symm
    · exact fun heq => harrived (Option.some.inj heq).symm

/-- The awaiter of a fiber schedules it. -/
theorem custody_reschedule (h : Custody s.Live s.Found) {call : Option (Obj × Nat)}
    (hlive : ∀ u, s'.Live u ↔ s.Live u) (hawait : s.worker t = .await f call) (hworker' : s'.worker t = w')
    (hplace : ∀ r : Place Tid Sch Obj × Fib, w'.place t ≠ some r)
    (hthreads : ∀ t', t' ≠ t → s'.worker t' = s.worker t') (hmem : f ∈ s'.queue k)
    (hqueue : ∀ k' u, (k', u) ≠ (k, f) → (u ∈ s'.queue k' ↔ u ∈ s.queue k'))
    (hparked : ∀ o c, s'.stage o c = .parked ↔ s.stage o c = .parked) : Custody s'.Live s'.Found := by
  refine h.move (found_awaiting.mpr ⟨call, hawait⟩) hlive ?_ (found_queued.mpr hmem) fun r u hleft harrived => ?_
  · rintro hfound
    obtain ⟨call', hfound⟩ := found_awaiting.mp hfound
    exact hplace (.awaiting t, f) (by rw [← hworker', hfound]; rfl)
  · refine found_congr (thread_congr hawait hworker' hthreads ?_ (hplace _)) ?_ fun o n _ => hparked o _
    · exact fun heq => hleft (Option.some.inj heq).symm
    · rintro k' rfl
      exact hqueue k' u fun heq => harrived (by cases heq; rfl)

/-- The awaiter of a fiber gives the handle to a primitive. -/
theorem custody_park (h : Custody s.Live s.Found) {call : Option (Obj × Nat)} (hlive : ∀ u, s'.Live u ↔ s.Live u)
    (hawait : s.worker t = .await f call) (hworker' : s'.worker t = w')
    (hplace : ∀ r : Place Tid Sch Obj × Fib, w'.place t ≠ some r)
    (hthreads : ∀ t', t' ≠ t → s'.worker t' = s.worker t') (hqueue : s'.queue = s.queue)
    (hstage : s'.stage o (f, n) = .parked)
    (hparked : ∀ o' c, (o', c) ≠ (o, (f, n)) → (s'.stage o' c = .parked ↔ s.stage o' c = .parked)) :
    Custody s'.Live s'.Found := by
  refine h.move (found_awaiting.mpr ⟨call, hawait⟩) hlive ?_ (found_parked.mpr hstage) fun r u hleft harrived => ?_
  · rintro hfound
    obtain ⟨call', hfound⟩ := found_awaiting.mp hfound
    exact hplace (.awaiting t, f) (by rw [← hworker', hfound]; rfl)
  · refine found_congr (thread_congr hawait hworker' hthreads ?_ (hplace _)) (fun k _ => by rw [hqueue]) ?_
    · exact fun heq => hleft (Option.some.inj heq).symm
    · rintro o' n' rfl
      exact hparked o' (u, n') fun heq => harrived (by cases heq; rfl)

/-- A primitive schedules a handle. -/
theorem custody_wake (h : Custody s.Live s.Found) (hlive : ∀ u, s'.Live u ↔ s.Live u) (hthreads : s'.worker = s.worker)
    (hmem : f ∈ s'.queue k) (hqueue : ∀ k' u, (k', u) ≠ (k, f) → (u ∈ s'.queue k' ↔ u ∈ s.queue k'))
    (hstage : s.stage o (f, n) = .parked) (hstage' : s'.stage o (f, n) ≠ .parked)
    (hparked : ∀ o' c, (o', c) ≠ (o, (f, n)) → (s'.stage o' c = .parked ↔ s.stage o' c = .parked)) :
    Custody s'.Live s'.Found := by
  refine h.move (found_parked.mpr hstage) hlive (fun hfound => hstage' (found_parked.mp hfound))
    (found_queued.mpr hmem) fun r u hleft harrived => ?_
  refine found_congr (fun t => by rw [hthreads]) ?_ ?_
  · rintro k' rfl
    exact hqueue k' u fun heq => harrived (by cases heq; rfl)
  · rintro o' n' rfl
    exact hparked o' (u, n') fun heq => hleft (by cases heq; rfl)

/-- Nobody moves. -/
theorem custody_same (h : Custody s.Live s.Found) (hlive : ∀ u, s'.Live u ↔ s.Live u)
    (hthreads : ∀ t, ((s'.worker t).place t : Option (Place Tid Sch Obj × Fib)) = (s.worker t).place t)
    (hqueue : s'.queue = s.queue)
    (hparked : ∀ o c, s'.stage o c = .parked ↔ s.stage o c = .parked) : Custody s'.Live s'.Found :=
  h.congr hlive fun _ _ =>
    found_congr (fun t => by rw [hthreads]) (fun k _ => by rw [hqueue]) fun o n _ => hparked o _

/-- A fiber is made and scheduled. -/
theorem custody_go (h : Custody s.Live s.Found) (hnew : ¬ s.Live f) (hlive : s'.Live f)
    (hlive' : ∀ u, u ≠ f → (s'.Live u ↔ s.Live u)) (hthreads : s'.worker = s.worker) (hmem : f ∈ s'.queue k)
    (hqueue : ∀ k' u, (k', u) ≠ (k, f) → (u ∈ s'.queue k' ↔ u ∈ s.queue k'))
    (hparked : ∀ o c, s'.stage o c = .parked ↔ s.stage o c = .parked) : Custody s'.Live s'.Found := by
  refine h.add hnew hlive hlive' (found_queued.mpr hmem) fun r u harrived => ?_
  refine found_congr (fun t => by rw [hthreads]) ?_ fun o n _ => hparked o _
  rintro k' rfl
  exact hqueue k' u fun heq => harrived (by cases heq; rfl)

/-- A fiber is deleted. -/
theorem custody_delete (h : Custody s.Live s.Found) (hlive : ¬ s'.Live f)
    (hlive' : ∀ u, u ≠ f → (s'.Live u ↔ s.Live u)) (hexited : s.worker t = .exited f) (hidle : s'.worker t = .idle)
    (hthreads : ∀ t', t' ≠ t → s'.worker t' = s.worker t') (hqueue : s'.queue = s.queue)
    (hparked : ∀ o c, s'.stage o c = .parked ↔ s.stage o c = .parked) : Custody s'.Live s'.Found := by
  refine h.remove (found_running.mpr (.inr hexited)) hlive hlive' ?_ fun r u hleft => ?_
  · rw [found_running, hidle]
    exact nofun
  · refine found_congr (thread_congr hexited hidle hthreads ?_ nofun) (fun k _ => by rw [hqueue])
      fun o n _ => hparked o _
    exact fun heq => hleft (Option.some.inj heq).symm

end Moves

end CppConcur.Fiber.Lifecycle
