import CppConcur.Fiber.Context
import Mathlib.Data.List.Nodup
import Mathlib.Tactic.Common

/-!
# Which fiber `Self` returns

When every scheduler only enqueues and no loop runs inside the code of a fiber, each fiber that has been created and not
deleted is at exactly one place, a thread has at most one call of `Run` on its stack, and the fiber on whose stack it executes
is its `current_fiber`.
-/

namespace CppConcur.Fiber.Context

open Logic

variable {Tid Fib Sch : Type}

/-- Where a fiber can be: in the queue of a scheduler, behind a handle that was kept, or with a thread. -/
inductive Place (Tid Sch : Type)
  | queued (k : Sch)
  | handle
  | thread (t : Tid)

namespace State

variable (s : State Tid Fib Sch)

def Found : Place Tid Sch → Fib → Prop
  | .queued k, f => f ∈ s.queue k
  | .handle, f => f ∈ s.handles
  | .thread t, f => ∃ fr, s.frames (.thread t) = [fr] ∧ fr.fiber = some f

/-- The context of a fiber that has been switched out, or never in. -/
def Rests (f : Fib) : Prop := s.coroutineCtx f = some (.fiber f) ∧ s.completed f = false

/-- How far a call of `Run` has come, and what holds of its fiber. -/
def Phase (t : Tid) : Frame Fib → Prop
  | .enter f => s.on t = .thread t ∧ s.Rests f
  | .resume f => s.on t = .thread t ∧ s.Rests f ∧ s.currentFiber t = some f
  | .switched f =>
      (s.on t = .fiber f ∧ s.currentFiber t = some f ∧ s.originalCtx f = some (.thread t) ∧ s.completed f = false) ∨
      s.on t = .thread t ∧ (s.completed f = false → s.Rests f ∧ s.awaiter f = some (.fiber f))
  | .await f => s.on t = .thread t ∧ s.Rests f ∧ s.awaiter f = some (.fiber f)
  | .awaited => s.on t = .thread t

/-- A thread is in its own code, or in one call of `Run`. -/
def Sits (t : Tid) : Prop :=
  s.frames (.thread t) = [] ∧ s.on t = .thread t ∨ ∃ fr, s.frames (.thread t) = [fr] ∧ s.Phase t fr

/-- A fiber that is not with a thread can be resumed. -/
def At : Place Tid Sch → Fib → Prop
  | .thread _, _ => True
  | _, f => s.Rests f

/-- The life of a fiber. -/
structure Life (f : Fib) : Prop where
  born : s.deleted f = true → s.born f = true
  completed : s.completed f = true → s.born f = true
  resting : ∀ p, s.Found p f → s.At p f

end State

structure Good (s : State Tid Fib Sch) : Prop where
  custody : Custody s.Alive s.Found
  queues : ∀ k, (s.queue k).Nodup
  handles : s.handles.Nodup
  bodies : ∀ f, s.frames (.fiber f) = []
  threads : ∀ t, s.Sits t
  fibers : ∀ f, s.Life f

variable {s s' : State Tid Fib Sch} {t : Tid} {f : Fib}

/-! ### A step of one thread with one fiber -/

/-- What a fiber has of its own. -/
def State.view (s : State Tid Fib Sch) (g : Fib) :=
  (s.born g, s.deleted g, s.completed g, s.coroutineCtx g, s.originalCtx g, s.awaiter g)

/-- Nothing but the thread and the fiber changes. -/
structure Local (s s' : State Tid Fib Sch) (t : Tid) (f : Fib) : Prop where
  frames : ∀ k, k ≠ .thread t → s'.frames k = s.frames k
  thread : ∀ u, u ≠ t → s'.on u = s.on u ∧ s'.currentFiber u = s.currentFiber u
  fiber : ∀ g, g ≠ f → s'.view g = s.view g
  queue : ∀ g, g ≠ f → ∀ k, g ∈ s'.queue k ↔ g ∈ s.queue k
  handles : ∀ g, g ≠ f → (g ∈ s'.handles ↔ g ∈ s.handles)
  stack : ∀ g, g ≠ f → (s'.Found (.thread t) g ↔ s.Found (.thread t) g)

namespace Local

theorem thread_frames (h : Local s s' t f) {u : Tid} (hu : u ≠ t) : s'.frames (.thread u) = s.frames (.thread u) :=
  h.frames _ fun heq => hu (Stack.thread.inj heq)

theorem parts (h : Local s s' t f) {g : Fib} (hg : g ≠ f) : s'.born g = s.born g ∧ s'.deleted g = s.deleted g ∧
    s'.completed g = s.completed g ∧ s'.coroutineCtx g = s.coroutineCtx g ∧ s'.originalCtx g = s.originalCtx g ∧
    s'.awaiter g = s.awaiter g := by
  simpa only [State.view, Prod.mk.injEq] using h.fiber g hg

theorem rests (h : Local s s' t f) {g : Fib} (hg : g ≠ f) : s'.Rests g ↔ s.Rests g := by
  obtain ⟨-, -, hcompleted, hctx, -⟩ := h.parts hg
  simp only [State.Rests, hctx, hcompleted]

/-- A thread that has nothing to do with the fiber stays where it is. -/
theorem sits (hl : Local s s' t f) {u : Tid} (hframes : s'.frames (.thread u) = s.frames (.thread u))
    (hon : s'.on u = s.on u) (hcurrent : s'.currentFiber u = s.currentFiber u) (haway : ¬ s.Found (.thread u) f)
    (h : s.Sits u) : s'.Sits u := by
  rcases h with ⟨hidle, hown⟩ | ⟨fr, hfr, hphase⟩
  · exact .inl ⟨hframes.trans hidle, hon.trans hown⟩
  · refine .inr ⟨fr, hframes.trans hfr, ?_⟩
    have hne : ∀ g, fr.fiber = some g → g ≠ f := fun g hg heq => haway ⟨fr, hfr, heq ▸ hg⟩
    cases fr with
    | awaited => exact hon.trans hphase
    | _ g =>
      obtain ⟨-, -, hcompleted, -, horiginal, hawaiter⟩ := hl.parts (hne g rfl)
      simpa only [State.Phase, hon, hcurrent, hl.rests (hne g rfl), horiginal, hcompleted, hawaiter] using hphase

theorem found (h : Local s s' t f) (p : Place Tid Sch) (g : Fib) (hg : g ≠ f) : s'.Found p g ↔ s.Found p g := by
  cases p with
  | queued k => exact h.queue g hg k
  | handle => exact h.handles g hg
  | thread u =>
    by_cases hu : u = t
    · exact hu ▸ h.stack g hg
    · simp only [State.Found, h.thread_frames hu]

theorem good (hl : Local s s' t f) (h : Good s) (haway : ∀ u, u ≠ t → ¬ s.Found (.thread u) f)
    (hqueues : ∀ k, (s'.queue k).Nodup) (hhandles : s'.handles.Nodup)
    (halive : s'.Alive f ↔ ∃ p, s'.Found p f) (hunique : ∀ p q, s'.Found p f → s'.Found q f → p = q)
    (hsits : s'.Sits t) (hlife : s'.Life f) : Good s' where
  custody := by
    refine h.custody.update halive hunique (fun g hg => ?_) hl.found
    obtain ⟨hborn, hdeleted, -⟩ := hl.parts hg
    simp only [State.Alive, hborn, hdeleted]
  queues := hqueues
  handles := hhandles
  bodies g := (hl.frames _ (by simp)).trans (h.bodies g)
  threads u := by
    by_cases hu : u = t
    · exact hu ▸ hsits
    · exact hl.sits (hl.thread_frames hu) (hl.thread u hu).1 (hl.thread u hu).2 (haway u hu) (h.threads u)
  fibers g := by
    by_cases hg : g = f
    · exact hg ▸ hlife
    · obtain ⟨hborn, hcompleted, hresting⟩ := h.fibers g
      obtain ⟨hborn', hdeleted', hcompleted', -⟩ := hl.parts hg
      refine ⟨?_, ?_, fun p hp => ?_⟩
      · rwa [hdeleted', hborn']
      · rwa [hcompleted', hborn']
      · have hat := hresting p ((hl.found p g hg).mp hp)
        cases p with
        | thread u => trivial
        | queued k | handle => exact (hl.rests hg).mpr hat

end Local

namespace Good

variable {p : Place Tid Sch} {fr : Frame Fib} {rest : List (Frame Fib)}

/-- A fiber is at one place only. -/
theorem only (h : Good s) (hp : s.Found p f) (q : Place Tid Sch) : s.Found q f ↔ q = p :=
  ⟨fun hq => h.custody.unique hq hp, fun hq => hq ▸ hp⟩

/-- A thread executes on its own stack, or on that of the fiber that it has resumed. -/
theorem stack (h : Good s) (t : Tid) : s.on t = .thread t ∨ ∃ f, s.on t = .fiber f ∧ s.frames (.thread t) = [.switched f] ∧
    s.currentFiber t = some f ∧ s.originalCtx f = some (.thread t) := by
  rcases h.threads t with ⟨-, hown⟩ | ⟨fr, hframes, hphase⟩
  · exact .inl hown
  · cases fr with
    | switched f =>
      rcases hphase with ⟨hfiber, hcurrent, horiginal, -⟩ | ⟨hown, -⟩
      · exact .inr ⟨f, hfiber, hframes, hcurrent, horiginal⟩
      · exact .inl hown
    | awaited => exact .inl hphase
    | enter f | resume f | await f => exact .inl hphase.1

/-- A call of `Run` that is executed is the only one on the stack of the thread. -/
theorem top (h : Good s) (htop : s.frames (s.on t) = fr :: rest) :
    s.on t = .thread t ∧ rest = [] ∧ s.frames (.thread t) = [fr] ∧ s.Phase t fr := by
  rcases h.stack t with hon | ⟨f, hon, -⟩
  · rw [hon] at htop
    rcases h.threads t with ⟨hframes, -⟩ | ⟨fr', hframes, hphase⟩
    · rw [hframes] at htop
      cases htop
    · rw [hframes] at htop
      cases htop
      exact ⟨hon, rfl, hframes, hphase⟩
  · rw [hon, h.bodies f] at htop
    cases htop

/-- The code of a fiber runs under the call of `Run` that has resumed the fiber. -/
theorem body (h : Good s) (hon : s.on t = .fiber f) : s.frames (.thread t) = [.switched f] ∧ s.currentFiber t = some f ∧
    s.originalCtx f = some (.thread t) := by
  rcases h.stack t with hown | ⟨g, hg, hframes, hrest⟩
  · rw [hon] at hown
    cases hown
  · cases hon.symm.trans hg
    exact ⟨hframes, hrest⟩

/-- A thread never executes on the stack of another one. -/
theorem own (h : Good s) {u : Tid} (hon : s.on t = .thread u) : u = t := by
  rcases h.stack t with hown | ⟨g, hg, -⟩
  · exact Stack.thread.inj (hon.symm.trans hown)
  · cases hon.symm.trans hg

theorem alive (h : Good s) (hp : s.Found p f) : s.Alive f := h.custody.held_of_found hp

/-- A fiber is not with two threads. -/
theorem away (h : Good s) (hfound : s.Found (.thread t) f) (u : Tid) (hu : u ≠ t) : ¬ s.Found (.thread u) f :=
  fun hother => hu (Place.thread.inj (h.custody.unique hother hfound))

/-- A fiber that is with a thread waits nowhere. -/
theorem not_waiting (h : Good s) (hfound : s.Found (.thread t) f) : (∀ k, f ∉ s.queue k) ∧ f ∉ s.handles := by
  refine ⟨fun k hmem => ?_, fun hmem => ?_⟩
  · cases (h.only hfound (.queued k)).mp hmem
  · cases (h.only hfound .handle).mp hmem

end Good

/-- The call of `Run` goes on with the same fiber. -/
theorem found_same {fr fr' : Frame Fib} (hframes : s.frames (.thread t) = [fr]) (hframes' : s'.frames (.thread t) = [fr'])
    (hfiber : fr'.fiber = fr.fiber) (g : Fib) : s'.Found (.thread t) g ↔ s.Found (.thread t) g := by
  simp only [State.Found, hframes, hframes', List.cons.injEq, and_true, exists_eq_left', hfiber]

namespace Local

/-- Where the fiber can be afterwards. -/
theorem place {q : Place Tid Sch} (hl : Local s s' t f) (haway : ∀ u, u ≠ t → ¬ s.Found (.thread u) f) (hq : s'.Found q f) :
    (∃ k, q = .queued k ∧ f ∈ s'.queue k) ∨ (q = .handle ∧ f ∈ s'.handles) ∨ (q = .thread t ∧ s'.Found (.thread t) f) := by
  cases q with
  | queued k => exact .inl ⟨k, rfl, hq⟩
  | handle => exact .inr (.inl ⟨rfl, hq⟩)
  | thread u =>
    by_cases hu : u = t
    · exact .inr (.inr ⟨hu ▸ rfl, hu ▸ hq⟩)
    · simp only [State.Found, hl.thread_frames hu] at hq
      exact absurd hq (haway u hu)

/-- The fiber is at one place afterwards. -/
theorem settle {p : Place Tid Sch} (hl : Local s s' t f) (h : Good s) (haway : ∀ u, u ≠ t → ¬ s.Found (.thread u) f)
    (hp : s'.Found p f) (honly : ∀ q, s'.Found q f → q = p) (halive : s'.Alive f) (hat : s'.At p f)
    (hqueues : ∀ k, (s'.queue k).Nodup) (hhandles : s'.handles.Nodup) (hsits : s'.Sits t) : Good s' := by
  refine hl.good h haway hqueues hhandles (iff_of_true halive ⟨p, hp⟩) ?_ hsits ⟨fun _ => halive.1, fun _ => halive.1, ?_⟩
  · intro q r hq hr
    rw [honly q hq, honly r hr]
  · intro q hq
    rw [honly q hq]
    exact hat

/-- The fiber stays with the thread. -/
theorem stay {fr fr' : Frame Fib} (h : Good s) (hframes : s.frames (.thread t) = [fr]) (hfr : fr.fiber = some f)
    (hframes' : s'.frames (.thread t) = [fr']) (hfr' : fr'.fiber = some f)
    (hothers : ∀ k, k ≠ .thread t → s'.frames k = s.frames k)
    (hthread : ∀ u, u ≠ t → s'.on u = s.on u ∧ s'.currentFiber u = s.currentFiber u)
    (hview : ∀ g, g ≠ f → s'.view g = s.view g) (hqueue : s'.queue = s.queue) (hhandles : s'.handles = s.handles)
    (hborn : s'.born f = s.born f) (hdeleted : s'.deleted f = s.deleted f) (hphase : s'.Phase t fr') : Good s' := by
  have hfound : s.Found (.thread t) f := ⟨fr, hframes, hfr⟩
  have haway := h.away hfound
  have hl : Local s s' t f := ⟨hothers, hthread, hview, fun _ _ _ => hqueue ▸ Iff.rfl, fun _ _ => hhandles ▸ Iff.rfl,
    fun g _ => found_same hframes hframes' (hfr'.trans hfr.symm) g⟩
  refine hl.settle (p := .thread t) h haway ⟨fr', hframes', hfr'⟩ ?_ ?_ trivial (fun k => hqueue ▸ h.queues k) (hhandles ▸ h.handles)
    (.inr ⟨fr', hframes', hphase⟩)
  · intro q hq
    rcases hl.place haway hq with ⟨k, rfl, hmem⟩ | ⟨rfl, hmem⟩ | ⟨rfl, -⟩
    · exact absurd (hqueue ▸ hmem) ((h.not_waiting hfound).1 k)
    · exact absurd (hhandles ▸ hmem) (h.not_waiting hfound).2
    · rfl
  · rw [State.Alive, hborn, hdeleted]
    exact h.alive hfound

/-- The fiber leaves the place where it was for the queue of a scheduler. -/
theorem enqueue {k : Sch} [DecidableEq Sch] (hl : Local s s' t f) (h : Good s)
    (haway : ∀ u, u ≠ t → ¬ s.Found (.thread u) f) (hthread : ¬ s'.Found (.thread t) f) (hhandle : f ∉ s'.handles)
    (hout : ∀ k, f ∉ s.queue k) (hqueue : s'.queue = Function.update s.queue k (s.queue k ++ [f]))
    (hhandles : s'.handles.Nodup) (halive : s'.Alive f) (hrests : s'.Rests f) (hsits : s'.Sits t) : Good s' := by
  refine hl.settle (p := .queued k) h haway ?_ ?_ halive hrests (fun k' => ?_) hhandles hsits
  · simp [State.Found, hqueue]
  · intro q hq
    rcases hl.place haway hq with ⟨k', rfl, hmem⟩ | ⟨rfl, hmem⟩ | ⟨rfl, hfound⟩
    · by_cases hk : k' = k
      · rw [hk]
      · rw [hqueue, Function.update_of_ne hk] at hmem
        exact absurd hmem (hout k')
    · exact absurd hmem hhandle
    · exact absurd hfound hthread
  · rw [hqueue]
    by_cases hk : k' = k
    · subst hk
      rw [Function.update_self]
      exact List.nodup_append_comm.mp (List.nodup_cons.mpr ⟨hout k', h.queues k'⟩)
    · rw [Function.update_of_ne hk]
      exact h.queues k'

end Local

theorem good_initial (h : Initial s) : Good s where
  custody := by
    refine ⟨fun {f p q} hp => ?_, fun f => iff_of_false ?_ ?_⟩
    · cases p <;> simp [State.Found, h.queue, h.handles, h.frames] at hp
    · simp [State.Alive, h.born]
    · rintro ⟨p, hp⟩
      cases p <;> simp [State.Found, h.queue, h.handles, h.frames] at hp
  queues k := by simp [h.queue]
  handles := by simp [h.handles]
  bodies f := h.frames _
  threads t := .inl ⟨h.frames _, h.on t⟩
  fibers f := by
    refine ⟨by simp [h.deleted], by simp [h.completed], fun p hp => ?_⟩
    cases p <;> simp [State.Found, h.queue, h.handles, h.frames] at hp

/-- The stack of the thread has no fiber but this one, before and after. -/
theorem found_neither (hold : ∀ fr, s.frames (.thread t) = [fr] → fr.fiber = some f ∨ fr.fiber = none)
    (hnew : ∀ fr, s'.frames (.thread t) = [fr] → fr.fiber = some f ∨ fr.fiber = none) (g : Fib) (hg : g ≠ f) :
    s'.Found (.thread t) g ↔ s.Found (.thread t) g := by
  refine iff_of_false ?_ ?_
  · rintro ⟨fr, hframes, hfiber⟩
    rcases hnew fr hframes with h | h <;> rw [hfiber] at h <;> cases h
    exact hg rfl
  · rintro ⟨fr, hframes, hfiber⟩
    rcases hold fr hframes with h | h <;> rw [hfiber] at h <;> cases h
    exact hg rfl

/-- The frame of an awaiter that has given its handle away. -/
theorem found_awaited (hframes : s.frames (.thread t) = [.await f])
    (hframes' : s'.frames (.thread t) = [.awaited]) : ∀ g, g ≠ f → (s'.Found (.thread t) g ↔ s.Found (.thread t) g) :=
  found_neither (by simp [hframes, Frame.fiber]) (by simp [hframes', Frame.fiber])

theorem mem_enqueue [DecidableEq Sch] {queue : Sch → List Fib} {k : Sch} (g : Fib) (hg : g ≠ f) (k' : Sch) :
    g ∈ Function.update queue k (queue k ++ [f]) k' ↔ g ∈ queue k' := by
  by_cases hk : k' = k
  · subst hk
    simp [hg]
  · rw [Function.update_of_ne hk]

theorem mem_dequeue [DecidableEq Sch] [DecidableEq Fib] {queue : Sch → List Fib} {k : Sch} (g : Fib) (hg : g ≠ f) (k' : Sch) :
    g ∈ Function.update queue k ((queue k).erase f) k' ↔ g ∈ queue k' := by
  by_cases hk : k' = k
  · subst hk
    rw [Function.update_self, List.mem_erase_of_ne hg]
  · rw [Function.update_of_ne hk]

variable [DecidableEq Tid] [DecidableEq Fib]

section Frames

variable (s : State Tid Fib Sch) (t : Tid) (l : List (Frame Fib))

theorem setFrames_self : (s.setFrames (.thread t) l).frames (.thread t) = l := Function.update_self ..

theorem setFrames_of_ne (k : Stack Tid Fib) (hk : k ≠ .thread t) : (s.setFrames (.thread t) l).frames k = s.frames k :=
  Function.update_of_ne hk ..

theorem phase_setFrames (k : Stack Tid Fib) (fr : Frame Fib) : (s.setFrames k l).Phase t fr ↔ s.Phase t fr := by
  cases fr <;> rfl

end Frames

theorem schedule_enqueue [DecidableEq Sch] {cfg : Config Sch} (hcfg : ∀ k, cfg.inline k = false)
    (s : State Tid Fib Sch) (t : Tid) (f : Fib) : s.schedule cfg t f =
      { s with queue := Function.update s.queue (s.scheduler f) (s.queue (s.scheduler f) ++ [f]) } := by
  simp [State.schedule, hcfg]

namespace Good

variable {rest : List (Frame Fib)} {k : Stack Tid Fib}

theorem setCurrent (h : Good s) (htop : s.frames (s.on t) = .enter f :: rest) : Good (s.setCurrent t f rest) := by
  obtain ⟨hon, rfl, hframes, -, hrests⟩ := h.top htop
  simp only [State.setCurrent, hon]
  have hframes' := setFrames_self s t [.resume f]
  exact Local.stay h hframes rfl hframes' rfl (setFrames_of_ne s t _) (fun u hu => ⟨rfl, Function.update_of_ne hu ..⟩)
    (fun _ _ => rfl) rfl rfl rfl rfl ⟨hon, hrests, Function.update_self ..⟩

theorem resume (h : Good s) (htop : s.frames (s.on t) = .resume f :: rest) (hctx : s.coroutineCtx f = some k) :
    Good (s.resume t f rest k) := by
  obtain ⟨hon, rfl, hframes, -, hrests, hcurrent⟩ := h.top htop
  obtain rfl : k = .fiber f := Option.some.inj (hctx.symm.trans hrests.1)
  simp only [State.resume, hon]
  have hframes' := setFrames_self s t [.switched f]
  exact Local.stay h hframes rfl hframes' rfl (setFrames_of_ne s t _) (fun u hu => ⟨Function.update_of_ne hu .., rfl⟩)
    (fun g hg => by simp [State.view, State.setFrames, hg]) rfl rfl rfl rfl
    (.inl ⟨Function.update_self .., hcurrent, Function.update_self .., hrests.2⟩)

theorem suspend {g : Fib} (h : Good s) (hon : s.on t = .fiber f) (hself : s.currentFiber t = some g)
    (hctx : s.originalCtx g = some k) : Good (s.suspend t g k) := by
  obtain ⟨hframes, hcurrent, horiginal⟩ := h.body hon
  obtain rfl : g = f := Option.some.inj (hself.symm.trans hcurrent)
  obtain rfl : k = .thread t := Option.some.inj (hctx.symm.trans horiginal)
  refine Local.stay h hframes rfl hframes rfl (fun _ _ => rfl) (fun u hu => ⟨Function.update_of_ne hu .., rfl⟩)
    (fun f hf => by simp [State.view, State.suspend, hf]) rfl rfl rfl rfl
    (.inr ⟨Function.update_self .., fun hcompleted => ⟨⟨?_, hcompleted⟩, ?_⟩⟩)
  · simp only [State.suspend, Function.update_self, hon]
  · simp only [State.suspend, Function.update_self, hon]

theorem finish (h : Good s) (hon : s.on t = .fiber f) (hctx : s.originalCtx f = some k) : Good (s.finish t f k) := by
  obtain ⟨hframes, -, horiginal⟩ := h.body hon
  obtain rfl : k = .thread t := Option.some.inj (hctx.symm.trans horiginal)
  refine Local.stay h hframes rfl hframes rfl (fun _ _ => rfl) (fun u hu => ⟨Function.update_of_ne hu .., rfl⟩)
    (fun g hg => by simp [State.view, State.finish, hg]) rfl rfl rfl rfl (.inr ⟨Function.update_self .., fun hcompleted => ?_⟩)
  simp only [State.finish, Function.update_self] at hcompleted
  cases hcompleted

theorem await (h : Good s) (htop : s.frames (s.on t) = .switched f :: rest) (hcompleted : s.completed f = false) :
    Good (s.setFrames (s.on t) (.await f :: rest)) := by
  obtain ⟨hon, rfl, hframes, hphase⟩ := h.top htop
  have hframes' := setFrames_self s t [.await f]
  rw [hon]
  refine Local.stay h hframes rfl hframes' rfl (setFrames_of_ne s t _) (fun _ _ => ⟨rfl, rfl⟩) (fun _ _ => rfl) rfl rfl rfl rfl ?_
  rcases hphase with ⟨hfiber, -⟩ | ⟨-, hsuspended⟩
  · rw [hon] at hfiber
    cases hfiber
  · obtain ⟨hrests, hawaiter⟩ := hsuspended hcompleted
    exact ⟨hon, hrests, hawaiter⟩

theorem delete (h : Good s) (htop : s.frames (s.on t) = .switched f :: rest) :
    Good { s.setFrames (s.on t) rest with deleted := Function.update s.deleted f true } := by
  obtain ⟨hon, rfl, hframes, hphase⟩ := h.top htop
  have hfound : s.Found (.thread t) f := ⟨_, hframes, rfl⟩
  have haway := h.away hfound
  have hframes' := setFrames_self s t []
  rw [hon]
  have hl : Local s { s.setFrames (.thread t) [] with deleted := Function.update s.deleted f true } t f :=
    ⟨setFrames_of_ne s t [], fun _ _ => ⟨rfl, rfl⟩, fun g hg => by simp [State.view, State.setFrames, hg],
      fun _ _ _ => Iff.rfl, fun _ _ => Iff.rfl, found_neither (by simp [hframes, Frame.fiber]) (by simp [hframes'])⟩
  have hnowhere : ∀ q, ¬ State.Found { s.setFrames (.thread t) [] with deleted := Function.update s.deleted f true } q f := by
    intro q hq
    rcases hl.place haway hq with ⟨k, -, hmem⟩ | ⟨-, hmem⟩ | ⟨-, hthread⟩
    · exact (h.not_waiting hfound).1 k hmem
    · exact (h.not_waiting hfound).2 hmem
    · simp [State.Found, hframes'] at hthread
  have hborn := (h.alive hfound).1
  refine hl.good h haway h.queues h.handles ?_ ?_ (.inl ⟨hframes', hon⟩) ⟨fun _ => hborn, fun _ => hborn, ?_⟩
  · refine iff_of_false ?_ fun ⟨q, hq⟩ => hnowhere q hq
    simp [State.Alive]
  · exact fun q _ hq => absurd hq (hnowhere q)
  · exact fun q hq => absurd hq (hnowhere q)

theorem keep (h : Good s) (htop : s.frames (s.on t) = .await f :: rest) :
    Good { s.setFrames (s.on t) (.awaited :: rest) with handles := f :: s.handles } := by
  obtain ⟨hon, rfl, hframes, -, hrests, -⟩ := h.top htop
  have hfound : s.Found (.thread t) f := ⟨_, hframes, rfl⟩
  have haway := h.away hfound
  have hframes' := setFrames_self s t [.awaited]
  obtain ⟨hqueues, hnew⟩ := h.not_waiting hfound
  rw [hon]
  have hl : Local s { s.setFrames (.thread t) [.awaited] with handles := f :: s.handles } t f :=
    ⟨setFrames_of_ne s t [.awaited], fun _ _ => ⟨rfl, rfl⟩, fun _ _ => rfl, fun _ _ _ => Iff.rfl,
      fun g hg => by simp [hg], found_awaited hframes hframes'⟩
  refine hl.settle (p := .handle) h haway List.mem_cons_self ?_ (h.alive hfound) hrests h.queues
    (List.nodup_cons.mpr ⟨hnew, h.handles⟩) (.inr ⟨_, hframes', hon⟩)
  intro q hq
  rcases hl.place haway hq with ⟨k, rfl, hmem⟩ | ⟨rfl, -⟩ | ⟨-, hthread⟩
  · exact absurd hmem (hqueues k)
  · rfl
  · simp [State.Found, hframes', Frame.fiber] at hthread

theorem leave (h : Good s) (htop : s.frames (s.on t) = .awaited :: rest) : Good (s.setFrames (s.on t) rest) := by
  obtain ⟨hon, rfl, hframes, -⟩ := h.top htop
  have hframes' := setFrames_self s t []
  rw [hon]
  have hsame (u : Tid) (hu : u ≠ t) := setFrames_of_ne s t [] (.thread u) fun heq => hu (Stack.thread.inj heq)
  have hfound : ∀ p g, (s.setFrames (.thread t) []).Found p g ↔ s.Found p g := by
    intro p g
    cases p with
    | queued k | handle => exact Iff.rfl
    | thread u =>
      by_cases hu : u = t
      · subst hu
        simp [State.Found, hframes, hframes', Frame.fiber]
      · simp only [State.Found, hsame u hu]
  refine ⟨h.custody.congr (fun _ => Iff.rfl) hfound, h.queues, h.handles, ?_, fun u => ?_, fun g => ?_⟩
  · exact fun g => (setFrames_of_ne s t [] _ (by simp)).trans (h.bodies g)
  · by_cases hu : u = t
    · subst hu
      exact .inl ⟨hframes', hon⟩
    · rcases h.threads u with ⟨hidle, hown⟩ | ⟨fr, hfr, hphase⟩
      · exact .inl ⟨(hsame u hu).trans hidle, hown⟩
      · exact .inr ⟨fr, (hsame u hu).trans hfr, (phase_setFrames s u [] _ fr).mpr hphase⟩
  · obtain ⟨hborn, hcompleted, hresting⟩ := h.fibers g
    refine ⟨hborn, hcompleted, fun p hp => ?_⟩
    have hat := hresting p ((hfound p g).mp hp)
    cases p with
    | thread u => trivial
    | queued k | handle => exact hat

section Queues

variable [DecidableEq Sch] {cfg : Config Sch}

theorem again (h : Good s) (hcfg : ∀ k, cfg.inline k = false) (htop : s.frames (s.on t) = .await f :: rest) :
    Good ((s.setFrames (s.on t) (.awaited :: rest)).schedule cfg t f) := by
  obtain ⟨hon, rfl, hframes, -, hrests, -⟩ := h.top htop
  have hfound : s.Found (.thread t) f := ⟨_, hframes, rfl⟩
  have haway := h.away hfound
  have hframes' := setFrames_self s t [.awaited]
  simp only [State.schedule, hcfg, hon]
  refine Local.enqueue (t := t) (f := f) (k := s.scheduler f) ⟨setFrames_of_ne s t [.awaited], fun _ _ => ⟨rfl, rfl⟩,
    fun _ _ => rfl, mem_enqueue, fun _ _ => Iff.rfl, found_awaited hframes hframes'⟩ h haway ?_ (h.not_waiting hfound).2 (h.not_waiting hfound).1 rfl h.handles
    (h.alive hfound) hrests (.inr ⟨_, hframes', hon⟩)
  simp [State.Found, hframes', Frame.fiber]

theorem wake (h : Good s) (hcfg : ∀ k, cfg.inline k = false) (t : Tid) (hmem : f ∈ s.handles) :
    Good (State.schedule { s with handles := s.handles.erase f } cfg t f) := by
  have hfound : s.Found .handle f := hmem
  have hrests : s.Rests f := (h.fibers f).resting .handle hmem
  have hthread : ∀ u, ¬ s.Found (.thread u) f := fun u hu => by cases (h.only hfound _).mp hu
  rw [schedule_enqueue hcfg]
  have hl : Local s { s with
      handles := s.handles.erase f
      queue := Function.update s.queue (s.scheduler f) (s.queue (s.scheduler f) ++ [f]) } t f :=
    ⟨fun _ _ => rfl, fun _ _ => ⟨rfl, rfl⟩, fun _ _ => rfl, mem_enqueue, fun g hg => List.mem_erase_of_ne hg,
      fun _ _ => Iff.rfl⟩
  refine hl.enqueue h (fun u _ => hthread u) (hthread t) ?_ ?_ rfl (h.handles.erase f) (h.alive hfound)
    hrests (hl.sits rfl rfl rfl (hthread t) (h.threads t))
  · exact fun hmem => (h.handles.mem_erase_iff.mp hmem).1 rfl
  · exact fun k hmem => by cases (h.only hfound (.queued k)).mp hmem

theorem go (h : Good s) (hcfg : ∀ k, cfg.inline k = false) (t : Tid) (k : Sch) (hborn : s.born f = false) :
    Good ((s.new f k).schedule cfg t f) := by
  have hnowhere : ∀ q, ¬ s.Found q f := by
    intro q hq
    rw [(h.alive hq).1] at hborn
    cases hborn
  have hdeleted : s.deleted f = false := Bool.eq_false_iff.mpr fun hdeleted => by simp [(h.fibers f).born hdeleted] at hborn
  have hcompleted : s.completed f = false :=
    Bool.eq_false_iff.mpr fun hcompleted => by simp [(h.fibers f).completed hcompleted] at hborn
  rw [schedule_enqueue hcfg]
  have hl : Local s { s.new f k with
      queue := Function.update s.queue ((s.new f k).scheduler f) (s.queue ((s.new f k).scheduler f) ++ [f]) } t f :=
    ⟨fun _ _ => rfl, fun _ _ => ⟨rfl, rfl⟩, fun g hg => by simp [State.view, State.new, hg], mem_enqueue,
      fun _ _ => Iff.rfl, fun _ _ => Iff.rfl⟩
  exact hl.enqueue h (fun u _ => hnowhere _) (hnowhere (.thread t)) (hnowhere .handle) (fun k => hnowhere (.queued k)) rfl
    h.handles ⟨Function.update_self .., hdeleted⟩ ⟨Function.update_self .., hcompleted⟩
    (hl.sits rfl rfl rfl (hnowhere _) (h.threads t))

theorem run {k : Sch} (h : Good s) (hmem : f ∈ s.queue k) (hon : s.on t = .thread t) (hframes : s.frames (.thread t) = []) :
    Good (s.run t k f) := by
  have hfound : s.Found (.queued k) f := hmem
  have hrests : s.Rests f := (h.fibers f).resting (.queued k) hmem
  have haway : ∀ u, ¬ s.Found (.thread u) f := fun u hu => by cases (h.only hfound _).mp hu
  have hframes' := setFrames_self s t [.enter f]
  simp only [State.run, hon, hframes]
  have hl : Local s { s.setFrames (.thread t) [.enter f] with
      queue := Function.update s.queue k ((s.queue k).erase f) } t f :=
    ⟨setFrames_of_ne s t [.enter f], fun _ _ => ⟨rfl, rfl⟩, fun _ _ => rfl, mem_dequeue, fun _ _ => Iff.rfl,
      found_neither (by simp [hframes]) (by simp [hframes', Frame.fiber])⟩
  refine hl.settle (p := .thread t) h (fun u _ => haway u) ⟨_, hframes', rfl⟩ ?_ (h.alive hfound) trivial (fun k' => ?_)
    h.handles (.inr ⟨_, hframes', hon, hrests⟩)
  · intro q hq
    rcases hl.place (fun u _ => haway u) hq with ⟨k', rfl, hmem'⟩ | ⟨rfl, hmem'⟩ | ⟨rfl, -⟩
    · by_cases hk : k' = k
      · subst hk
        simp only [Function.update_self] at hmem'
        exact absurd rfl ((h.queues k').mem_erase_iff.mp hmem').1
      · simp only [Function.update_of_ne hk] at hmem'
        cases (h.only hfound (.queued k')).mp hmem'
        exact absurd rfl hk
    · cases (h.only hfound .handle).mp hmem'
    · rfl
  · by_cases hk : k' = k
    · subst hk
      simp only [Function.update_self]
      exact (h.queues k').erase f
    · simp only [Function.update_of_ne hk]
      exact h.queues k'

theorem step (h : Good s) (hinline : ∀ k, cfg.inline k = false) (hnested : cfg.nested = false) (hstep : Step cfg s s') :
    Good s' := by
  cases hstep with
  | go t f k _ hborn => exact h.go hinline t k hborn
  | run t k f hmem hloop =>
    rcases hloop with ⟨hon, hframes⟩ | ⟨hloop, -⟩
    · exact h.run hmem hon hframes
    · rw [hnested] at hloop
      cases hloop
  | enter t f rest htop => exact h.setCurrent htop
  | resume t f rest k htop hctx => exact h.resume htop hctx
  | suspend t f g k hon _ hself hctx => exact h.suspend hon hself hctx
  | finish t f k hon _ hctx => exact h.finish hon hctx
  | delete t f rest htop _ => exact h.delete htop
  | await t f rest htop hcompleted => exact h.await htop hcompleted
  | keep t f rest htop => exact h.keep htop
  | again t f rest htop => exact h.again hinline htop
  | wake t f _ hmem => exact h.wake hinline t hmem
  | leave t rest htop => exact h.leave htop

end Queues

end Good

section Safety

variable [DecidableEq Sch] {cfg : Config Sch}

theorem good_of_reachable (hinline : ∀ k, cfg.inline k = false) (hnested : cfg.nested = false)
    (h : (system cfg).Reachable s) : Good s :=
  h.invariant (fun _ => good_initial) fun _ _ _ hgood hstep => hgood.step hinline hnested hstep

/-- What a thread reads in its next step is there, and is its own. -/
structure Safe (s : State Tid Fib Sch) (t : Tid) : Prop where
  /-- the code of a fiber: `Self` is the fiber, and its `Run` is that of this thread -/
  self : ∀ f, s.on t = .fiber f → s.currentFiber t = some f ∧ s.Alive f ∧ s.originalCtx f = some (.thread t)
  /-- no other thread executes on the same stack -/
  alone : ∀ u, s.on u = s.on t → u = t
  /-- a call of `Run`: the fiber has not been deleted -/
  alive : ∀ fr rest f, s.frames (s.on t) = fr :: rest → fr.fiber = some f → s.Alive f
  /-- `Resume` switches to the context of the fiber -/
  resumes : ∀ f rest, s.frames (s.on t) = .resume f :: rest → s.coroutineCtx f = some (.fiber f)
  /-- `Await` is called on the awaiter that the fiber has left -/
  awaits : ∀ f rest, s.frames (s.on t) = .await f :: rest → s.awaiter f = some (.fiber f)

/-- When schedulers only enqueue, and loops run only outside of fibers, the code of a fiber always finds its own fiber, on
whichever thread it runs. -/
theorem fiber_contexts_safe (hinline : ∀ k, cfg.inline k = false) (hnested : cfg.nested = false)
    (h : (system cfg).Reachable s) (t : Tid) : Safe s t := by
  have hgood := good_of_reachable hinline hnested h
  refine ⟨fun f hon => ?_, fun u hu => ?_, fun fr rest f htop hfr => ?_, fun f rest htop => ?_, fun f rest htop => ?_⟩
  · obtain ⟨hframes, hcurrent, horiginal⟩ := hgood.body hon
    exact ⟨hcurrent, hgood.alive (p := .thread t) ⟨_, hframes, rfl⟩, horiginal⟩
  · rcases hgood.stack t with hon | ⟨f, hon, hframes, -⟩
    · exact (hgood.own (hu.trans hon)).symm
    · obtain ⟨hframes', -⟩ := hgood.body (hu.trans hon)
      have hsame := hgood.custody.unique (p := .thread u) (q := .thread t) ⟨_, hframes', rfl⟩ ⟨_, hframes, rfl⟩
      exact Place.thread.inj hsame
  · obtain ⟨-, -, hframes, -⟩ := hgood.top htop
    exact hgood.alive (p := .thread t) ⟨fr, hframes, hfr⟩
  · obtain ⟨-, -, -, -, hrests, -⟩ := hgood.top htop
    exact hrests.1
  · obtain ⟨-, -, -, -, -, hawaiter⟩ := hgood.top htop
    exact hawaiter

/-- A thread creates a fiber and runs it. -/
theorem fiber_contexts_safe_running : ∃ s : State Unit Unit Unit, (system ⟨fun _ => false, false⟩).Reachable s ∧
    s.on () = .fiber () ∧ Safe s () := by
  have h0 : (system ⟨fun _ => false, false⟩).Reachable (State.start () : State Unit Unit Unit) := .init (initial_start ())
  have h1 := h0.step (.go () () () (by simp [State.User, State.start]) rfl)
  have h2 := h1.step (.run () () () (by simp [State.schedule]) (.inl ⟨rfl, rfl⟩))
  have h3 := h2.step (.enter () () [] rfl)
  have h4 := h3.step (.resume () () [] (.fiber ()) rfl rfl)
  exact ⟨_, h4, rfl, fiber_contexts_safe (fun _ => rfl) rfl h4 ()⟩

/-! ### `Run` inside the code of a fiber -/

attribute [local simp] State.User State.schedule State.new State.run State.setCurrent State.resume State.finish State.setFrames
  State.start

/-- The code of a fiber runs, and its `Self` would return a fiber that has been deleted. -/
def Dangles (s : State Tid Fib Sch) : Prop :=
  ∃ t f g, s.on t = .fiber f ∧ s.frames (.fiber f) = [] ∧ s.currentFiber t = some g ∧ s.deleted g = true

/-- A call of `Run` on the stack of a fiber, whose own fiber runs to its end. -/
theorem dangles_of_nested {g : Fib} (h : (system cfg).Reachable s) (hne : f ≠ g) (hon : s.on t = .fiber f)
    (htop : s.frames (.fiber f) = [.enter g]) (hctx : s.coroutineCtx g = some (.fiber g)) (hbody : s.frames (.fiber g) = []) :
    ∃ s' : State Tid Fib Sch, (system cfg).Reachable s' ∧ Dangles s' := by
  have h1 : (system cfg).Reachable (s.setCurrent t g []) := h.step (.enter t g [] (hon ▸ htop))
  have h2 : (system cfg).Reachable ((s.setCurrent t g []).resume t g [] (.fiber g)) := by
    refine h1.step (.resume t g [] (.fiber g) ?_ hctx)
    simp [hon]
  have h3 : (system cfg).Reachable (((s.setCurrent t g []).resume t g [] (.fiber g)).finish t g (.fiber f)) := by
    refine h2.step (.finish t g (.fiber f) ?_ ?_ ?_)
    all_goals simp [hon, hbody, hne.symm]
  refine ⟨_, h3.step (.delete t g [] ?_ ?_), t, f, g, ?_, ?_, ?_, ?_⟩
  all_goals simp [hon]

theorem dangles_of_inline {k : Sch} (hk : cfg.inline k = true) (t : Tid) {f g : Fib} (hne : f ≠ g) :
    ∃ s : State Tid Fib Sch, (system cfg).Reachable s ∧ Dangles s := by
  have h0 : (system cfg).Reachable (State.start k : State Tid Fib Sch) := .init (initial_start k)
  have h1 := h0.step (.go t f k (by simp) rfl)
  have h2 := h1.step (.enter t f [] (by simp [hk]))
  have h3 := h2.step (.resume t f [] (.fiber f) (by simp [hk]) (by simp [hk]))
  have h4 := h3.step (.go t g k (by simp [hk]) (by simp [hk, hne.symm]))
  refine dangles_of_nested (t := t) h4 hne ?_ ?_ ?_ ?_
  all_goals simp [hk, hne.symm]

theorem dangles_of_loop (hinline : ∀ k, cfg.inline k = false) (hnested : cfg.nested = true) (k : Sch) (t : Tid) {f g : Fib}
    (hne : f ≠ g) : ∃ s : State Tid Fib Sch, (system cfg).Reachable s ∧ Dangles s := by
  have h0 : (system cfg).Reachable (State.start k : State Tid Fib Sch) := .init (initial_start k)
  have h1 := h0.step (.go t f k (by simp) rfl)
  rw [schedule_enqueue hinline] at h1
  have h2 := h1.step (.go t g k (by simp) (by simp [hne.symm]))
  rw [schedule_enqueue hinline] at h2
  have h3 := h2.step (.run t k f (by simp) (by simp))
  have h4 := h3.step (.enter t f [] (by simp))
  have h5 := h4.step (.resume t f [] (.fiber f) (by simp) (by simp [hne]))
  have h6 := h5.step (.run t k g (by simp) (.inr ⟨hnested, by simp⟩))
  refine dangles_of_nested (t := t) h6 hne ?_ ?_ ?_ ?_
  all_goals simp [hne.symm]

/-- `Self` can return a deleted fiber exactly when some scheduler runs tasks at once, or a loop runs inside a fiber. -/
theorem self_dangles_iff [Nonempty Tid] [Nonempty Sch] [Nontrivial Fib] :
    (∃ s : State Tid Fib Sch, (system cfg).Reachable s ∧ Dangles s) ↔ (∃ k, cfg.inline k = true) ∨ cfg.nested = true := by
  obtain ⟨t⟩ := ‹Nonempty Tid›
  obtain ⟨k⟩ := ‹Nonempty Sch›
  obtain ⟨f, g, hne⟩ := exists_pair_ne Fib
  constructor
  · rintro ⟨s, hreach, t, f, g, hon, -, hself, hdeleted⟩
    by_contra hcfg
    obtain ⟨hinline, hnested⟩ := not_or.mp hcfg
    have hgood := good_of_reachable (by simpa using hinline) (by simpa using hnested) hreach
    obtain ⟨hframes, hcurrent, -⟩ := hgood.body hon
    have halive : s.Alive f := hgood.alive (p := .thread t) ⟨_, hframes, rfl⟩
    rw [Option.some.inj (hself.symm.trans hcurrent), halive.2] at hdeleted
    cases hdeleted
  · intro hcfg
    by_cases hinline : ∃ k, cfg.inline k = true
    · obtain ⟨k, hk⟩ := hinline
      exact dangles_of_inline hk t hne
    · exact dangles_of_loop (by simpa using hinline) (hcfg.resolve_left hinline) k t hne

theorem self_dangles_iff_inline : ∃ s : State Unit Bool Unit,
    (system ⟨fun _ => true, false⟩).Reachable s ∧ Dangles s :=
  self_dangles_iff.mpr (.inl ⟨(), rfl⟩)

end Safety

end CppConcur.Fiber.Context
