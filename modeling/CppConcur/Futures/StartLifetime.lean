import CppConcur.Logic.Transition

/-!
# The lifetime of a started future

`Start` allocates a `StartComputation`, which evaluates its producer at once and keeps the value. The
future it returns is materialized, anywhere in a pipeline, as a `StartComputationWithConsumer`, which
is a part of the surrounding computation: its `Start()` waits for the value, hands it to the consumer
and deletes the `StartComputation` through its field `comp_`.

Once the consumer has been resumed the surrounding computation may be destroyed at any time: by
`DestructingDemand` inside the call or, behind a scheduler, on another thread, by the thread that
returns from `Get`, or, for an input of `First`, by the completion that comes second. An inner future
of `FlatMap` is destroyed with the computation it is nested in. So its owner is a party of the model
that destroys it at some point after the call of `consumer_.Resume` has begun.
-/

namespace CppConcur.Futures.StartLifetime

open Logic

/-- Where the producer is: in its evaluation, then in `StartComputation::Resume`. -/
inductive Producer
  | running
  /-- `val_` and `s_` are set -/
  | stored
  /-- `ready_.store(1)` is done; what is left is `WakeOne`, which is given a prepared key -/
  | published
  /-- `StartComputation::Resume` has returned -/
  | woken
  deriving DecidableEq

/-- Where `StartComputationWithConsumer::Start` is. -/
inductive Starter
  | idle
  /-- in `futex::Wait(comp_->ready_, 0)` -/
  | waiting
  /-- the wait is over and `consumer_.Resume` is the next call -/
  | ready
  /-- inside `consumer_.Resume` -/
  | resuming
  /-- `consumer_.Resume` has returned and `delete comp_` comes next -/
  | resumed
  | returned
  deriving DecidableEq

/-- The two objects, as far as their fields matter, and the places of the producer and of `Start()`.
`fault` records an access to an object that is not alive. -/
structure State where
  /-- the surrounding computation, which holds `consumer_` and `comp_`, is alive -/
  alive : Bool
  /-- `val_` and `s_` are set -/
  stored : Bool
  /-- `ready_` -/
  ready : Bool
  /-- how often the `StartComputation` has been deleted -/
  deleted : Nat
  producer : Producer
  starter : Starter
  fault : Bool
  deriving DecidableEq

namespace State

/-- An access of `Start()` to its own fields. -/
def touchOwn (s : State) : State :=
  { s with fault := s.fault || !s.alive }

/-- An access to the fields of the `StartComputation`. -/
def touchStarted (s : State) : State :=
  { s with fault := s.fault || s.deleted != 0 }

/-- The consumer has been resumed, so that the value may have reached the end of the pipeline. -/
def Delivering (s : State) : Prop :=
  s.starter = .resuming ∨ s.starter = .resumed ∨ s.starter = .returned

end State

/-- One step of the producer, of `StartComputationWithConsumer::Start` or of the owner of the
surrounding computation. -/
inductive Step (s : State) : State → Prop
  -- `StartComputation::Resume`
  | store (h : s.producer = .running) :
      Step s { s.touchStarted with stored := true, producer := .stored }
  | publish (h : s.producer = .stored) :
      Step s { s.touchStarted with ready := true, producer := .published }
  | wake (h : s.producer = .published) : Step s { s with producer := .woken }
  -- `StartComputationWithConsumer::Start`
  | start (h : s.starter = .idle) : Step s { s.touchOwn with starter := .waiting }
  | wait (h : s.starter = .waiting) (hready : s.ready = true) :
      Step s { s.touchStarted with starter := .ready }
  | resume (h : s.starter = .ready) :
      Step s { s.touchOwn.touchStarted with starter := .resuming }
  | ret (h : s.starter = .resuming) : Step s { s with starter := .resumed }
  | delete (h : s.starter = .resumed) :
      Step s { s.touchOwn with deleted := s.deleted + 1, starter := .returned }
  -- the owner
  | destroy (h : s.Delivering) (halive : s.alive = true) : Step s { s with alive := false }

/-- The producer is materialized and started by the constructor of `StartComputation`. -/
def initial : State :=
  ⟨true, false, false, 0, .running, .idle, false⟩

def system : System State where
  init s := s = initial
  step s s' := Step s s'

/-- The runs in which the surrounding computation is destroyed only after `Start()` has returned. -/
def outlivedSystem : System State :=
  system.restrict fun s s' => s.alive = true → s'.alive = false → s.starter = .returned

/-- What holds in every run whose owner waits for `Start()`. -/
structure Sound (s : State) : Prop where
  fault : s.fault = false
  alive : s.starter ≠ .returned → s.alive = true
  deleted : s.deleted = if s.starter = .returned then 1 else 0
  ready : s.starter ∉ [Starter.idle, .waiting] → s.ready = true
  published : s.ready = true ↔ s.producer = .published ∨ s.producer = .woken
  stored : s.stored = true ↔ s.producer ≠ .running

section Steps

variable {s s' : State}

theorem sound_initial : Sound initial := by
  constructor <;> decide

/-- While `Start()` has not returned, its own fields may be accessed. -/
theorem Sound.touchOwn (h : Sound s) (hstarter : s.starter ≠ .returned) : s.touchOwn = s := by
  have hfault : (s.fault || !s.alive) = s.fault := by simp [h.alive hstarter]
  rw [State.touchOwn, hfault]

/-- The `StartComputation` may be accessed while `Start()` has not returned. -/
theorem Sound.touchStarted (h : Sound s) (hstarter : s.starter ≠ .returned) : s.touchStarted = s := by
  have hfault : (s.fault || s.deleted != 0) = s.fault := by simp [h.deleted, hstarter]
  rw [State.touchStarted, hfault]

/-- Before `ready_` is set `Start()` is at most waiting. -/
theorem Sound.not_returned (h : Sound s) (hready : s.ready = false) : s.starter ≠ .returned := by
  intro hstarter
  have := h.ready (by rw [hstarter]; decide)
  rw [hready] at this
  contradiction

theorem Sound.ready_of_producer (h : Sound s) (hproducer : s.producer = .running ∨ s.producer = .stored) :
    s.ready = false := by
  rw [← Bool.not_eq_true, h.published]
  rcases hproducer with hproducer | hproducer <;> simp [hproducer]

theorem Sound.step (h : Sound s) (hstep : Step s s')
    (howner : s.alive = true → s'.alive = false → s.starter = .returned) : Sound s' := by
  obtain ⟨hfault, halive, hdeleted, hready, hpublished, hstored⟩ := id h
  cases hstep with
  | store hproducer =>
    have hopen := h.ready_of_producer (.inl hproducer)
    rw [h.touchStarted (h.not_returned hopen)]
    exact ⟨hfault, halive, hdeleted, hready, by simp [hopen], by simp⟩
  | publish hproducer =>
    have hopen := h.ready_of_producer (.inr hproducer)
    rw [h.touchStarted (h.not_returned hopen)]
    exact ⟨hfault, halive, hdeleted, fun _ => rfl, by simp, by simp [hstored, hproducer]⟩
  | wake hproducer =>
    exact ⟨hfault, halive, hdeleted, hready, by simp [hpublished, hproducer],
      by simp [hstored, hproducer]⟩
  | start hstarter =>
    rw [h.touchOwn (by simp [hstarter])]
    exact ⟨hfault, fun _ => halive (by simp [hstarter]), by simp [hdeleted, hstarter],
      fun hnot => absurd (by simp) hnot, hpublished, hstored⟩
  | wait hstarter hset =>
    rw [h.touchStarted (by simp [hstarter])]
    exact ⟨hfault, fun _ => halive (by simp [hstarter]), by simp [hdeleted, hstarter], fun _ => hset,
      hpublished, hstored⟩
  | resume hstarter =>
    rw [h.touchOwn (by simp [hstarter]), h.touchStarted (by simp [hstarter])]
    exact ⟨hfault, fun _ => halive (by simp [hstarter]), by simp [hdeleted, hstarter],
      fun _ => hready (by simp [hstarter]), hpublished, hstored⟩
  | ret hstarter =>
    exact ⟨hfault, fun _ => halive (by simp [hstarter]), by simp [hdeleted, hstarter],
      fun _ => hready (by simp [hstarter]), hpublished, hstored⟩
  | delete hstarter =>
    rw [h.touchOwn (by simp [hstarter])]
    exact ⟨hfault, fun hnot => absurd rfl hnot, by simp [hdeleted, hstarter],
      fun _ => hready (by simp [hstarter]), hpublished, hstored⟩
  | destroy _ hlive =>
    exact ⟨hfault, fun hnot => absurd (howner hlive rfl) hnot, hdeleted, hready, hpublished, hstored⟩

theorem sound_of_reachable (h : outlivedSystem.Reachable s) : Sound s := by
  induction h with
  | init hinit =>
    obtain rfl : _ = initial := hinit
    exact sound_initial
  | step _ hstep ih => exact ih.step hstep.1 hstep.2

end Steps

/-- If the surrounding computation is destroyed only after `StartComputationWithConsumer::Start` has
returned, no access hits a destroyed object, and the `StartComputation` is deleted once, by that
`Start()`, after the producer has delivered the value. -/
theorem started_lifetime {s : State} (h : outlivedSystem.Reachable s) :
    s.fault = false ∧ s.deleted ≤ 1 ∧ (s.deleted = 1 ↔ s.starter = .returned) ∧
      (s.deleted ≠ 0 → s.stored = true ∧ s.ready = true) := by
  have hs := sound_of_reachable h
  have hdeleted := hs.deleted
  refine ⟨hs.fault, ?_, ?_, ?_⟩
  · split at hdeleted <;> omega
  · split at hdeleted <;> simp [*]
  · intro hne
    have hreturned : s.starter = .returned := by
      by_contra hnot
      exact hne (by simp [hdeleted, hnot])
    have hready := hs.ready (by simp [hreturned])
    refine ⟨hs.stored.2 ?_, hready⟩
    rcases hs.published.1 hready with hproducer | hproducer <;> simp [hproducer]

/-- The value of a producer that has completed is handed to the consumer. -/
def resuming : State :=
  ⟨true, true, true, 0, .woken, .resuming, false⟩

/-- Up to the call of the consumer nothing is destroyed. -/
theorem resuming_reachable : outlivedSystem.Reachable resuming := by
  have hstore : outlivedSystem.Reachable ⟨true, true, false, 0, .stored, .idle, false⟩ :=
    .step (.init rfl) ⟨.store rfl, fun _ h => nomatch h⟩
  have hpublish : outlivedSystem.Reachable ⟨true, true, true, 0, .published, .idle, false⟩ :=
    .step hstore ⟨.publish rfl, fun _ h => nomatch h⟩
  have hwake : outlivedSystem.Reachable ⟨true, true, true, 0, .woken, .idle, false⟩ :=
    .step hpublish ⟨.wake rfl, fun _ h => nomatch h⟩
  have hstart : outlivedSystem.Reachable ⟨true, true, true, 0, .woken, .waiting, false⟩ :=
    .step hwake ⟨.start rfl, fun _ h => nomatch h⟩
  have hwait : outlivedSystem.Reachable ⟨true, true, true, 0, .woken, .ready, false⟩ :=
    .step hstart ⟨.wait rfl rfl, fun _ h => nomatch h⟩
  exact .step hwait ⟨.resume rfl, fun _ h => nomatch h⟩

/-- `Get` on the thread that calls `Start()`: the computation is destroyed when `Get` returns. -/
theorem started_lifetime_get :
    ∃ s, outlivedSystem.Reachable s ∧ s.alive = false ∧ s.deleted = 1 ∧ s.fault = false := by
  have hret : outlivedSystem.Reachable ⟨true, true, true, 0, .woken, .resumed, false⟩ :=
    .step resuming_reachable ⟨.ret rfl, fun _ h => nomatch h⟩
  have hdelete : outlivedSystem.Reachable ⟨true, true, true, 1, .woken, .returned, false⟩ :=
    .step hret ⟨.delete rfl, fun _ h => nomatch h⟩
  have hdestroy : outlivedSystem.Reachable ⟨false, true, true, 1, .woken, .returned, false⟩ :=
    .step hdelete ⟨.destroy (.inr (.inr rfl)) rfl, fun _ _ => rfl⟩
  exact ⟨_, hdestroy, rfl, rfl, (started_lifetime hdestroy).1⟩

/-- `Ready(v) | Start() | Detach()`: `DestructingDemand` destroys the surrounding computation inside the
call of the consumer, and `delete comp_` then reads a field of it. -/
theorem started_use_after_free : ∃ s, system.Reachable s ∧ s.alive = false ∧ s.fault = true := by
  have hdestroy : system.Reachable ⟨false, true, true, 0, .woken, .resuming, false⟩ :=
    .step resuming_reachable.of_restrict (.destroy (.inl rfl) rfl)
  have hret : system.Reachable ⟨false, true, true, 0, .woken, .resumed, false⟩ :=
    .step hdestroy (.ret rfl)
  have hdelete : system.Reachable ⟨false, true, true, 1, .woken, .returned, true⟩ :=
    .step hret (.delete rfl)
  exact ⟨_, hdelete, rfl, rfl⟩

end CppConcur.Futures.StartLifetime
