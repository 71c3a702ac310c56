import CppConcur.Fiber.Lifecycle
import CppConcur.Fiber.StrandProgress

/-!
# The handles in a strand

A call of `Combine` puts the handle of its own fiber into a waiter before it suspends. From then on the handle
is scheduled by the awaiter, when that finds that it owns the strand, or by the fiber that runs the batch with
this waiter. What the strand keeps about its waiters makes it `Lawful`.
-/

namespace CppConcur.Fiber.Strand

open Logic Lifecycle

variable {Call : Type}

/-! ### The strand and its calls -/

/-- What a call does, as far as its fiber is concerned. -/
def stage (c : Call) (m : Mem Call) : Pc → Stage
  | .idle => .out
  | .tryLoad _ => .code
  | .tryCas _ => .code
  | .runOwn _ _ => .user
  | .takeLoad _ => .code
  | .takeCas _ _ => .code
  | .next _ _ => .code
  | .run _ _ _ => .user
  | .releaseLoad _ _ => .code
  | .releaseCas _ _ _ => .code
  | .schedule _ _ _ => .code
  | .awaitLoad _ => .awaiter
  | .awaitCas _ _ => .awaiter
  | .awaitSchedule _ _ => .awaiter
  | .suspended _ _ => if m.ready c then .woken else .parked
  | .endLoad _ => .code
  | .endCas _ _ => .code
  | .ret _ => .out

/-- The handle that the next step schedules. -/
def wakes (m : Mem Call) : Pc → Option Call
  | .schedule _ w _ => (m.waiter w).fiber
  | .awaitSchedule a _ => (m.waiter a).fiber
  | _ => none

/-- The waiter has the handle of the call, and the list, a batch or the fiber that runs a batch has the waiter. -/
def Carries (m : Mem Call) (pc : Call → Pc) (c : Call) (a : Addr) : Prop :=
  (m.waiter a).fiber = some c ∧ Reached m pc a

/-- A strand and its calls. -/
def component [DecidableEq Call] : Component Call where
  Mem := Mem Call
  Pc := Pc
  init := ⟨.new, fun _ => .idle⟩
  enter := fun c m pc m' pc' => pc = .idle ∧ ∃ a, m.live a = false ∧ m' = m.combine c a ∧ pc' = .tryLoad a
  step := fun c m pc m' pc' => (m', pc') = step c m pc
  -- the awaiter returns at once
  leave := fun _ m => m
  stage := stage
  wakes := fun _ m pc => wakes m pc
  Spot := Addr
  holds := Carries

/-! ### The runs are those of the strand -/

/-- A state of a run of the strand. -/
def Recorded [DecidableEq Call] (x : Conf Call (Mem Call) Pc) : Prop := ∃ last, (recordedSystem Call).Reachable (x, last)

theorem recorded_of_reachable [DecidableEq Call] {x : Conf Call (Mem Call) Pc}
    (h : (component : Component Call).system.Reachable x) : Recorded x := by
  apply h.invariant
  · rintro _ rfl
    exact ⟨[], .init ⟨rfl, fun _ => rfl, rfl⟩⟩
  · intro x x' _ hx hstep
    obtain ⟨last, hx⟩ := hx
    cases hstep with
    | @enter c _ _ henter =>
      obtain ⟨hidle, a, hfree, rfl, rfl⟩ := henter
      have hidle : x.pc c = .idle := hidle
      exact ⟨_, recorded_combine hx c a (by rw [hidle]; trivial) hfree⟩
    | @step c m' pc' hact =>
      have hact : (m', pc') = step c x.mem (x.pc c) := hact
      have hnext := recorded_step hx c
      rw [← hact] at hnext
      exact ⟨_, hnext⟩
    | leave c => exact ⟨last, hx⟩

/-! ### What a step does to the fibers -/

section Steps

variable {c u : Call} {m m' : Mem Call} {pc : Pc} {a : Addr}

theorem stage_congr (h : m'.ready c = m.ready c) (pc : Pc) : stage c m' pc = stage c m pc := by
  cases pc <;> simp only [stage, h]

theorem stage_parked {owner : Option (Option Addr)} (h : m.ready c = false) : stage c m (.suspended a owner) = .parked := by
  simp [stage, h]

theorem stage_woken {owner : Option (Option Addr)} (h : m.ready c = true) : stage c m (.suspended a owner) = .woken := by
  simp [stage, h]

theorem prepare_ready (a : Addr) (w : Word) : (m.prepare a w).ready = m.ready := by
  cases w <;> rfl

theorem batch_ready (a : Addr) (p : Option Addr) : (batch m a p).1.ready = m.ready := by
  cases p <;> rfl

/-- After a round of `ProcessBatch` there is another one, or `Combine` returns. -/
theorem stage_batch (a : Addr) (p : Option Addr) : stage c (batch m a p).1 (batch m a p).2 ∈ [Stage.out, .code] := by
  cases p <;> simp [batch, ret, stage]

variable [DecidableEq Call]

theorem schedule_ready_of_ne (h : (m.waiter a).fiber ≠ some u) : (m.schedule a).ready u = m.ready u := by
  unfold Mem.schedule
  split
  case h_1 g hg =>
    have hu : u ≠ g := fun heq => h (heq ▸ hg)
    exact Function.update_of_ne hu _ _
  case h_2 => rfl

/-- A step wakes nobody but the fiber whose handle it schedules. -/
theorem step_ready (hu : u ≠ c) (hwakes : wakes m pc ≠ some u) : (step c m pc).1.ready u = m.ready u := by
  cases pc with
  | idle | takeLoad | releaseLoad | ret | next => rfl
  | tryLoad | tryCas | releaseCas =>
    simp only [step]
    split <;> rfl
  | runOwn a b => cases b <;> rfl
  | run a w rest => cases rest <;> rfl
  | takeCas a batchHead =>
    simp only [step]
    split
    · split
      · rfl
      · rw [batch_ready]
        rfl
    · rfl
  | schedule a w rest =>
    simp only [step]
    rw [batch_ready]
    exact schedule_ready_of_ne hwakes
  | awaitLoad a =>
    simp only [step]
    rw [prepare_ready]
  | awaitCas a oldHead =>
    simp only [step]
    split
    · cases oldHead <;> rfl
    · rw [prepare_ready]
  | awaitSchedule a b => exact schedule_ready_of_ne hwakes
  | suspended a owner =>
    simp only [step]
    split
    · cases owner <;> exact Function.update_of_ne hu _ _
    · rfl
  | endLoad a =>
    simp only [step]
    split <;> rfl
  | endCas a p =>
    simp only [step]
    split <;> rfl

/-- The code of a call goes on, suspends or returns. -/
theorem stage_step_code (hruns : (stage c m pc).Runs) (hpc : ∀ a w rest, pc ≠ .schedule a w rest) :
    wakes m pc = none ∧ stage c (step c m pc).1 (step c m pc).2 ∈ [Stage.out, .code, .user, .awaiter] := by
  cases pc with
  | idle | ret | awaitLoad | awaitCas | awaitSchedule => exact hruns.elim
  | schedule a w rest => exact absurd rfl (hpc a w rest)
  | takeLoad | releaseLoad | next => simp [wakes, step, stage]
  | tryLoad | tryCas | releaseCas | endCas =>
    refine ⟨rfl, ?_⟩
    simp only [step]
    split <;> simp [stage, ret]
  | runOwn a b => cases b <;> simp [wakes, step, stage]
  | run a w rest => cases rest <;> simp [wakes, step, stage]
  | takeCas a batchHead =>
    refine ⟨rfl, ?_⟩
    simp only [step]
    split
    · split
      · simp [stage, ret]
      · have := stage_batch (c := c) (m := m.setHead .dummy) a batchHead.stripBusyBit
        simp only [List.mem_cons, List.not_mem_nil, or_false] at this ⊢
        tauto
    · simp [stage]
  | suspended a owner =>
    have hready : m.ready c = true := by
      by_contra hne
      simp [stage, hne, Stage.Runs] at hruns
    refine ⟨rfl, ?_⟩
    simp only [step, hready, if_true]
    cases owner <;> simp [stage]
  | endLoad a =>
    refine ⟨rfl, ?_⟩
    simp only [step]
    split <;> simp [stage, ret]

end Steps

/-! ### The strand is lawful -/

section Lawful

variable {c : Call} {m : Mem Call} {x : Aux Call} {pc : Call → Pc} {a w : Addr}

/-- A waiter that a fiber works on, or that is in the list or in a batch, is waiting. -/
theorem Reached.waiting (hgood : Good m x) (hpc : ∀ f, Assertion f m x (pc f)) (h : Reached m pc a) :
    (x.state a).Waiting := by
  rcases h with ⟨l, hhead, hl, ha⟩ | ⟨g, ⟨l, hhead, hl, ha⟩ | hworks⟩
  · obtain rfl := hl.unique hgood.list_chained (hhead.trans hgood.list_head.symm)
    rw [(hgood.mem_list a).mp ha]
    trivial
  · have hrest : (pc g).rest ≠ none := by
      intro hnone
      exact not_onChain_none ⟨l, hhead.trans hnone, hl, ha⟩
    obtain rfl := hl.unique (hgood.held_chained g) (hhead.trans ((hpc g).held_head hrest).symm)
    rw [(hgood.mem_held g a).mp ha]
    trivial
  · have hstate : x.state a = .current g := by
      have hg := hpc g
      cases hpcg : pc g with
      | run b w' rest =>
        rw [hpcg] at hworks hg
        obtain rfl : w' = a := hworks
        exact hg.2.2.state
      | releaseLoad b w' =>
        rw [hpcg] at hworks hg
        obtain rfl : w' = a := hworks
        exact hg.2.2.1.state
      | releaseCas b w' oldHead =>
        rw [hpcg] at hworks hg
        obtain rfl : w' = a := hworks
        exact hg.2.2.1.state
      | schedule b w' rest =>
        rw [hpcg] at hworks hg
        obtain rfl : w' = a := hworks
        exact hg.2.1.state
      | _ =>
        rw [hpcg] at hworks
        exact hworks.elim
    rw [hstate]
    trivial

/-- There is one waiter with the handle of a suspended fiber. -/
theorem existsUnique_carries {last : List Nat} (hgood : Good m x) (hpc : ∀ f, Assertion f m x (pc f))
    (hprogress : Progress m pc last) (hparked : stage c m (pc c) = .parked) : ∃! a, Carries m pc c a := by
  obtain ⟨a, owner, hsuspended⟩ : ∃ a owner, pc c = .suspended a owner := by
    cases hpcc : pc c with
    | suspended a owner => exact ⟨a, owner, rfl⟩
    | _ =>
      rw [hpcc] at hparked
      cases hparked
  have hready : m.ready c = false := by
    rw [hsuspended] at hparked
    simpa [stage] using hparked
  have hc := hpc c
  rw [hsuspended] at hc
  cases owner with
  | some batch =>
    rw [hprogress.awake c a batch hsuspended] at hready
    cases hready
  | none =>
    have hwaiting : (x.state a).Waiting := by
      rcases hc.2 with hwaiting | ⟨_, hwoken⟩
      · exact hwaiting
      · rw [hwoken] at hready
        cases hready
    obtain ⟨f, hfiber, hown, _⟩ := hgood.waiting a hwaiting
    obtain rfl := hgood.own_inj f c a hown hc.1
    refine ⟨a, ⟨hfiber, hprogress.reached f a hsuspended hready⟩, ?_⟩
    rintro b ⟨hfiber', hreached⟩
    obtain ⟨g, hg, hown', _⟩ := hgood.waiting b (hreached.waiting hgood hpc)
    obtain rfl := Option.some.inj (hfiber'.symm.trans hg)
    exact Option.some.inj (hown'.symm.trans hc.1)

/-- A fiber whose handle is in the strand is suspended. -/
theorem parked_of_carries (hgood : Good m x) (hpc : ∀ f, Assertion f m x (pc f)) (h : Carries m pc c a) :
    stage c m (pc c) = .parked := by
  obtain ⟨hfiber, hreached⟩ := h
  have hwaiting := hreached.waiting hgood hpc
  obtain ⟨g, hg, hown, hready⟩ := hgood.waiting a hwaiting
  obtain rfl := Option.some.inj (hfiber.symm.trans hg)
  rw [(hpc c).suspended_of_waiting hown hwaiting]
  exact stage_parked hready

/-- The fiber of the waiter that a batch runner schedules is suspended, and it is another one. -/
theorem schedule_parked {rest : Option Addr} (hgood : Good m x) (hpc : ∀ f, Assertion f m x (pc f))
    (hc : pc c = .schedule a w rest) :
    ∃ d, d ≠ c ∧ (m.waiter w).fiber = some d ∧ pc d = .suspended w none ∧ m.ready d = false := by
  have hpcc := hpc c
  rw [hc] at hpcc
  have hwaiting : (x.state w).Waiting := by
    rw [hpcc.2.1.state]
    trivial
  obtain ⟨d, hfiber, hown, hready⟩ := hgood.waiting w hwaiting
  have hsuspended := (hpc d).suspended_of_waiting hown hwaiting
  refine ⟨d, ?_, hfiber, hsuspended, hready⟩
  rintro rfl
  cases hc.symm.trans hsuspended

variable [DecidableEq Call]

/-- The strand is lawful. -/
theorem lawful : (component : Component Call).Lawful where
  init c := rfl
  enter y hy c m' pc' henter := by
    obtain ⟨hidle, a, hfree, rfl, rfl⟩ := henter
    refine ⟨?_, rfl, fun d _ => stage_congr rfl (y.pc d)⟩
    show stage c y.mem (y.pc c) = .out
    rw [show y.pc c = .idle from hidle]
    rfl
  code y hy c m' pc' hact hruns := by
    have hact : (m', pc') = step c y.mem (y.pc c) := hact
    obtain ⟨rfl, rfl⟩ := Prod.mk.inj hact
    obtain ⟨last, hy⟩ := recorded_of_reachable hy
    obtain ⟨x, hgood, hpc⟩ := good_of_reachable (reachable_of_recorded hy)
    by_cases hschedule : ∃ a w rest, y.pc c = .schedule a w rest
    · obtain ⟨a, w, rest, hc⟩ := hschedule
      obtain ⟨d, hd, hfiber, hsuspended, hready⟩ := schedule_parked hgood hpc hc
      refine .inr ⟨d, hd, ?_, ?_, ?_, ?_⟩
      · show wakes y.mem (y.pc c) = some d
        rw [hc]
        exact hfiber
      · show stage d y.mem (y.pc d) = .parked
        rw [hsuspended]
        exact stage_parked hready
      · show stage d (step c y.mem (y.pc c)).1 (y.pc d) = .woken
        have hwoken : ((y.mem.touch w).schedule w).ready d = true := (schedule_ready (m := y.mem.touch w) hfiber).1
        rw [hsuspended, hc]
        refine stage_woken ?_
        simp only [step, batch_ready, hwoken]
      · show stage c (step c y.mem (y.pc c)).1 (step c y.mem (y.pc c)).2 ∈ _
        rw [hc]
        exact stage_batch a rest
    · exact .inl (stage_step_code hruns fun a w rest hc => hschedule ⟨a, w, rest, hc⟩)
  awaiter y hy c m' pc' hact hawaiter := by
    have hact : (m', pc') = step c y.mem (y.pc c) := hact
    have hawaiter : stage c y.mem (y.pc c) = .awaiter := hawaiter
    obtain ⟨rfl, rfl⟩ := Prod.mk.inj hact
    obtain ⟨last, hy⟩ := recorded_of_reachable hy
    obtain ⟨x, hgood, hpc⟩ := good_of_reachable (reachable_of_recorded hy)
    have hpcc := hpc c
    show (wakes y.mem (y.pc c) = none ∧ stage c (step c y.mem (y.pc c)).1 (step c y.mem (y.pc c)).2 ∈ _) ∨
      wakes y.mem (y.pc c) = some c ∧ stage c (step c y.mem (y.pc c)).1 (step c y.mem (y.pc c)).2 = .woken
    cases hc : y.pc c with
    | awaitLoad a => exact .inl ⟨rfl, by simp [step, stage]⟩
    | awaitCas a oldHead =>
      rw [hc] at hpcc
      have hready : y.mem.ready c = false := hpcc.1.ready
      refine .inl ⟨rfl, ?_⟩
      simp only [step]
      split
      · cases oldHead <;> simp [stage, Mem.setHead, hready]
      · simp [stage]
    | awaitSchedule a b =>
      rw [hc] at hpcc
      have hfiber := hpcc.1.fiber
      refine .inr ⟨hfiber, ?_⟩
      exact stage_woken (schedule_ready hfiber).1
    | suspended a owner =>
      rw [hc] at hawaiter
      simp only [stage] at hawaiter
      split at hawaiter <;> cases hawaiter
    | _ =>
      rw [hc] at hawaiter
      cases hawaiter
  others y hy c m' pc' hact d hd hwakes := by
    have hact : (m', pc') = step c y.mem (y.pc c) := hact
    obtain ⟨rfl, rfl⟩ := Prod.mk.inj hact
    exact stage_congr (step_ready hd hwakes) (y.pc d)
  leave c d m pc := rfl
  parked y hy c hc := by
    obtain ⟨last, hy⟩ := recorded_of_reachable hy
    obtain ⟨x, hgood, hpc⟩ := good_of_reachable (reachable_of_recorded hy)
    exact existsUnique_carries hgood hpc (progress_of_reachable hy) hc
  held y hy c a hcarries := by
    obtain ⟨last, hy⟩ := recorded_of_reachable hy
    obtain ⟨x, hgood, hpc⟩ := good_of_reachable (reachable_of_recorded hy)
    exact parked_of_carries hgood hpc hcarries

end Lawful

end CppConcur.Fiber.Strand
