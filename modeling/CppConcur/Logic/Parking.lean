import Mathlib.Data.Nat.Basic
import Mathlib.Logic.Function.Basic

/-!
# Parking workers on event counters

A protocol for workers that sleep when there is no work. Each worker has an event counter that only
grows. To go to sleep a worker loads its counter, registers in a list of waiters, looks for work once
more, and sleeps until the counter has moved. Whoever brings new work afterwards skips the wakeup if
some worker is known to be looking for work, and otherwise takes one waiter from the list and moves
its counter. Entries of the list may be stale or duplicated: a worker never removes itself.

A thread of a concrete program is seen through its `Phase`, and the shared state through a `Lot`. If
every action of the program is one of the ways a phase may `Shift`, and a worker that is known to be
looking for work is not at rest, then the program keeps `Protocol`: while there is work, somebody is
`Alerted`.
-/

namespace CppConcur.Logic.Parking

/-- The shared state: the event counters, the registered waiters, whether there is work in the
shared queue, and whether a worker is announced to be looking for work. -/
structure Lot (ι : Type*) where
  wakes : ι → Nat
  waiters : List ι
  work : Prop
  spinning : Prop

/-- The phase of a thread: it has loaded its counter, it has also registered, it has also seen that
there is no work, it has brought work and not decided yet whether to wake a worker, it is about to
wake one, or none of these. -/
inductive Phase (ι : Type*) where
  | active
  | loaded (old : Nat)
  | registered (old : Nat)
  | passive (old : Nat)
  | obligated
  | waking (v : ι)

variable {ι : Type*}

/-- Nothing happens that could let work wait: counters may move and work may be taken. -/
structure Frame (l l' : Lot ι) : Prop where
  wakes_le : ∀ j, l.wakes j ≤ l'.wakes j
  waiters_eq : l'.waiters = l.waiters
  work_imp : l'.work → l.work

theorem Frame.refl (l : Lot ι) : Frame l l := ⟨fun _ => le_rfl, rfl, id⟩

/-- The ways the phase of a thread changes; `self` is the worker that acts, if it is one. -/
inductive Shift (self : Option ι) (l l' : Lot ι) : Phase ι → Phase ι → Prop
  | stay {p : Phase ι} (hframe : Frame l l') : Shift self l l' p p
  | load {i : ι} (hself : self = some i) (hframe : Frame l l') : Shift self l l' .active (.loaded (l.wakes i))
  | register {i : ι} {old : Nat} (hself : self = some i) (hwakes : ∀ j, l.wakes j ≤ l'.wakes j)
      (hwaiters : l'.waiters = l.waiters ++ [i]) (hwork : l'.work → l.work) :
      Shift self l l' (.loaded old) (.registered old)
  | settle {old : Nat} (hframe : Frame l l') (hempty : ¬ l'.work) : Shift self l l' (.registered old) (.passive old)
  | leaveRegistered {old : Nat} (hframe : Frame l l') : Shift self l l' (.registered old) .active
  | leavePassive {old : Nat} (hframe : Frame l l') : Shift self l l' (.passive old) .active
  | publish (hwakes : ∀ j, l.wakes j ≤ l'.wakes j) (hwaiters : l'.waiters = l.waiters) :
      Shift self l l' .active .obligated
  | skip (hframe : Frame l l') (hspinning : l.spinning) : Shift self l l' .obligated .active
  | popNone (hframe : Frame l l') (hnone : l.waiters = []) : Shift self l l' .obligated .active
  | pop {p : Phase ι} {v : ι} (hp : p = .active ∨ p = .obligated) (hwakes : ∀ j, l.wakes j ≤ l'.wakes j)
      (hwaiters : l.waiters = v :: l'.waiters) (hwork : l'.work → l.work) : Shift self l l' p (.waking v)
  | wake {v : ι} (hframe : Frame l l') (hlt : l.wakes v < l'.wakes v) : Shift self l l' (.waking v) .active

/-- The counter a thread in this phase has loaded. -/
def Phase.since : Phase ι → Option Nat
  | .loaded old => some old
  | .registered old => some old
  | .passive old => some old
  | _ => none

/-- The same for a thread that has also registered. -/
def Phase.enrolled : Phase ι → Option Nat
  | .registered old => some old
  | .passive old => some old
  | _ => none

/-- The same for a thread that has also seen that there is no work: it is at rest. -/
def Phase.resting : Phase ι → Option Nat
  | .passive old => some old
  | _ => none

theorem Phase.since_of_enrolled {p : Phase ι} {old : Nat} (h : p.enrolled = some old) : p.since = some old := by
  cases p <;> first | exact h | cases h

theorem Phase.enrolled_of_resting {p : Phase ι} {old : Nat} (h : p.resting = some old) : p.enrolled = some old := by
  cases p <;> first | exact h | cases h

/-! ### What one shift can do -/

section Shift

variable {self : Option ι} {l l' : Lot ι} {p p' : Phase ι}

theorem Shift.wakes_le (h : Shift self l l' p p') (j : ι) : l.wakes j ≤ l'.wakes j := by
  cases h with
  | register _ hwakes _ _ => exact hwakes j
  | publish hwakes _ => exact hwakes j
  | pop _ hwakes _ _ => exact hwakes j
  | stay hframe => exact hframe.wakes_le j
  | load _ hframe => exact hframe.wakes_le j
  | settle hframe _ => exact hframe.wakes_le j
  | leaveRegistered hframe => exact hframe.wakes_le j
  | leavePassive hframe => exact hframe.wakes_le j
  | skip hframe _ => exact hframe.wakes_le j
  | popNone hframe _ => exact hframe.wakes_le j
  | wake hframe _ => exact hframe.wakes_le j

theorem Shift.since_or (h : Shift self l l' p p') {old : Nat} (hsince : p'.since = some old) :
    p.since = some old ∨ ∃ i, self = some i ∧ old = l.wakes i := by
  cases h with
  | stay _ => exact .inl hsince
  | load hself _ => exact .inr ⟨_, hself, (Option.some.inj hsince).symm⟩
  | register _ _ _ _ => exact .inl hsince
  | settle _ _ => exact .inl hsince
  | _ => cases hsince

theorem Shift.enrolled_or (h : Shift self l l' p p') {old : Nat} (henrolled : p'.enrolled = some old) :
    p.enrolled = some old ∨ ∃ i, self = some i ∧ i ∈ l'.waiters := by
  cases h with
  | stay _ => exact .inl henrolled
  | register hself _ hwaiters _ =>
    refine .inr ⟨_, hself, ?_⟩
    rw [hwaiters]
    exact List.mem_append_right _ (List.mem_singleton_self _)
  | settle _ _ => exact .inl henrolled
  | _ => cases henrolled

theorem Shift.mem_waiters_or (h : Shift self l l' p p') {j : ι} (hj : j ∈ l.waiters) :
    j ∈ l'.waiters ∨ p' = .waking j := by
  have hframe : Frame l l' → j ∈ l'.waiters := fun hframe => hframe.waiters_eq ▸ hj
  cases h with
  | register _ _ hwaiters _ =>
    rw [hwaiters]
    exact .inl (List.mem_append_left _ hj)
  | publish _ hwaiters => exact .inl (hwaiters ▸ hj)
  | pop _ _ hwaiters _ =>
    rw [hwaiters] at hj
    rcases List.mem_cons.mp hj with rfl | hj
    · exact .inr rfl
    · exact .inl hj
  | stay h => exact .inl (hframe h)
  | load _ h => exact .inl (hframe h)
  | settle h _ => exact .inl (hframe h)
  | leaveRegistered h => exact .inl (hframe h)
  | leavePassive h => exact .inl (hframe h)
  | skip h _ => exact .inl (hframe h)
  | popNone h _ => exact .inl (hframe h)
  | wake h _ => exact .inl (hframe h)

theorem Shift.waking_or (h : Shift self l l' p p') {v : ι} (hp : p = .waking v) :
    p' = .waking v ∨ l.wakes v < l'.wakes v := by
  cases h with
  | stay _ => exact .inl hp
  | wake _ hlt =>
    cases hp
    exact .inr hlt
  | pop hor _ _ _ => rcases hor with rfl | rfl <;> cases hp
  | _ => cases hp

/-- A thread comes to rest only while there is no work. -/
theorem Shift.resting_or (h : Shift self l l' p p') : p'.resting = none ∨ p'.resting = p.resting ∨ ¬ l'.work := by
  cases h with
  | stay _ => exact .inr (.inl rfl)
  | settle _ hempty => exact .inr (.inr hempty)
  | _ => exact .inl rfl

/-- Work comes only from a thread that then has to wake a worker. -/
theorem Shift.work_or (h : Shift self l l' p p') (hwork : l'.work) : l.work ∨ p' = .obligated := by
  cases h with
  | publish _ _ => exact .inr rfl
  | register _ _ _ himp => exact .inl (himp hwork)
  | pop _ _ _ himp => exact .inl (himp hwork)
  | stay h => exact .inl (h.work_imp hwork)
  | load _ h => exact .inl (h.work_imp hwork)
  | settle h _ => exact .inl (h.work_imp hwork)
  | leaveRegistered h => exact .inl (h.work_imp hwork)
  | leavePassive h => exact .inl (h.work_imp hwork)
  | skip h _ => exact .inl (h.work_imp hwork)
  | popNone h _ => exact .inl (h.work_imp hwork)
  | wake h _ => exact .inl (h.work_imp hwork)

/-- A thread that has to wake a worker does, unless some worker is looking for work or none has registered. -/
theorem Shift.obligated_or (h : Shift self l l' p p') (hp : p = .obligated) :
    p' = .obligated ∨ (∃ v, p' = .waking v) ∨ l.spinning ∨ l.waiters = [] := by
  cases h with
  | stay _ => exact .inl hp
  | skip _ hspinning => exact .inr (.inr (.inl hspinning))
  | popNone _ hnone => exact .inr (.inr (.inr hnone))
  | pop _ _ _ _ => exact .inr (.inl ⟨_, rfl⟩)
  | _ => cases hp

end Shift

/-! ### The invariant -/

section Protocol

variable {Tid : Type*}

/-- Somebody is going to look for work: a worker that is not at rest, a thread that has to wake a
worker or is about to, or a worker at rest that has been woken. -/
inductive Alerted (worker : ι → Tid) (l : Lot ι) (phase : Tid → Phase ι) : Prop
  | working (i : ι) (hnone : (phase (worker i)).resting = none)
  | obligated (t : Tid) (ht : phase t = .obligated)
  | waking (t : Tid) (v : ι) (ht : phase t = .waking v)
  | woken (i : ι) (old : Nat) (hold : (phase (worker i)).resting = some old) (hlt : old < l.wakes i)

/-- The invariant: a registered worker is still in the list, about to be woken, or has been woken,
and work never waits unnoticed. -/
structure Protocol (worker : ι → Tid) (l : Lot ι) (phase : Tid → Phase ι) : Prop where
  since_le : ∀ i old, (phase (worker i)).since = some old → old ≤ l.wakes i
  enrolled : ∀ i old, (phase (worker i)).enrolled = some old →
    i ∈ l.waiters ∨ (∃ t, phase t = .waking i) ∨ old < l.wakes i
  alerted : l.work → Alerted worker l phase

variable {worker : ι → Tid} {l l' : Lot ι} {phase : Tid → Phase ι}

/-- Before any work is brought, while all threads are active. -/
theorem Protocol.of_active (hactive : ∀ t, phase t = .active) (hwork : ¬ l.work) : Protocol worker l phase where
  since_le i old hsince := by
    rw [hactive] at hsince
    cases hsince
  enrolled i old henrolled := by
    rw [hactive] at henrolled
    cases henrolled
  alerted h := absurd h hwork

/-- If nobody is registered, somebody is awake or about to be woken. -/
theorem Protocol.alerted_of_no_waiter [Nonempty ι] (h : Protocol worker l phase) (hnone : l.waiters = []) :
    (∃ i, (phase (worker i)).resting = none) ∨ (∃ u v, phase u = .waking v) ∨
      ∃ i old, (phase (worker i)).resting = some old ∧ old < l.wakes i := by
  obtain ⟨i⟩ := ‹Nonempty ι›
  cases hrest : (phase (worker i)).resting with
  | none => exact .inl ⟨i, hrest⟩
  | some old =>
    rcases h.enrolled i old (Phase.enrolled_of_resting hrest) with hmem | ⟨u, hu⟩ | hlt
    · rw [hnone] at hmem
      cases hmem
    · exact .inr (.inl ⟨u, i, hu⟩)
    · exact .inr (.inr ⟨i, old, hrest, hlt⟩)

variable [DecidableEq Tid] {t : Tid} {p : Phase ι} {self : Option ι}

theorem update_cases (phase : Tid → Phase ι) (t : Tid) (p : Phase ι) (u : Tid) :
    (u = t ∧ Function.update phase t p u = p) ∨ (u ≠ t ∧ Function.update phase t p u = phase u) := by
  by_cases hu : u = t
  · exact .inl ⟨hu, by rw [hu, Function.update_self]⟩
  · exact .inr ⟨hu, Function.update_of_ne hu ..⟩

theorem Protocol.since_le_step (h : Protocol worker l phase) (hself : ∀ i, worker i = t → self = some i)
    (hshift : Shift self l l' (phase t) p) (i : ι) (old : Nat)
    (hsince : (Function.update phase t p (worker i)).since = some old) : old ≤ l'.wakes i := by
  refine le_trans ?_ (hshift.wakes_le i)
  rcases update_cases phase t p (worker i) with ⟨ht, heq⟩ | ⟨_, heq⟩
  · rw [heq] at hsince
    rcases hshift.since_or hsince with hold | ⟨j, hj, rfl⟩
    · exact h.since_le i old (ht ▸ hold)
    · rw [hself i ht] at hj
      cases hj
      exact le_rfl
  · exact h.since_le i old (heq ▸ hsince)

theorem Protocol.enrolled_step (h : Protocol worker l phase) (hself : ∀ i, worker i = t → self = some i)
    (hshift : Shift self l l' (phase t) p) (i : ι) (old : Nat)
    (henrolled : (Function.update phase t p (worker i)).enrolled = some old) :
    i ∈ l'.waiters ∨ (∃ u, Function.update phase t p u = .waking i) ∨ old < l'.wakes i := by
  have hkeep : (phase (worker i)).enrolled = some old →
      i ∈ l'.waiters ∨ (∃ u, Function.update phase t p u = .waking i) ∨ old < l'.wakes i := by
    intro hold
    rcases h.enrolled i old hold with hmem | ⟨u, hu⟩ | hlt
    · rcases hshift.mem_waiters_or hmem with hmem' | hwaking
      · exact .inl hmem'
      · exact .inr (.inl ⟨t, by rw [Function.update_self, hwaking]⟩)
    · rcases update_cases phase t p u with ⟨rfl, heq⟩ | ⟨_, heq⟩
      · rcases hshift.waking_or hu with hwaking | hlt
        · exact .inr (.inl ⟨u, by rw [heq, hwaking]⟩)
        · have hle := h.since_le i old (Phase.since_of_enrolled hold)
          exact .inr (.inr (Nat.lt_of_le_of_lt hle hlt))
      · exact .inr (.inl ⟨u, by rw [heq, hu]⟩)
    · exact .inr (.inr (Nat.lt_of_lt_of_le hlt (hshift.wakes_le i)))
  rcases update_cases phase t p (worker i) with ⟨ht, heq⟩ | ⟨_, heq⟩
  · rw [heq] at henrolled
    rcases hshift.enrolled_or henrolled with hold | ⟨j, hj, hmem⟩
    · exact hkeep (ht ▸ hold)
    · rw [hself i ht] at hj
      cases hj
      exact .inl hmem
  · exact hkeep (heq ▸ henrolled)

theorem Protocol.alerted_step [Nonempty ι] (h : Protocol worker l phase) (hshift : Shift self l l' (phase t) p)
    (hspinning : l.spinning → ∃ i, (phase (worker i)).resting = none) (hwork : l'.work) :
    Alerted worker l' (Function.update phase t p) := by
  have hworking : ∀ i, (phase (worker i)).resting = none → Alerted worker l' (Function.update phase t p) := by
    intro i hi
    apply Alerted.working i
    rcases update_cases phase t p (worker i) with ⟨ht, heq⟩ | ⟨_, heq⟩
    · rw [heq]
      rcases hshift.resting_or with hnone | hsame | hempty
      · exact hnone
      · rw [hsame, ← ht, hi]
      · exact absurd hwork hempty
    · rw [heq, hi]
  have hwoken : ∀ i old, (phase (worker i)).resting = some old → old < l'.wakes i →
      Alerted worker l' (Function.update phase t p) := by
    intro i old hi hlt
    rcases update_cases phase t p (worker i) with ⟨ht, heq⟩ | ⟨_, heq⟩
    · rcases hshift.resting_or with hnone | hsame | hempty
      · exact .working i (by rw [heq, hnone])
      · exact .woken i old (by rw [heq, hsame, ← ht, hi]) hlt
      · exact absurd hwork hempty
    · exact .woken i old (by rw [heq, hi]) hlt
  rcases (hshift.work_or hwork).symm with hobligated | hold
  · exact .obligated t ((Function.update_self ..).trans hobligated)
  cases h.alerted hold with
  | working i hi => exact hworking i hi
  | woken i old hi hlt => exact hwoken i old hi (Nat.lt_of_lt_of_le hlt (hshift.wakes_le i))
  | waking u v hu =>
    rcases update_cases phase t p u with ⟨rfl, heq⟩ | ⟨_, heq⟩
    · rcases hshift.waking_or hu with hwaking | hlt
      · exact .waking u v (heq.trans hwaking)
      · -- the worker that is woken now is at rest or not; at rest it has loaded its counter before
        cases hrest : (phase (worker v)).resting with
        | none => exact hworking v hrest
        | some old =>
          have hle := h.since_le v old (Phase.since_of_enrolled (Phase.enrolled_of_resting hrest))
          exact hwoken v old hrest (Nat.lt_of_le_of_lt hle hlt)
    · exact .waking u v (heq.trans hu)
  | obligated u hu =>
    rcases update_cases phase t p u with ⟨rfl, heq⟩ | ⟨_, heq⟩
    · rcases hshift.obligated_or hu with hstill | ⟨v, hwaking⟩ | hspin | hnone
      · exact .obligated u (heq.trans hstill)
      · exact .waking u v (heq.trans hwaking)
      · obtain ⟨i, hi⟩ := hspinning hspin
        exact hworking i hi
      · rcases h.alerted_of_no_waiter hnone with ⟨i, hi⟩ | ⟨w, v, hw⟩ | ⟨i, old, hi, hlt⟩
        · exact hworking i hi
        · have hne : w ≠ u := by
            rintro rfl
            rw [hu] at hw
            cases hw
          exact .waking w v ((Function.update_of_ne hne ..).trans hw)
        · exact hwoken i old hi (Nat.lt_of_lt_of_le hlt (hshift.wakes_le i))
    · exact .obligated u (heq.trans hu)

/-- Every shift of a thread keeps the invariant, if a worker that is announced to be looking for work is not at rest. -/
theorem Protocol.step [Nonempty ι] (h : Protocol worker l phase) (hself : ∀ i, worker i = t → self = some i)
    (hshift : Shift self l l' (phase t) p) (hspinning : l.spinning → ∃ i, (phase (worker i)).resting = none) :
    Protocol worker l' (Function.update phase t p) where
  since_le := h.since_le_step hself hshift
  enrolled := h.enrolled_step hself hshift
  alerted := h.alerted_step hshift hspinning

end Protocol

end CppConcur.Logic.Parking
