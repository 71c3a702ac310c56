import CppConcur.Sync.WaitGroup
import Mathlib.Data.List.Nodup
import Mathlib.Tactic.Common

/-!
# The rounds of a wait group

Between two rounds nobody is on the list. The invariant knows a round by the `Done` that has ended it: as
long as this call takes waiters off the list, all of them are due by it and the count stays zero. A group
of coroutines is kept in this state only as long as nobody calls `Add` while a `Done` has unlocked and not
yet taken the last waiter.
-/

namespace CppConcur.Sync.WaitGroup

open Logic Logic.Gate

variable {I : Type} {flavor : Flavor}

/-- The call is a `Done` that still takes waiters off the list. -/
def Pc.drains : Pc I → Bool
  | .drain | .more _ | .leave | .pop => true
  | .idle | .addEnter _ | .addHeld _ | .addReturn | .doneEnter | .doneHeld | .doneReturn | .last _ | .final _
  | .crashed | .returned | .waitEnter | .waitHeld | .passing | .schedule | .pushed | .suspended | .waited => false

section Invariant

variable [DecidableEq I] {s s' : State I} {i j d w : I} {x : Pc I} {l : Option I}

/-- The waiter was let go on. -/
def Freed (s : State I) (i : I) : Prop := (∃ d, status s.log i = .woken d) ∨ status s.log i = .passed

/-- The count is zero and all waiters are due by `d`. -/
structure Draining (s : State I) (d : I) : Prop where
  count : s.count = 0
  due : ∀ w ∈ s.waiters, status s.log w = .due d

/-- The call `d` has taken `w` from the list and will schedule it. -/
structure Taken (s : State I) (d w : I) : Prop where
  due : status s.log w = .due d
  not_mem : w ∉ s.waiters

/-- Nobody takes waiters off the list. -/
structure Resting (s : State I) : Prop where
  count : s.count = 0 → s.waiters = []
  waiting : ∀ w ∈ s.waiters, status s.log w = .waiting

def Pc.Ok (flavor : Flavor) (s : State I) (i : I) : Pc I → Prop
  | .idle | .addEnter _ | .doneEnter | .waitEnter | .schedule | .returned => status s.log i = .absent
  | .addHeld _ | .addReturn | .doneHeld | .doneReturn | .waitHeld | .passing =>
    s.lock = some i ∧ status s.log i = .absent
  | .drain => s.lock = some i ∧ status s.log i = .absent ∧ Draining s i ∧ (flavor = .coro → s.waiters ≠ [])
  | .more w => s.lock = some i ∧ status s.log i = .absent ∧ Draining s i ∧ s.waiters ≠ [] ∧ Taken s i w
  | .last w => s.lock = some i ∧ status s.log i = .absent ∧ flavor = .fiber ∧ s.waiters = [] ∧
      ∀ v ∈ w, Taken s i v
  | .leave => s.lock = some i ∧ status s.log i = .absent ∧ flavor = .coro ∧ Draining s i ∧ ∃ w, s.waiters = [w]
  | .pop => status s.log i = .absent ∧ flavor = .coro ∧ Draining s i ∧ ∃ w, s.waiters = [w]
  | .final w => status s.log i = .absent ∧ (w = none → flavor = .fiber) ∧ ∀ v ∈ w, Taken s i v
  | .crashed => False
  | .pushed => s.lock = some i
  | .suspended => True
  | .waited => Freed s i

structure Inv (flavor : Flavor) (s : State I) : Prop where
  legal : Legal s.log
  sum : s.count + s.done = s.added
  nodup : s.waiters.Nodup
  ok : ∀ i, (s.pc i).Ok flavor s i
  phase : (∃ d, (s.pc d).drains = true) ∨ Resting s
  queued : ∀ i ∈ s.queued, Freed s i

namespace Pc.Ok

theorem draining (h : x.Ok flavor s i) (hdrains : x.drains = true) : Draining s i := by
  cases x with
  | drain => exact h.2.2.1
  | more w => exact h.2.2.1
  | leave => exact h.2.2.2.1
  | pop => exact h.2.2.1
  | idle | addEnter | addHeld | addReturn | doneEnter | doneHeld | doneReturn | last | final | crashed | returned
  | waitEnter | waitHeld | passing | schedule | pushed | suspended | waited => cases hdrains

/-- A waiter that is due has nothing else to do. -/
theorem asleep (h : x.Ok flavor s i) (hdue : status s.log i = .waiting ∨ ∃ d, status s.log i = .due d) :
    x = .pushed ∨ x = .suspended := by
  have hnot : status s.log i ≠ .absent := by
    intro habsent
    rw [habsent] at hdue
    exact hdue.elim nofun nofun
  cases x with
  | idle | addEnter | doneEnter | waitEnter | schedule | returned => exact absurd h hnot
  | addHeld | addReturn | doneHeld | doneReturn | waitHeld | passing => exact absurd h.2 hnot
  | drain | more | last | leave => exact absurd h.2.1 hnot
  | pop | final => exact absurd h.1 hnot
  | crashed => exact h.elim
  | pushed => exact .inl rfl
  | suspended => exact .inr rfl
  | waited =>
    rcases h with ⟨d, hwoken⟩ | hpassed
    · rw [hwoken] at hdue
      exact hdue.elim nofun nofun
    · rw [hpassed] at hdue
      exact hdue.elim nofun nofun

/-- What a call asserts stays true when the others leave alone what it has. -/
theorem keep (h : x.Ok flavor s i) (hlock : s.lock = some i → s'.lock = some i)
    (hself : status s.log i = .absent → status s'.log i = .absent) (hfreed : Freed s i → Freed s' i)
    (hdue : ∀ w, status s.log w = .due i → status s'.log w = .due i)
    (hmem : ∀ w, status s.log w = .due i → w ∉ s.waiters → w ∉ s'.waiters)
    (hdrains : x.drains = true → s'.waiters = s.waiters ∧ s'.count = s.count)
    (hlast : flavor = .fiber → s.lock = some i → s.waiters = [] → s'.waiters = []) : x.Ok flavor s' i := by
  have htaken {w : I} (hw : Taken s i w) : Taken s' i w := ⟨hdue w hw.due, hmem w hw.due hw.not_mem⟩
  have hdraining (hx : x.drains = true) (hd : Draining s i) : Draining s' i := by
    obtain ⟨hwaiters, hcount⟩ := hdrains hx
    exact ⟨hcount.trans hd.count, fun w hw => hdue w (hd.due w (hwaiters ▸ hw))⟩
  cases x with
  | idle | addEnter | doneEnter | waitEnter | schedule | returned => exact hself h
  | addHeld | addReturn | doneHeld | doneReturn | waitHeld | passing => exact ⟨hlock h.1, hself h.2⟩
  | drain =>
    obtain ⟨hl, habsent, hd, hne⟩ := h
    exact ⟨hlock hl, hself habsent, hdraining rfl hd, (hdrains rfl).1 ▸ hne⟩
  | more w =>
    obtain ⟨hl, habsent, hd, hne, hw⟩ := h
    exact ⟨hlock hl, hself habsent, hdraining rfl hd, (hdrains rfl).1 ▸ hne, htaken hw⟩
  | last w =>
    obtain ⟨hl, habsent, hfiber, hnil, hw⟩ := h
    exact ⟨hlock hl, hself habsent, hfiber, hlast hfiber hl hnil, fun v hv => htaken (hw v hv)⟩
  | leave =>
    obtain ⟨hl, habsent, hcoro, hd, hone⟩ := h
    exact ⟨hlock hl, hself habsent, hcoro, hdraining rfl hd, (hdrains rfl).1 ▸ hone⟩
  | pop =>
    obtain ⟨habsent, hcoro, hd, hone⟩ := h
    exact ⟨hself habsent, hcoro, hdraining rfl hd, (hdrains rfl).1 ▸ hone⟩
  | final w =>
    obtain ⟨habsent, hnone, hw⟩ := h
    exact ⟨hself habsent, hnone, fun v hv => htaken (hw v hv)⟩
  | crashed => exact h
  | pushed => exact hlock h
  | suspended => trivial
  | waited => exact hfreed h

end Pc.Ok

-- the width of the word matters to no proof
attribute [local irreducible] word

namespace Inv

/-- The calls after a step of `i`. -/
theorem ok_update (hown : x.Ok flavor s' i) (hother : ∀ j, j ≠ i → (s.pc j).Ok flavor s' j) (j : I) :
    (Function.update s.pc i x j).Ok flavor s' j := by
  rcases eq_or_ne j i with rfl | hne
  · rw [Function.update_self]
    exact hown
  · rw [Function.update_of_ne hne]
    exact hother j hne

theorem drains_self (hx : x.drains = true) : ((s.goto i x).pc i).drains = true := by
  show (Function.update s.pc i x i).drains = true
  rw [Function.update_self]
  exact hx

/-- The phase after a step of `i`, when it is not `i` that takes the waiters off the list. -/
theorem phase_update (h : (∃ d, (s.pc d).drains = true) ∨ Resting s) (hi : (s.pc i).drains = false)
    (hrest : Resting s → Resting s') : (∃ d, (Function.update s.pc i x d).drains = true) ∨ Resting s' := by
  rcases h with ⟨d, hd⟩ | hr
  · refine .inl ⟨d, ?_⟩
    have hne : d ≠ i := by
      rintro rfl
      cases hd.symm.trans hi
    rw [Function.update_of_ne hne]
    exact hd
  · exact .inr (hrest hr)

theorem at_pc (h : Inv flavor s) (hpc : s.pc i = x) : x.Ok flavor s i := hpc ▸ h.ok i

/-- As long as there is something to count, nobody takes waiters off the list. -/
theorem resting (h : Inv flavor s) (hcount : s.count ≠ 0) : (∀ d, (s.pc d).drains = false) ∧ Resting s := by
  have hnot (d : I) : (s.pc d).drains ≠ true := fun hd => hcount ((h.ok d).draining hd).count
  refine ⟨fun d => Bool.eq_false_iff.mpr (hnot d), h.phase.resolve_left ?_⟩
  rintro ⟨d, hd⟩
  exact hnot d hd

/-- At most one call takes waiters off a list that is not empty. -/
theorem drains_unique (h : Inv flavor s) (hw : w ∈ s.waiters) (hi : Draining s i)
    (hj : (s.pc j).drains = true) : j = i := by
  have hdue := ((h.ok j).draining hj).due w hw
  rw [hi.due w hw] at hdue
  cases hdue
  rfl

/-- A call moves on and at most takes or gives back the lock. -/
theorem move (h : Inv flavor s) (hown : x.Ok flavor { s.goto i x with lock := l } i)
    (hlock : ∀ j, j ≠ i → s.lock = some j → l = some j)
    (hphase : (s.pc i).drains = true → x.drains = true ∨ Resting s) :
    Inv flavor { s.goto i x with lock := l } where
  legal := h.legal
  sum := h.sum
  nodup := h.nodup
  ok := by
    refine ok_update hown fun j hne => ?_
    exact (h.ok j).keep (hlock j hne) id id (fun _ => id) (fun _ _ => id) (fun _ => ⟨rfl, rfl⟩) fun _ _ => id
  phase := by
    cases hi : (s.pc i).drains with
    | false => exact phase_update h.phase hi fun hr => ⟨hr.count, hr.waiting⟩
    | true =>
      rcases hphase hi with hx | hr
      · exact .inl ⟨i, drains_self hx⟩
      · exact .inr ⟨hr.count, hr.waiting⟩
  queued := h.queued

/-- A call that does nothing to the waiters moves on. -/
theorem advance {y : Pc I} (h : Inv flavor s) (hpc : s.pc i = y) (hy : y.drains = false)
    (hown : x.Ok flavor { s.goto i x with lock := l } i) (hlock : ∀ j, j ≠ i → s.lock = some j → l = some j) :
    Inv flavor { s.goto i x with lock := l } := by
  refine h.move hown hlock fun htrue => ?_
  rw [hpc, hy] at htrue
  cases htrue

omit [DecidableEq I] in
/-- The one that has the lock gives it back. -/
theorem lock_other (hmine : s.lock = some i) (j : I) (hne : j ≠ i) (hj : s.lock = some j) : l = some j := by
  rw [hmine] at hj
  cases hj
  exact absurd rfl hne

omit [DecidableEq I] in
theorem lock_none (hnone : s.lock = none) (j : I) (_ : j ≠ i) (hj : s.lock = some j) : l = some j := by
  rw [hnone] at hj
  cases hj

/-- `Add`. The count does not overflow, and it stays zero as long as a call takes waiters off the list. -/
theorem add {n : Nat} (h : Inv flavor s) (hpc : s.pc i = .addHeld n) (hbound : s.added + n < s.done + word)
    (hdrains : n ≠ 0 → ∀ d, s.pc d ≠ .pop) : Inv flavor ((s.add n).goto i .addReturn) := by
  have hi := h.at_pc hpc
  have hcount : (s.count + n) % word = s.count + n := by
    apply Nat.mod_eq_of_lt
    have hsum := h.sum
    omega
  have hlocked (j : I) (hne : j ≠ i) (hj : s.lock = some j) : False := by
    rw [hi.1] at hj
    cases hj
    exact hne rfl
  have hkeep (j : I) (hne : j ≠ i) (hd : (s.pc j).drains = true) : n = 0 := by
    by_contra hn
    have hj := h.ok j
    cases hx : s.pc j with
    | drain | more | leave =>
      rw [hx] at hj
      exact hlocked j hne hj.1
    | pop => exact hdrains hn j hx
    | idle | addEnter | addHeld | addReturn | doneEnter | doneHeld | doneReturn | last | final | crashed
    | returned | waitEnter | waitHeld | passing | schedule | pushed | suspended | waited =>
      rw [hx] at hd
      cases hd
  refine ⟨h.legal, ?_, h.nodup, ?_, ?_, h.queued⟩
  · show (s.count + n) % word + s.done = s.added + n
    rw [hcount, ← h.sum]
    omega
  · refine ok_update ⟨hi.1, hi.2⟩ fun j hne => ?_
    refine (h.ok j).keep (fun hj => (hlocked j hne hj).elim) id id (fun _ => id) (fun _ _ => id) (fun hd => ?_)
      fun _ _ => id
    refine ⟨rfl, ?_⟩
    show (s.count + n) % word = s.count
    rw [hcount, hkeep j hne hd, Nat.add_zero]
  · refine phase_update (s := s) h.phase (by rw [hpc]; rfl) fun hr => ⟨fun hzero => ?_, hr.waiting⟩
    apply hr.count
    have hsum : (s.count + n) % word = 0 := hzero
    rw [hcount] at hsum
    exact Nat.eq_zero_of_add_eq_zero_right hsum

/-- The count after `Done`. -/
theorem decrement_count (h : Inv flavor s) (hdone : s.done < s.added) (hbound : s.added < s.done + word) :
    s.decrement.count + 1 = s.count := by
  have hsum := h.sum
  show (s.count + (word - 1)) % word + 1 = s.count
  have hshift : s.count + (word - 1) = s.count - 1 + word := by omega
  rw [hshift, Nat.add_mod_right, Nat.mod_eq_of_lt (by omega)]
  omega

/-- What was not waiting is not concerned when the count becomes zero. -/
theorem freed_opened (hj : Freed s j) : Freed (s.decrement.reachZero i) j := by
  rcases hj with ⟨d, hd⟩ | hpassed
  · exact .inl ⟨d, status_opened_of_ne hd nofun⟩
  · exact .inr (status_opened_of_ne hpassed nofun)

/-- `Done`, when it brings the count to zero. -/
theorem reachZero (h : Inv flavor s) (hlock : s.lock = some i) (hrest : ∀ d, (s.pc d).drains = false)
    (hsum : s.decrement.count + (s.done + 1) = s.added)
    (hown : x.Ok flavor ((s.decrement.reachZero i).goto i x) i) (hphase : x.drains = true ∨ s.waiters = []) :
    Inv flavor ((s.decrement.reachZero i).goto i x) := by
  refine ⟨h.legal.snoc (.opened i), hsum, h.nodup, ?_, ?_, fun w hw => freed_opened (h.queued w hw)⟩
  · refine ok_update hown fun j hne => ?_
    refine (h.ok j).keep (lock_other hlock j hne) (fun habsent => ?_) freed_opened (fun w hw => ?_) (fun _ _ => id)
      (fun hd => ?_) fun _ _ => id
    · exact status_opened_of_ne habsent nofun
    · exact status_opened_of_ne hw nofun
    · rw [hrest j] at hd
      cases hd
  · rcases hphase with hx | hnil
    · exact .inl ⟨i, drains_self hx⟩
    · refine .inr ⟨fun _ => hnil, fun w hw => ?_⟩
      have hmem : w ∈ s.waiters := hw
      rw [hnil] at hmem
      cases hmem

/-- `Done`, up to the first `PopFront`. -/
theorem doneSection (h : Inv flavor s) (hpc : s.pc i = .doneHeld) (hdone : s.done < s.added)
    (hbound : s.added < s.done + word) : Inv flavor (s.doneSection flavor i) := by
  have hi := h.at_pc hpc
  have hcount := h.decrement_count hdone hbound
  have hsum : s.decrement.count + (s.done + 1) = s.added := by
    rw [← h.sum, ← hcount]
    omega
  obtain ⟨hnone, hrest⟩ := h.resting (by rw [← hcount]; exact Nat.succ_ne_zero _)
  have habsent : status (s.log ++ [.opened i]) i = .absent := status_opened_of_ne hi.2 nofun
  unfold State.doneSection
  split
  case isTrue hne =>
    refine ⟨h.legal, hsum, h.nodup, ?_, .inr ⟨fun hzero => absurd hzero hne, hrest.waiting⟩, h.queued⟩
    refine ok_update hi fun j hne => ?_
    refine (h.ok j).keep (lock_other hi.1 j hne) id id (fun _ => id) (fun _ _ => id) (fun hd => ?_) fun _ _ => id
    rw [hnone j] at hd
    cases hd
  case isFalse hzero =>
    split
    case isTrue hnil => exact h.reachZero hi.1 hnone hsum ⟨hi.1, habsent⟩ (.inr hnil.2)
    case isFalse hne =>
      refine h.reachZero hi.1 hnone hsum ⟨hi.1, habsent, ⟨not_not.mp hzero, ?_⟩, ?_⟩ (.inl rfl)
      · intro w hw
        exact status_opened_of_waiting (hrest.waiting w hw)
      · intro hcoro hnil
        exact hne ⟨hcoro, hnil⟩

/-- A call takes the first waiter off the list. -/
theorem take {ws : List I} (h : Inv flavor s) (hd : Draining s i) (hcons : s.waiters = w :: ws)
    (hlast : flavor = .fiber → s.lock = some i)
    (hown : Taken { s with waiters := ws } i w → x.Ok flavor { s.goto i x with waiters := ws } i)
    (hphase : x.drains = true ∨ ws = []) : Inv flavor { s.goto i x with waiters := ws } := by
  have hnodup := h.nodup
  rw [hcons] at hnodup
  obtain ⟨hnot, hws⟩ := List.nodup_cons.mp hnodup
  have hmem : w ∈ s.waiters := by
    rw [hcons]
    exact List.mem_cons_self
  refine ⟨h.legal, h.sum, hws, ?_, ?_, h.queued⟩
  · refine ok_update (hown ⟨hd.due w hmem, hnot⟩) fun j hne => ?_
    refine (h.ok j).keep id id id (fun _ => id) (fun v _ hv hin => ?_) (fun hdrains => ?_) fun hfiber hj => ?_
    · apply hv
      rw [hcons]
      exact List.mem_cons_of_mem w hin
    · exact absurd (h.drains_unique hmem hd hdrains) hne
    · rw [hlast hfiber] at hj
      cases hj
      exact absurd rfl hne
  · rcases hphase with hx | hnil
    · exact .inl ⟨i, drains_self hx⟩
    · refine .inr ⟨fun _ => hnil, fun v hv => ?_⟩
      have hin : v ∈ ws := hv
      rw [hnil] at hin
      cases hin

theorem turn (h : Inv flavor s) (hpc : s.pc i = .drain) : Inv flavor (s.turn flavor i) := by
  obtain ⟨hlock, habsent, hd, hne⟩ := h.at_pc hpc
  unfold State.turn
  split
  case h_1 hnil =>
    cases flavor with
    | fiber =>
      refine h.move (l := s.lock) ⟨hlock, habsent, rfl, hnil, nofun⟩ (fun _ _ => id) fun _ => .inr ⟨fun _ => hnil, ?_⟩
      rw [hnil]
      nofun
    | coro => exact absurd hnil (hne rfl)
  case h_2 w hone =>
    cases flavor with
    | fiber =>
      refine h.take hd hone (fun _ => hlock) (fun htaken => ⟨hlock, habsent, rfl, rfl, ?_⟩) (.inr rfl)
      rintro v ⟨⟩
      exact ⟨htaken.due, htaken.not_mem⟩
    | coro =>
      exact h.move (l := s.lock) ⟨hlock, habsent, rfl, ⟨hd.count, hd.due⟩, w, hone⟩ (fun _ _ => id) fun _ => .inl rfl
  case h_3 w ws hws hcons =>
    have hsub (v : I) (hv : v ∈ ws) : status s.log v = .due i := by
      apply hd.due v
      rw [hcons]
      exact List.mem_cons_of_mem w hv
    refine h.take hd hcons (fun _ => hlock) (fun htaken => ?_) (.inl rfl)
    exact ⟨hlock, habsent, ⟨hd.count, hsub⟩, hws, htaken.due, htaken.not_mem⟩

theorem pop (h : Inv flavor s) (hpc : s.pc i = .pop) : Inv flavor (s.popLast i) := by
  obtain ⟨habsent, hcoro, hd, w, hone⟩ := h.at_pc hpc
  unfold State.popLast
  rw [hone]
  refine h.take hd hone (fun hfiber => by cases hcoro.symm.trans hfiber) (fun htaken => ?_) (.inr rfl)
  refine ⟨habsent, nofun, ?_⟩
  rintro v ⟨⟩
  exact ⟨htaken.due, htaken.not_mem⟩

/-- A call schedules the waiter that it has taken from the list. -/
theorem wake (h : Inv flavor s) (hw : Taken s i w) (hwi : w ≠ i)
    (hown : (∀ v ∈ s.waiters, status (s.wake i w).log v = status s.log v) →
      status (s.wake i w).log i = status s.log i → x.Ok flavor ((s.wake i w).goto i x) i)
    (hphase : (s.pc i).drains = true → x.drains = true) : Inv flavor ((s.wake i w).goto i x) := by
  have hother (v : I) (hv : v ≠ w) : status (s.wake i w).log v = status s.log v := status_wake_of_ne hv
  have hlisted (v : I) (hv : v ∈ s.waiters) : v ≠ w := by
    rintro rfl
    exact hw.not_mem hv
  have hfreed (v : I) (hv : Freed s v) : Freed (s.wake i w) v := by
    have hne : v ≠ w := by
      rintro rfl
      rcases hv with ⟨d, hwoken⟩ | hpassed
      · cases hwoken.symm.trans hw.due
      · cases hpassed.symm.trans hw.due
    rw [Freed, hother v hne]
    exact hv
  refine ⟨h.legal.snoc (.wake hw.due), h.sum, h.nodup, ?_, ?_, fun v hv => ?_⟩
  · refine ok_update (hown (fun v hv => hother v (hlisted v hv)) (hother i hwi.symm)) fun j hne => ?_
    refine (h.ok j).keep id (fun habsent => ?_) (hfreed j) (fun v hv => ?_) (fun _ _ => id) (fun _ => ⟨rfl, rfl⟩)
      fun _ _ => id
    · refine (hother j ?_).trans habsent
      rintro rfl
      cases habsent.symm.trans hw.due
    · refine (hother v ?_).trans hv
      rintro rfl
      cases hv.symm.trans hw.due
      exact hne rfl
  · cases hi : (s.pc i).drains with
    | false =>
      refine phase_update (s := s) h.phase hi fun hr => ⟨hr.count, fun v hv => ?_⟩
      exact (hother v (hlisted v hv)).trans (hr.waiting v hv)
    | true => exact .inl ⟨i, drains_self (hphase hi)⟩
  · rcases List.mem_append.mp hv with hold | hnew
    · exact hfreed v (h.queued v hold)
    · obtain rfl := List.mem_singleton.mp hnew
      exact .inl ⟨i, status_wake_self⟩

theorem waitPush (h : Inv flavor s) (hpc : s.pc i = .waitHeld) (hcount : s.count ≠ 0) :
    Inv flavor ((s.push i).goto i .pushed) := by
  have hi := h.at_pc hpc
  obtain ⟨hnone, hrest⟩ := h.resting hcount
  have hother (v : I) (hv : v ≠ i) : status (s.push i).log v = status s.log v := status_register_of_ne hv
  have hnot : i ∉ s.waiters := fun hmem => by cases hi.2.symm.trans (hrest.waiting i hmem)
  have hne (v : I) (st : Status I) (hv : status s.log v = st) (hst : st ≠ .absent) : v ≠ i := by
    rintro rfl
    exact hst (hv.symm.trans hi.2)
  have hfreed (v : I) (hv : Freed s v) : Freed (s.push i) v := by
    rcases hv with ⟨d, hd⟩ | hpassed
    · exact .inl ⟨d, (hother v (hne v _ hd nofun)).trans hd⟩
    · exact .inr ((hother v (hne v _ hpassed nofun)).trans hpassed)
  refine ⟨h.legal.snoc (.register hi.2), h.sum, ?_, ?_, ?_, fun v hv => hfreed v (h.queued v hv)⟩
  · show (s.waiters ++ [i]).Nodup
    rw [List.nodup_append_comm]
    exact List.nodup_cons.mpr ⟨hnot, h.nodup⟩
  · refine ok_update hi.1 fun j hj => ?_
    refine (h.ok j).keep (lock_other hi.1 j hj) (fun habsent => (hother j hj).trans habsent) (hfreed j)
      (fun v hv => (hother v (hne v _ hv nofun)).trans hv) (fun v hv hmem hin => ?_) (fun hd => ?_) fun _ hlock => ?_
    · rcases List.mem_append.mp hin with hold | hnew
      · exact hmem hold
      · exact hne v _ hv nofun (List.mem_singleton.mp hnew)
    · rw [hnone j] at hd
      cases hd
    · exact absurd (Option.some.inj (hi.1.symm.trans hlock)).symm hj
  · refine .inr ⟨fun hzero => absurd hzero hcount, fun v hv => ?_⟩
    rcases List.mem_append.mp hv with hold | hnew
    · exact (hother v (hne v _ (hrest.waiting v hold) nofun)).trans (hrest.waiting v hold)
    · obtain rfl := List.mem_singleton.mp hnew
      exact status_register_self

/-- A call of `Wait` that has found the count zero goes on, or is scheduled. -/
theorem pass {queued : List I} (h : Inv flavor s) (habsent : status s.log i = .absent)
    (hi : (s.pc i).drains = false) (hlock : ∀ j, j ≠ i → s.lock = some j → l = some j)
    (hx : x = .suspended ∨ x = .waited) (hqueued : ∀ j ∈ queued, j = i ∨ j ∈ s.queued) :
    Inv flavor { s.goto i x with lock := l, queued := queued, log := s.log ++ [.pass i] } := by
  have hother (v : I) (hv : v ≠ i) : status (s.log ++ [.pass i]) v = status s.log v := status_pass_of_ne hv
  have hne (v : I) (st : Status I) (hv : status s.log v = st) (hst : st ≠ .absent) : v ≠ i := by
    rintro rfl
    exact hst (hv.symm.trans habsent)
  have hfreed (v : I) (hv : Freed s v) :
      Freed { s.goto i x with lock := l, queued := queued, log := s.log ++ [.pass i] } v := by
    rcases hv with ⟨d, hd⟩ | hpassed
    · exact .inl ⟨d, (hother v (hne v _ hd nofun)).trans hd⟩
    · exact .inr ((hother v (hne v _ hpassed nofun)).trans hpassed)
  refine ⟨h.legal.snoc (.pass habsent), h.sum, h.nodup, ?_, ?_, fun v hv => ?_⟩
  · refine ok_update ?_ fun j hj => ?_
    · rcases hx with rfl | rfl
      · trivial
      · exact .inr status_pass_self
    · exact (h.ok j).keep (hlock j hj) (fun hold => (hother j hj).trans hold) (hfreed j)
        (fun v hv => (hother v (hne v _ hv nofun)).trans hv) (fun _ _ => id) (fun _ => ⟨rfl, rfl⟩) fun _ _ => id
  · refine phase_update h.phase hi fun hr => ⟨hr.count, fun v hv => ?_⟩
    exact (hother v (hne v _ (hr.waiting v hv) nofun)).trans (hr.waiting v hv)
  · rcases hqueued v hv with rfl | hold
    · exact .inr status_pass_self
    · exact hfreed v (h.queued v hold)

theorem resume (h : Inv flavor s) (hpc : s.pc i = .suspended) (hmem : i ∈ s.queued) :
    Inv flavor { s.goto i .waited with queued := s.queued.erase i } := by
  have hmove : Inv flavor { s.goto i .waited with lock := s.lock } :=
    h.advance hpc rfl (h.queued i hmem) fun _ _ => id
  exact ⟨hmove.legal, hmove.sum, hmove.nodup, fun j => (hmove.ok j).keep id id id (fun _ => id) (fun _ _ => id)
    (fun _ => ⟨rfl, rfl⟩) fun _ _ => id, hmove.phase.imp_right fun hr => ⟨hr.count, hr.waiting⟩,
    fun j hj => hmove.queued j (List.mem_of_mem_erase hj)⟩

end Inv

/-! ### Runs -/

omit [DecidableEq I] in
/-- What `Add` has counted and `Done` has not fits the word. -/
def Fits (_ s' : State I) : Prop := s'.added < s'.done + word

omit [DecidableEq I] in
instance (s s' : State I) : Decidable (Fits s s') := inferInstanceAs (Decidable (s'.added < s'.done + word))

omit [DecidableEq I] in
/-- `Add` does not count while a `Done` has unlocked and not yet taken the last waiter. -/
def Apart (s s' : State I) : Prop := s'.added ≠ s.added → ∀ d, s.pc d ≠ .pop

theorem Step.inv (hstep : Step flavor s s') (h : Inv flavor s) (hbound : s.added < s.done + word)
    (hfits : Fits s s') (hapart : flavor = .coro → Apart s s') : Inv flavor s' := by
  cases hstep with
  | callAdd hn hpc => exact h.advance (l := s.lock) hpc rfl (h.at_pc hpc) fun _ _ => id
  | addLock hpc hlock => exact h.advance hpc rfl ⟨rfl, h.at_pc hpc⟩ (Inv.lock_none hlock)
  | @add i n hpc =>
    refine h.add hpc hfits fun hn d hd => ?_
    refine hapart (h.at_pc hd).2.1 ?_ d hd
    show s.added + n ≠ s.added
    omega
  | addUnlock hpc => exact h.advance hpc rfl (h.at_pc hpc).2 (Inv.lock_other (h.at_pc hpc).1)
  | callDone hpc => exact h.advance (l := s.lock) hpc rfl (h.at_pc hpc) fun _ _ => id
  | doneLock hpc hlock => exact h.advance hpc rfl ⟨rfl, h.at_pc hpc⟩ (Inv.lock_none hlock)
  | done hpc hdone => exact h.doneSection hpc hdone hbound
  | doneUnlock hpc => exact h.advance hpc rfl (h.at_pc hpc).2 (Inv.lock_other (h.at_pc hpc).1)
  | turn hpc => exact h.turn hpc
  | @more i w hpc =>
    obtain ⟨hlock, habsent, hd, hne, hw⟩ := h.at_pc hpc
    refine h.wake hw ?_ (fun hlisted hself => ?_) fun _ => rfl
    · rintro rfl
      cases habsent.symm.trans hw.due
    · exact ⟨hlock, hself.trans habsent, ⟨hd.count, fun v hv => (hlisted v hv).trans (hd.due v hv)⟩, fun _ => hne⟩
  | @lastUnlock i w hpc =>
    obtain ⟨hlock, habsent, hfiber, hnil, hw⟩ := h.at_pc hpc
    refine h.advance hpc rfl ⟨habsent, fun _ => hfiber, fun v hv => ?_⟩ (Inv.lock_other hlock)
    exact ⟨(hw v hv).due, (hw v hv).not_mem⟩
  | @leave i hpc =>
    obtain ⟨hlock, habsent, hcoro, hd, hone⟩ := h.at_pc hpc
    exact h.move ⟨habsent, hcoro, ⟨hd.count, hd.due⟩, hone⟩ (Inv.lock_other hlock) fun _ => .inl rfl
  | pop hpc => exact h.pop hpc
  | @final i w hpc =>
    obtain ⟨habsent, _, hw⟩ := h.at_pc hpc
    have htaken := hw w rfl
    refine h.wake htaken ?_ (fun _ hself => hself.trans habsent) fun hd => ?_
    · rintro rfl
      cases habsent.symm.trans htaken.due
    · rw [hpc] at hd
      cases hd
  | finalFiber hflavor hpc => exact h.advance (l := s.lock) hpc rfl (h.at_pc hpc).1 fun _ _ => id
  | finalCoro hflavor hpc => cases hflavor.symm.trans ((h.at_pc hpc).2.1 rfl)
  | callWait hpc => exact h.advance (l := s.lock) hpc rfl (h.at_pc hpc) fun _ _ => id
  | waitLock hpc hlock => exact h.advance hpc rfl ⟨rfl, h.at_pc hpc⟩ (Inv.lock_none hlock)
  | waitZero hpc hzero => exact h.advance (l := s.lock) hpc rfl (h.at_pc hpc) fun _ _ => id
  | waitPush hpc hzero => exact h.waitPush hpc hzero
  | passUnlock hflavor hpc => exact h.advance hpc rfl (h.at_pc hpc).2 (Inv.lock_other (h.at_pc hpc).1)
  | @passSchedule i hpc =>
    have hi := h.at_pc hpc
    refine h.pass (l := s.lock) hi (by rw [hpc]; rfl) (fun _ _ => id) (.inl rfl) fun j hj => ?_
    exact (List.mem_append.mp hj).symm.imp_left List.mem_singleton.mp
  | @passReturn i hflavor hpc =>
    have hi := h.at_pc hpc
    exact h.pass hi.2 (by rw [hpc]; rfl) (Inv.lock_other hi.1) (.inr rfl) fun j hj => .inr hj
  | pushUnlock hpc => exact h.advance hpc rfl trivial (Inv.lock_other (h.at_pc hpc))
  | resume hpc hmem => exact h.resume hpc hmem

/-! ### Looking back -/

omit [DecidableEq I] in
/-- A call of `Wait` that has found the count zero. -/
def Pc.passes : Pc I → Bool
  | .passing | .schedule => true
  | .idle | .addEnter _ | .addHeld _ | .addReturn | .doneEnter | .doneHeld | .doneReturn | .drain | .more _ | .last _
  | .leave | .pop | .final _ | .crashed | .returned | .waitEnter | .waitHeld | .pushed | .suspended | .waited => false

omit [DecidableEq I] in
/-- A call that has nothing left to do but to schedule one waiter. -/
def Pc.finished : Pc I → Bool
  | .final _ | .crashed | .returned => true
  | .idle | .addEnter _ | .addHeld _ | .addReturn | .doneEnter | .doneHeld | .doneReturn | .drain | .more _ | .last _
  | .leave | .pop | .waitEnter | .waitHeld | .passing | .schedule | .pushed | .suspended | .waited => false

/-- What a step of `i` adds to the history. -/
inductive Recorded (s : State I) (i : I) (s' : State I) : Prop
  | nothing (hlog : s'.log = s.log)
  | register (hlog : s'.log = s.log ++ [.register i])
  | opened (hlog : s'.log = s.log ++ [.opened i]) (habsent : status s.log i = .absent) (hcount : s'.count = 0)
  | wake {w : I} (hlog : s'.log = s.log ++ [.wake i w]) (hdue : status s.log w = .due i)
  | pass (hlog : s'.log = s.log ++ [.pass i]) (hpasses : (s.pc i).passes = true)

/-- A step of `i` to `x`, as the history and the other calls see it. -/
structure Moved (s : State I) (i : I) (x : Pc I) (s' : State I) : Prop where
  pc : s'.pc = Function.update s.pc i x
  recorded : Recorded s i s'
  passes : x.passes = true → (s.pc i).passes = true ∨ (s.pc i).InWait ∧ s.count = 0
  finished : (s.pc i).finished = true → x.finished = true

/-- A step that the history does not record and in which nobody finds the count zero. -/
theorem Moved.silent (hpc : s'.pc = Function.update s.pc i x) (hlog : s'.log = s.log) (hpasses : x.passes = false)
    (hfinished : (s.pc i).finished = false ∨ x.finished = true) : Moved s i x s' where
  pc := hpc
  recorded := .nothing hlog
  passes htrue := by cases htrue.symm.trans hpasses
  finished htrue := hfinished.elim (fun hfalse => by cases htrue.symm.trans hfalse) id

theorem Step.moved (hstep : Step flavor s s') (h : Inv flavor s) : ∃ i x, Moved s i x s' := by
  cases hstep with
  | @callAdd i n hn hpc => exact ⟨i, .addEnter n, .silent rfl rfl rfl (.inl (by rw [hpc]; rfl))⟩
  | @addLock i n hpc hlock => exact ⟨i, .addHeld n, .silent rfl rfl rfl (.inl (by rw [hpc]; rfl))⟩
  | @add i n hpc => exact ⟨i, .addReturn, .silent rfl rfl rfl (.inl (by rw [hpc]; rfl))⟩
  | @addUnlock i hpc => exact ⟨i, .returned, .silent rfl rfl rfl (.inr rfl)⟩
  | @callDone i hpc => exact ⟨i, .doneEnter, .silent rfl rfl rfl (.inl (by rw [hpc]; rfl))⟩
  | @doneLock i hpc hlock => exact ⟨i, .doneHeld, .silent rfl rfl rfl (.inl (by rw [hpc]; rfl))⟩
  | @done i hpc hdone =>
    unfold State.doneSection
    split
    case isTrue hne => exact ⟨i, .doneReturn, .silent rfl rfl rfl (.inl (by rw [hpc]; rfl))⟩
    case isFalse hzero =>
      have hcount : s.decrement.count = 0 := not_not.mp hzero
      split
      · exact ⟨i, .doneReturn, rfl, .opened rfl (h.at_pc hpc).2 hcount, nofun, by rw [hpc]; nofun⟩
      · exact ⟨i, .drain, rfl, .opened rfl (h.at_pc hpc).2 hcount, nofun, by rw [hpc]; nofun⟩
  | @doneUnlock i hpc => exact ⟨i, .returned, .silent rfl rfl rfl (.inr rfl)⟩
  | @turn i hpc =>
    unfold State.turn
    split
    · cases flavor with
      | fiber => exact ⟨i, .last none, .silent rfl rfl rfl (.inl (by rw [hpc]; rfl))⟩
      | coro => exact ⟨i, .leave, .silent rfl rfl rfl (.inl (by rw [hpc]; rfl))⟩
    · rename_i w hone
      cases flavor with
      | fiber => exact ⟨i, .last (some w), .silent rfl rfl rfl (.inl (by rw [hpc]; rfl))⟩
      | coro => exact ⟨i, .leave, .silent rfl rfl rfl (.inl (by rw [hpc]; rfl))⟩
    · rename_i w ws hws hcons
      exact ⟨i, .more w, .silent rfl rfl rfl (.inl (by rw [hpc]; rfl))⟩
  | @more i w hpc =>
    obtain ⟨_, _, _, _, hw⟩ := h.at_pc hpc
    exact ⟨i, .drain, rfl, .wake rfl hw.due, nofun, by rw [hpc]; nofun⟩
  | @lastUnlock i w hpc => exact ⟨i, .final w, .silent rfl rfl rfl (.inr rfl)⟩
  | @leave i hpc => exact ⟨i, .pop, .silent rfl rfl rfl (.inl (by rw [hpc]; rfl))⟩
  | @pop i hpc => exact ⟨i, .final s.waiters.head?, .silent rfl rfl rfl (.inr rfl)⟩
  | @final i w hpc =>
    have hw := (h.at_pc hpc).2.2 w rfl
    exact ⟨i, .returned, rfl, .wake rfl hw.due, nofun, fun _ => rfl⟩
  | @finalFiber i hflavor hpc => exact ⟨i, .returned, .silent rfl rfl rfl (.inr rfl)⟩
  | @finalCoro i hflavor hpc => exact ⟨i, .crashed, .silent rfl rfl rfl (.inr rfl)⟩
  | @callWait i hpc => exact ⟨i, .waitEnter, .silent rfl rfl rfl (.inl (by rw [hpc]; rfl))⟩
  | @waitLock i hpc hlock => exact ⟨i, .waitHeld, .silent rfl rfl rfl (.inl (by rw [hpc]; rfl))⟩
  | @waitZero i hpc hzero =>
    exact ⟨i, .passing, rfl, .nothing rfl, fun _ => .inr ⟨by rw [hpc]; trivial, hzero⟩, by rw [hpc]; nofun⟩
  | @waitPush i hpc hzero => exact ⟨i, .pushed, rfl, .register rfl, nofun, by rw [hpc]; nofun⟩
  | @passUnlock i hflavor hpc =>
    exact ⟨i, .schedule, rfl, .nothing rfl, fun _ => .inl (by rw [hpc]; rfl), by rw [hpc]; nofun⟩
  | @passSchedule i hpc => exact ⟨i, .suspended, rfl, .pass rfl (by rw [hpc]; rfl), nofun, by rw [hpc]; nofun⟩
  | @passReturn i hflavor hpc => exact ⟨i, .waited, rfl, .pass rfl (by rw [hpc]; rfl), nofun, by rw [hpc]; nofun⟩
  | @pushUnlock i hpc => exact ⟨i, .suspended, .silent rfl rfl rfl (.inl (by rw [hpc]; rfl))⟩
  | @resume i hpc hmem => exact ⟨i, .waited, .silent rfl rfl rfl (.inl (by rw [hpc]; rfl))⟩

/-- The call has found the count zero, or it has registered and a `Done` has brought the count to zero. -/
def Past (s : State I) (i : I) : Prop :=
  status s.log i ≠ .absent ∧ status s.log i ≠ .waiting ∨ (s.pc i).passes = true

/-- When a call gets past the zero of the count, the count is zero before or after the step. -/
theorem Moved.past (hmoved : Moved s j x s') (h : Inv flavor s) (hpast : Past s' i) :
    Past s i ∨ (s.pc i).InWait ∧ s.count = 0 ∨ (s'.pc i).InWait ∧ s'.count = 0 := by
  rcases hpast with ⟨habsent, hwaiting⟩ | hpasses
  · have hsame (heq : status s'.log i = status s.log i) : Past s i := by
      rw [heq] at habsent hwaiting
      exact .inl ⟨habsent, hwaiting⟩
    cases hmoved.recorded with
    | nothing hlog => exact .inl (hsame (by rw [hlog]))
    | register hlog =>
      rcases eq_or_ne i j with rfl | hne
      · rw [hlog] at hwaiting
        exact absurd status_register_self hwaiting
      · exact .inl (hsame (by rw [hlog, status_register_of_ne hne]))
    | opened hlog hself hcount =>
      by_cases hold : status s.log i = .waiting
      · -- the call is on the list, and the step is one of `Done`
        have hne : i ≠ j := by
          rintro rfl
          cases hold.symm.trans hself
        refine .inr (.inr ⟨?_, hcount⟩)
        rw [hmoved.pc, Function.update_of_ne hne]
        rcases (h.ok i).asleep (.inl hold) with hpc | hpc
        · rw [hpc]
          trivial
        · rw [hpc]
          trivial
      · exact .inl (hsame (by rw [hlog, status_opened_of_ne rfl hold]))
    | @wake w hlog hdue =>
      rcases eq_or_ne i w with rfl | hne
      · exact .inl (.inl (by rw [hdue]; exact ⟨nofun, nofun⟩))
      · exact .inl (hsame (by rw [hlog, status_wake_of_ne hne]))
    | pass hlog hpasses =>
      rcases eq_or_ne i j with rfl | hne
      · exact .inl (.inr hpasses)
      · exact .inl (hsame (by rw [hlog, status_pass_of_ne hne]))
  · rw [hmoved.pc] at hpasses
    rcases eq_or_ne i j with rfl | hne
    · rw [Function.update_self] at hpasses
      exact (hmoved.passes hpasses).imp .inr .inl
    · rw [Function.update_of_ne hne] at hpasses
      exact .inl (.inr hpasses)

theorem Moved.finished_of (hmoved : Moved s j x s') (h : (s.pc i).finished = true) : (s'.pc i).finished = true := by
  rw [hmoved.pc]
  rcases eq_or_ne i j with rfl | hne
  · rw [Function.update_self]
    exact hmoved.finished h
  · rw [Function.update_of_ne hne]
    exact h

omit [DecidableEq I] in
theorem Pc.touches_of_finished (h : x.finished = true) : x.touches = false := by
  cases x with
  | final | crashed | returned => rfl
  | idle | addEnter | addHeld | addReturn | doneEnter | doneHeld | doneReturn | drain | more | last | leave | pop
  | waitEnter | waitHeld | passing | schedule | pushed | suspended | waited => cases h

/-- The count was zero at some time of the call of `Wait`. -/
def ZeroDuring (S : System (State I)) (s : State I) (i : I) : Prop :=
  ∃ s₁, S.Reachable s₁ ∧ (s₁.pc i).InWait ∧ s₁.count = 0 ∧ S.Steps s₁ s

section Runs

variable {allowed : State I → State I → Prop}

theorem inv_of_reachable (hallowed : ∀ s s', allowed s s' → Fits s s' ∧ (flavor = .coro → Apart s s'))
    (h : ((system I flavor).restrict allowed).Reachable s) : Inv flavor s ∧ s.added < s.done + word := by
  apply h.invariant
  · intro s hinit
    obtain rfl : s = initial := hinit
    have hpos : 0 < 0 + word := by
      unfold word
      decide
    exact ⟨⟨.nil, rfl, List.nodup_nil, fun _ => rfl, .inr ⟨fun _ => rfl, nofun⟩, nofun⟩, hpos⟩
  · intro s s' _ hinv hstep
    obtain ⟨hfits, hapart⟩ := hallowed s s' hstep.2
    exact ⟨hstep.1.inv hinv.1 hinv.2 hfits hapart, hfits⟩

/-- The call of a waiter that is past the zero of the count has seen it. -/
theorem zeroDuring_of_past (hallowed : ∀ s s', allowed s s' → Fits s s' ∧ (flavor = .coro → Apart s s'))
    (h : ((system I flavor).restrict allowed).Reachable s) (hpast : Past s i) :
    ZeroDuring ((system I flavor).restrict allowed) s i := by
  induction h generalizing i with
  | init hinit =>
    obtain rfl := hinit
    rcases hpast with ⟨habsent, _⟩ | hpasses
    · exact absurd rfl habsent
    · cases hpasses
  | @step s s' hreach hstep ih =>
    obtain ⟨hinv, _⟩ := inv_of_reachable hallowed hreach
    obtain ⟨j, x, hmoved⟩ := hstep.1.moved hinv
    rcases hmoved.past hinv hpast with hold | ⟨hpc, hcount⟩ | ⟨hpc, hcount⟩
    · obtain ⟨s₁, hreach₁, hpc, hcount, hsteps⟩ := ih hold
      exact ⟨s₁, hreach₁, hpc, hcount, hsteps.tail hstep⟩
    · exact ⟨s, hreach, hpc, hcount, .tail .refl hstep⟩
    · exact ⟨s', hreach.step hstep, hpc, hcount, .refl⟩

theorem finished_of_steps (hallowed : ∀ s s', allowed s s' → Fits s s' ∧ (flavor = .coro → Apart s s'))
    (h : ((system I flavor).restrict allowed).Reachable s) (hfinished : (s.pc i).finished = true)
    (hsteps : ((system I flavor).restrict allowed).Steps s s') : (s'.pc i).finished = true := by
  induction hsteps with
  | refl => exact hfinished
  | tail hsteps hstep ih =>
    obtain ⟨hinv, _⟩ := inv_of_reachable hallowed (h.steps hsteps)
    obtain ⟨j, x, hmoved⟩ := hstep.1.moved hinv
    exact hmoved.finished_of ih

end Runs

end Invariant

section Results

variable [DecidableEq I] {s : State I}

theorem Inv.inDone (h : Inv flavor s) (hcount : s.count = 0) (hne : s.waiters ≠ []) : ∃ d, (s.pc d).InDone := by
  rcases h.phase with ⟨d, hd⟩ | hrest
  · refine ⟨d, ?_⟩
    cases hpc : s.pc d with
    | drain | more | leave | pop => trivial
    | idle | addEnter | addHeld | addReturn | doneEnter | doneHeld | doneReturn | last | final | crashed | returned
    | waitEnter | waitHeld | passing | schedule | pushed | suspended | waited =>
      rw [hpc] at hd
      cases hd
  · exact absurd (hrest.count hcount) hne

/-- The group of the fibers, as long as what is left to count fits the word. A fiber is scheduled at most
once, and when a `Done` schedules it, it has registered before that `Done` has brought the count to zero.
`Wait` returns only if the count was zero during the call. Nobody is on the list while the count is zero,
unless a `Done` is under way. A `Done` that schedules a waiter either has the lock and others are left on
the list, or does not touch the group any more. -/
theorem fiber_rounds (h : ((system I .fiber).restrict Fits).Reachable s) :
    (∀ i, released s.log i ≤ 1) ∧
      (∀ d i, .wake d i ∈ s.log → [.register i, .opened d, .wake d i].Sublist s.log) ∧
      (∀ i, s.pc i = .waited → ZeroDuring ((system I .fiber).restrict Fits) s i) ∧
      (s.count = 0 → s.waiters ≠ [] → ∃ d, (s.pc d).InDone) ∧
      ∀ d w, s.pc d = .more w ∨ s.pc d = .final (some w) →
        s.waiters ≠ [] ∧ s.lock = some d ∨
          ∀ s', ((system I .fiber).restrict Fits).Steps s s' → (s'.pc d).touches = false := by
  have hallowed (s s' : State I) (hfits : Fits s s') : Fits s s' ∧ (Flavor.fiber = .coro → Apart s s') :=
    ⟨hfits, nofun⟩
  obtain ⟨hinv, _⟩ := inv_of_reachable hallowed h
  refine ⟨hinv.legal.released_le_one, fun d i => hinv.legal.sublist_of_wake, fun i hpc => ?_, hinv.inDone,
    fun d w hpc => ?_⟩
  · refine zeroDuring_of_past hallowed h (.inl ?_)
    rcases hinv.at_pc hpc with ⟨d, hwoken⟩ | hpassed
    · rw [hwoken]
      exact ⟨nofun, nofun⟩
    · rw [hpassed]
      exact ⟨nofun, nofun⟩
  · rcases hpc with hpc | hpc
    · obtain ⟨hlock, _, _, hne, _⟩ := hinv.at_pc hpc
      exact .inl ⟨hne, hlock⟩
    · refine .inr fun s' hsteps => Pc.touches_of_finished ?_
      exact finished_of_steps hallowed h (by rw [hpc]; rfl) hsteps

/-- A fiber waits for one `Done`, and is about to be scheduled by it. -/
theorem fiber_rounds_one :
    ∃ s : State (Fin 3), ((system (Fin 3) .fiber).restrict Fits).Reachable s ∧ s.pc 2 = .final (some 1) ∧
      ∀ s', ((system (Fin 3) .fiber).restrict Fits).Steps s s' → (s'.pc 2).touches = false := by
  have h₀ : ((system (Fin 3) .fiber).restrict Fits).Reachable initial := .init rfl
  have h₁ := h₀.step ⟨.callAdd (i := 0) (n := 1) (by decide) rfl, by decide⟩
  have h₂ := h₁.step ⟨.addLock (i := 0) rfl rfl, by decide⟩
  have h₃ := h₂.step ⟨.add (i := 0) rfl, by decide⟩
  have h₄ := h₃.step ⟨.addUnlock (i := 0) rfl, by decide⟩
  have h₅ := h₄.step ⟨.callWait (i := 1) rfl, by decide⟩
  have h₆ := h₅.step ⟨.waitLock (i := 1) rfl rfl, by decide⟩
  have h₇ := h₆.step ⟨.waitPush (i := 1) rfl (by decide), by decide⟩
  have h₈ := h₇.step ⟨.pushUnlock (i := 1) rfl, by decide⟩
  have h₉ := h₈.step ⟨.callDone (i := 2) rfl, by decide⟩
  have h₁₀ := h₉.step ⟨.doneLock (i := 2) rfl rfl, by decide⟩
  have h₁₁ := h₁₀.step ⟨.done (i := 2) rfl (by decide), by decide⟩
  have h₁₂ := h₁₁.step ⟨.turn (i := 2) rfl, by decide⟩
  have h₁₃ := h₁₂.step ⟨.lastUnlock (i := 2) rfl, by decide⟩
  refine ⟨_, h₁₃, rfl, ((fiber_rounds h₁₃).2.2.2.2 2 1 (.inr rfl)).resolve_left ?_⟩
  exact fun hleft => hleft.1 rfl

/-- `Add` brings the count back to zero by overflow, and a fiber is left on the list. -/
theorem fiber_overflow :
    ∃ s : State (Fin 3), (system (Fin 3) .fiber).Reachable s ∧ s.count = 0 ∧ s.waiters = [1] ∧
      ∀ d, ¬ (s.pc d).InDone := by
  have h₀ : (system (Fin 3) .fiber).Reachable initial := .init rfl
  have h₁ := h₀.step (.callAdd (i := 0) (n := 1) (by decide) rfl)
  have h₂ := h₁.step (.addLock (i := 0) rfl rfl)
  have h₃ := h₂.step (.add (i := 0) rfl)
  have h₄ := h₃.step (.addUnlock (i := 0) rfl)
  have h₅ := h₄.step (.callWait (i := 1) rfl)
  have h₆ := h₅.step (.waitLock (i := 1) rfl rfl)
  have h₇ := h₆.step (.waitPush (i := 1) rfl (by decide))
  have h₈ := h₇.step (.pushUnlock (i := 1) rfl)
  have h₉ := h₈.step (.callAdd (i := 2) (n := word - 1) (by decide) rfl)
  have h₁₀ := h₉.step (.addLock (i := 2) rfl rfl)
  have h₁₁ := h₁₀.step (.add (i := 2) rfl)
  have h₁₂ := h₁₁.step (.addUnlock (i := 2) rfl)
  refine ⟨_, h₁₂, by decide, rfl, fun d => ?_⟩
  match d with
  | 0 | 1 | 2 => exact id

/-- A second `Add` and `Done` come between the `unlock` and the `PopFront` of the first `Done`. Both calls
of `Done` then want the one waiter that is left, and the first one schedules the null pointer. -/
theorem coro_crash :
    ∃ s : State (Fin 5), (system (Fin 5) .coro).Reachable s ∧ s.pc 2 = .crashed := by
  have h₀ : (system (Fin 5) .coro).Reachable initial := .init rfl
  have h₁ := h₀.step (.callAdd (i := 0) (n := 1) (by decide) rfl)
  have h₂ := h₁.step (.addLock (i := 0) rfl rfl)
  have h₃ := h₂.step (.add (i := 0) rfl)
  have h₄ := h₃.step (.addUnlock (i := 0) rfl)
  have h₅ := h₄.step (.callWait (i := 1) rfl)
  have h₆ := h₅.step (.waitLock (i := 1) rfl rfl)
  have h₇ := h₆.step (.waitPush (i := 1) rfl (by decide))
  have h₈ := h₇.step (.pushUnlock (i := 1) rfl)
  have h₉ := h₈.step (.callDone (i := 2) rfl)
  have h₁₀ := h₉.step (.doneLock (i := 2) rfl rfl)
  have h₁₁ := h₁₀.step (.done (i := 2) rfl (by decide))
  have h₁₂ := h₁₁.step (.turn (i := 2) rfl)
  have h₁₃ := h₁₂.step (.leave (i := 2) rfl)
  have h₁₄ := h₁₃.step (.callAdd (i := 3) (n := 1) (by decide) rfl)
  have h₁₅ := h₁₄.step (.addLock (i := 3) rfl rfl)
  have h₁₆ := h₁₅.step (.add (i := 3) rfl)
  have h₁₇ := h₁₆.step (.addUnlock (i := 3) rfl)
  have h₁₈ := h₁₇.step (.callDone (i := 4) rfl)
  have h₁₉ := h₁₈.step (.doneLock (i := 4) rfl rfl)
  have h₂₀ := h₁₉.step (.done (i := 4) rfl (by decide))
  have h₂₁ := h₂₀.step (.turn (i := 4) rfl)
  have h₂₂ := h₂₁.step (.leave (i := 4) rfl)
  have h₂₃ := h₂₂.step (.pop (i := 4) rfl)
  have h₂₄ := h₂₃.step (.final (i := 4) (w := 1) rfl)
  have h₂₅ := h₂₄.step (.pop (i := 2) rfl)
  have h₂₆ := h₂₅.step (.finalCoro (i := 2) rfl rfl)
  exact ⟨_, h₂₆, rfl⟩

/-- The group of the coroutines, as long as what is left to count fits the word and nobody calls `Add`
while a `Done` has unlocked and not yet taken the last waiter. A coroutine is scheduled at most once, and
when a `Done` schedules it, it has registered before that `Done` has brought the count to zero. Nobody is
on the list while the count is zero, unless a `Done` is under way. `Done` never takes a waiter from an
empty list. -/
theorem coro_rounds (h : ((system I .coro).restrict fun s s' => Fits s s' ∧ Apart s s').Reachable s) :
    (∀ i, released s.log i ≤ 1) ∧
      (∀ d i, .wake d i ∈ s.log → [.register i, .opened d, .wake d i].Sublist s.log) ∧
      (s.count = 0 → s.waiters ≠ [] → ∃ d, (s.pc d).InDone) ∧
      (∀ d, s.pc d = .drain ∨ s.pc d = .pop → s.waiters ≠ []) ∧ ∀ d, s.pc d ≠ .crashed := by
  obtain ⟨hinv, _⟩ := inv_of_reachable (fun _ _ hallowed => ⟨hallowed.1, fun _ => hallowed.2⟩) h
  refine ⟨hinv.legal.released_le_one, fun d i => hinv.legal.sublist_of_wake, hinv.inDone, fun d hpc => ?_,
    fun d hpc => hinv.at_pc hpc⟩
  rcases hpc with hpc | hpc
  · exact (hinv.at_pc hpc).2.2.2 rfl
  · obtain ⟨_, _, _, w, hone⟩ := hinv.at_pc hpc
    rw [hone]
    nofun

/-- A coroutine waits for one `Done`, which has unlocked and finds it on the list. -/
theorem coro_rounds_one :
    ∃ s : State (Fin 3), ((system (Fin 3) .coro).restrict fun s s' => Fits s s' ∧ Apart s s').Reachable s ∧
      s.pc 2 = .pop ∧ s.waiters ≠ [] := by
  have h₀ : ((system (Fin 3) .coro).restrict fun s s' => Fits s s' ∧ Apart s s').Reachable initial := .init rfl
  have h₁ := h₀.step ⟨.callAdd (i := 0) (n := 1) (by decide) rfl, by decide, (absurd rfl ·)⟩
  have h₂ := h₁.step ⟨.addLock (i := 0) rfl rfl, by decide, (absurd rfl ·)⟩
  have h₃ := h₂.step ⟨.add (i := 0) rfl, by decide, fun _ d => match d with | 0 | 1 | 2 => nofun⟩
  have h₄ := h₃.step ⟨.addUnlock (i := 0) rfl, by decide, (absurd rfl ·)⟩
  have h₅ := h₄.step ⟨.callWait (i := 1) rfl, by decide, (absurd rfl ·)⟩
  have h₆ := h₅.step ⟨.waitLock (i := 1) rfl rfl, by decide, (absurd rfl ·)⟩
  have h₇ := h₆.step ⟨.waitPush (i := 1) rfl (by decide), by decide, (absurd rfl ·)⟩
  have h₈ := h₇.step ⟨.pushUnlock (i := 1) rfl, by decide, (absurd rfl ·)⟩
  have h₉ := h₈.step ⟨.callDone (i := 2) rfl, by decide, (absurd rfl ·)⟩
  have h₁₀ := h₉.step ⟨.doneLock (i := 2) rfl rfl, by decide, (absurd rfl ·)⟩
  have h₁₁ := h₁₀.step ⟨.done (i := 2) rfl (by decide), by decide, (absurd rfl ·)⟩
  have h₁₂ := h₁₁.step ⟨.turn (i := 2) rfl, by decide, (absurd rfl ·)⟩
  have h₁₃ := h₁₂.step ⟨.leave (i := 2) rfl, by decide, (absurd rfl ·)⟩
  exact ⟨_, h₁₃, rfl, (coro_rounds h₁₃).2.2.2.1 2 (.inr rfl)⟩

end Results

end CppConcur.Sync.WaitGroup
