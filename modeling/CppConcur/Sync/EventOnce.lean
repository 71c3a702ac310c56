import CppConcur.Sync.Event
import Mathlib.Data.List.Nodup
import Mathlib.Tactic.Common

/-!
# Every waiter of an event is scheduled once, and the event may go as soon as they have returned

The invariant has an assertion for every place of `Wait` and of `Fire`. Those in `waiters_` and the one
that `Fire` has just taken from there are due when the flag is set. While `Fire` still has to touch the
event, some of them is left, or the lock has not been free since the flag was set and nobody has seen it.
-/

namespace CppConcur.Sync.Event

open Logic Logic.Gate

variable {W : Type} {flavor : Flavor}

/-- The waiter that `Fire` has taken from the list and not yet scheduled. -/
def FirePc.hand : FirePc W → List W
  | .more w => [w]
  | .last w | .final w => w.toList
  | .idle | .enter | .held | .drain | .leave _ | .returned | .crashed => []

/-- What the assertions about one call of `Wait` speak of: whether it has the lock, `fired_`, whether it
is listed or in a scheduler, and its status in the history. -/
structure View where
  mine : Prop
  fired : Bool
  listed : Prop
  queued : Prop
  status : Status Unit

/-- The call has not registered and was not let go on. -/
structure View.Out (v : View) : Prop where
  status : v.status = .absent
  listed : ¬ v.listed
  queued : ¬ v.queued

/-- The call waits to be scheduled. -/
structure View.Waits (v : View) : Prop where
  status : v.status = if v.fired then .due () else .waiting
  listed : v.listed
  queued : ¬ v.queued

/-- The call was let go on. -/
structure View.Freed (v : View) : Prop where
  fired : v.fired = true
  status : v.status = .woken () ∨ v.status = .passed
  listed : ¬ v.listed

def WaitPc.Ok (v : View) : WaitPc → Prop
  | .idle | .enter => v.Out
  | .held => v.mine ∧ v.Out
  | .passing => v.mine ∧ v.fired = true ∧ v.Out
  | .schedule => v.fired = true ∧ v.Out
  | .pushed => v.mine ∧ v.fired = false ∧ v.Waits
  | .suspended => v.Waits ∨ v.Freed ∧ v.queued
  | .returned => v.Freed ∧ ¬ v.queued

/-- The call has not seen that the flag is set. -/
def WaitPc.unaware : WaitPc → Bool
  | .idle | .enter | .held | .pushed | .suspended => true
  | .passing | .schedule | .returned => false

namespace WaitPc.Ok

variable {v : View} {x : WaitPc}

theorem view (h : x.Ok v) : v.Out ∨ v.Waits ∨ v.Freed := by
  cases x with
  | idle | enter => exact .inl h
  | held => exact .inl h.2
  | passing => exact .inl h.2.2
  | schedule => exact .inl h.2
  | pushed => exact .inr (.inl h.2.2)
  | suspended => exact .inr (h.imp id And.left)
  | returned => exact .inr (.inr h.1)

theorem fired (h : x.Ok v) (haware : x.unaware = false) : v.fired = true := by
  cases x with
  | passing => exact h.2.1
  | schedule => exact h.1
  | returned => exact h.1.fired
  | idle | enter | held | pushed | suspended => cases haware

/-- A call that waits has returned the lock, unless the flag is not set. -/
theorem suspended (h : x.Ok v) (hwaits : v.Waits) (hlock : ¬ v.mine ∨ v.fired = true) : x = .suspended := by
  cases x with
  | idle | enter => exact absurd hwaits.listed h.listed
  | held => exact absurd hwaits.listed h.2.listed
  | passing => exact absurd hwaits.listed h.2.2.listed
  | schedule => exact absurd hwaits.listed h.2.listed
  | pushed => exact hlock.elim (absurd h.1) fun hfired => by cases hfired.symm.trans h.2.1
  | suspended => rfl
  | returned => exact absurd hwaits.listed h.1.listed

end WaitPc.Ok

/-- Nobody has seen that the flag is set. -/
structure State.Quiet (s : State W) : Prop where
  queued : s.queued = []
  unaware : ∀ w, (s.wait w).unaware = true

def FirePc.Ok (flavor : Flavor) (s : State W) : FirePc W → Prop
  | .idle | .enter => s.fired = false
  | .held => s.lock = some .fire ∧ s.fired = false
  | .drain => s.fired = true ∧ (flavor = .fiber → s.lock = some .fire) ∧
      (s.waiters = [] → flavor = .fiber ∧ s.Quiet)
  | .more _ => s.fired = true ∧ (flavor = .fiber → s.lock = some .fire) ∧ s.waiters ≠ []
  | .last w => s.fired = true ∧ s.lock = some .fire ∧ s.waiters = [] ∧ flavor = .fiber ∧ (w = none → s.Quiet)
  | .leave empty => s.fired = true ∧ s.lock = some .fire ∧ flavor = .coro ∧ empty = s.waiters.isEmpty ∧
      (empty = true → s.Quiet)
  | .final w => s.fired = true ∧ s.waiters = [] ∧ (w = none → flavor = .fiber)
  | .returned => s.fired = true ∧ s.waiters = []
  | .crashed => False

section Invariant

variable [DecidableEq W] {s s' : State W} {w : W} {pc : WaitPc}

def State.view (s : State W) (w : W) : View :=
  ⟨s.lock = some (.wait w), s.fired, w ∈ s.waiters ++ s.fire.hand, w ∈ s.queued, status s.log w⟩

structure Inv (flavor : Flavor) (s : State W) : Prop where
  legal : Legal s.log
  listed : (s.waiters ++ s.fire.hand).Nodup
  queued : s.queued.Nodup
  wait : ∀ w, (s.wait w).Ok (s.view w)
  fire : s.fire.Ok flavor s
  dead : s.alive = false → (∃ w, s.wait w = .returned) ∧ ∀ w, s.wait w = .idle ∨ s.wait w = .returned

theorem view_congr {v : W} (hmine : s'.lock = some (.wait v) ↔ s.lock = some (.wait v))
    (hfired : s'.fired = s.fired)
    (hlisted : v ∈ s'.waiters ++ s'.fire.hand ↔ v ∈ s.waiters ++ s.fire.hand)
    (hqueued : v ∈ s'.queued ↔ v ∈ s.queued) (hstatus : status s'.log v = status s.log v) :
    s'.view v = s.view v := by
  simp only [State.view, hmine, hfired, hlisted, hqueued, hstatus]

/-- A step of one call: the others see the same event as before. -/
theorem wait_update (h : ∀ v, (s.wait v).Ok (s.view v)) (hown : pc.Ok (s'.view w))
    (hother : ∀ v, v ≠ w → s'.view v = s.view v) (v : W) :
    (Function.update s.wait w pc v).Ok (s'.view v) := by
  rcases eq_or_ne v w with rfl | hne
  · rw [Function.update_self]
    exact hown
  · rw [Function.update_of_ne hne, hother v hne]
    exact h v

omit [DecidableEq W] in
/-- `Fire` sees the same event after a step of a call. The lock is with `Fire` whenever it matters that
nobody has seen the flag. -/
theorem FirePc.Ok.keep {x : FirePc W} (h : x.Ok flavor s) (hfired : s'.fired = s.fired)
    (hlock : s.lock = some .fire → s'.lock = some .fire)
    (hwaiters : s.fired = true → s'.waiters = s.waiters)
    (hquiet : s.lock = some .fire → s.Quiet → s'.Quiet) : x.Ok flavor s' := by
  cases x with
  | idle => exact hfired.trans h
  | enter => exact hfired.trans h
  | held => exact ⟨hlock h.1, hfired.trans h.2⟩
  | drain =>
    refine ⟨hfired.trans h.1, fun hfiber => hlock (h.2.1 hfiber), ?_⟩
    rw [hwaiters h.1]
    intro hnil
    obtain ⟨hfiber, hq⟩ := h.2.2 hnil
    exact ⟨hfiber, hquiet (h.2.1 hfiber) hq⟩
  | more w => exact ⟨hfired.trans h.1, fun hfiber => hlock (h.2.1 hfiber), hwaiters h.1 ▸ h.2.2⟩
  | last w =>
    obtain ⟨hf, hl, hnil, hfiber, hq⟩ := h
    exact ⟨hfired.trans hf, hlock hl, (hwaiters hf).trans hnil, hfiber, fun hnone => hquiet hl (hq hnone)⟩
  | leave empty =>
    obtain ⟨hf, hl, hcoro, hempty, hq⟩ := h
    exact ⟨hfired.trans hf, hlock hl, hcoro, hwaiters hf ▸ hempty, fun htrue => hquiet hl (hq htrue)⟩
  | final w => exact ⟨hfired.trans h.1, (hwaiters h.1).trans h.2.1, h.2.2⟩
  | returned => exact ⟨hfired.trans h.1, (hwaiters h.1).trans h.2⟩
  | crashed => exact h

omit [DecidableEq W] in
theorem FirePc.Ok.fired {x : FirePc W} (h : x.Ok flavor s) (hhand : x.hand ≠ []) : s.fired = true := by
  cases x with
  | more | last | final => exact h.1
  | idle | enter | held | drain | leave | returned | crashed => exact absurd rfl hhand

namespace Inv

theorem alive (h : Inv flavor s) (hidle : s.wait w ≠ .idle) (hreturned : s.wait w ≠ .returned) :
    s.alive = true := by
  by_contra hdead
  exact ((h.dead (Bool.eq_false_iff.mpr hdead)).2 w).elim hidle hreturned

/-- A step of a call of `Wait`. -/
theorem wait_step (h : Inv flavor s) (halive : s'.alive = true) (hlegal : Legal s'.log)
    (hlisted : (s'.waiters ++ s'.fire.hand).Nodup) (hqueued : s'.queued.Nodup)
    (hwait : s'.wait = Function.update s.wait w pc) (hfire : s'.fire = s.fire) (hfired : s'.fired = s.fired)
    (hlock : s.lock = some .fire → s'.lock = some .fire)
    (hwaiters : s.fired = true → s'.waiters = s.waiters)
    (hquiet : s.lock = some .fire → s.Quiet → s'.Quiet) (hown : pc.Ok (s'.view w))
    (hother : ∀ v, v ≠ w → s'.view v = s.view v) : Inv flavor s' where
  legal := hlegal
  listed := hlisted
  queued := hqueued
  wait v := by
    rw [hwait]
    exact wait_update h.wait hown hother v
  fire := by
    rw [hfire]
    exact h.fire.keep hfired hlock hwaiters hquiet
  dead hdead := by rw [halive] at hdead; cases hdead

omit [DecidableEq W] in
/-- The calls do not share the lock. -/
theorem lock_ne {v : W} (hlock : s.lock = some (.wait w)) (hne : v ≠ w) : s.lock ≠ some (.wait v) := by
  rw [hlock]
  intro heq
  cases heq
  exact hne rfl

theorem callWait (h : Inv flavor s) (halive : s.alive = true) (hpc : s.wait w = .idle) :
    Inv flavor (s.goto w .enter) := by
  have hw := h.wait w
  rw [hpc] at hw
  refine h.wait_step halive h.legal h.listed h.queued rfl rfl rfl id (fun _ => rfl) ?_ hw fun v _ => rfl
  intro _ hq
  refine ⟨hq.queued, fun v => ?_⟩
  show (Function.update s.wait w .enter v).unaware = true
  rcases eq_or_ne v w with rfl | hne
  · rw [Function.update_self]
    rfl
  · rw [Function.update_of_ne hne]
    exact hq.unaware v

theorem waitLock (h : Inv flavor s) (hpc : s.wait w = .enter) (hlock : s.lock = none) :
    Inv flavor { s.goto w .held with lock := some (.wait w) } := by
  have hw := h.wait w
  rw [hpc] at hw
  refine h.wait_step (h.alive (by rw [hpc]; nofun) (by rw [hpc]; nofun)) h.legal h.listed h.queued rfl rfl rfl
    ?_ (fun _ => rfl) ?_ ⟨rfl, hw.status, hw.listed, hw.queued⟩ ?_
  · intro hfire
    rw [hlock] at hfire
    cases hfire
  · intro hfire
    rw [hlock] at hfire
    cases hfire
  · intro v hne
    refine view_congr (iff_of_false (lock_ne rfl hne) ?_) rfl Iff.rfl Iff.rfl rfl
    rw [hlock]
    nofun

/-- A step of the call that has the lock. -/
theorem locked_step (h : Inv flavor s) (hmine : s.lock = some (.wait w)) (halive : s'.alive = true)
    (hlegal : Legal s'.log) (hlisted : (s'.waiters ++ s'.fire.hand).Nodup) (hqueued : s'.queued = s.queued)
    (hwait : s'.wait = Function.update s.wait w pc) (hfire : s'.fire = s.fire) (hfired : s'.fired = s.fired)
    (hwaiters : s.fired = true → s'.waiters = s.waiters) (hown : pc.Ok (s'.view w))
    (hlock : s'.lock = s.lock ∨ s'.lock = none)
    (hother : ∀ v, v ≠ w → (v ∈ s'.waiters ↔ v ∈ s.waiters) ∧ status s'.log v = status s.log v) :
    Inv flavor s' := by
  have hnot (hfire : s.lock = some .fire) : False := by
    rw [hmine] at hfire
    cases hfire
  refine h.wait_step halive hlegal hlisted (hqueued ▸ h.queued) hwait hfire hfired
    (fun hl => (hnot hl).elim) hwaiters (fun hl => (hnot hl).elim) hown ?_
  intro v hne
  obtain ⟨hmem, hstatus⟩ := hother v hne
  refine view_congr (iff_of_false ?_ (lock_ne hmine hne)) hfired ?_ (by rw [hqueued]) hstatus
  · rcases hlock with heq | heq
    · rw [heq]
      exact lock_ne hmine hne
    · rw [heq]
      nofun
  · rw [List.mem_append, List.mem_append, hmem, hfire]

theorem waitFired (h : Inv flavor s) (hpc : s.wait w = .held) (hfired : s.fired = true) :
    Inv flavor (s.goto w .passing) := by
  have hw := h.wait w
  rw [hpc] at hw
  exact h.locked_step hw.1 (h.alive (by rw [hpc]; nofun) (by rw [hpc]; nofun)) h.legal h.listed rfl rfl rfl rfl
    (fun _ => rfl) ⟨hw.1, hfired, hw.2⟩ (.inl rfl) fun v _ => ⟨Iff.rfl, rfl⟩

theorem passUnlock (h : Inv flavor s) (hpc : s.wait w = .passing) :
    Inv flavor { s.goto w .schedule with lock := none } := by
  have hw := h.wait w
  rw [hpc] at hw
  exact h.locked_step hw.1 (h.alive (by rw [hpc]; nofun) (by rw [hpc]; nofun)) h.legal h.listed rfl rfl rfl rfl
    (fun _ => rfl) ⟨hw.2.1, hw.2.2.status, hw.2.2.listed, hw.2.2.queued⟩ (.inr rfl) fun v _ => ⟨Iff.rfl, rfl⟩

theorem pushUnlock (h : Inv flavor s) (hpc : s.wait w = .pushed) :
    Inv flavor { s.goto w .suspended with lock := none } := by
  have hw := h.wait w
  rw [hpc] at hw
  exact h.locked_step hw.1 (h.alive (by rw [hpc]; nofun) (by rw [hpc]; nofun)) h.legal h.listed rfl rfl rfl rfl
    (fun _ => rfl) (.inl ⟨hw.2.2.status, hw.2.2.listed, hw.2.2.queued⟩) (.inr rfl) fun v _ => ⟨Iff.rfl, rfl⟩

theorem waitPush (h : Inv flavor s) (hpc : s.wait w = .held) (hfired : s.fired = false) :
    Inv flavor ((s.push w).goto w .pushed) := by
  have hw := h.wait w
  rw [hpc] at hw
  have hhand : s.fire.hand = [] := by
    by_contra hne
    rw [h.fire.fired hne] at hfired
    cases hfired
  refine h.locked_step hw.1 (h.alive (by rw [hpc]; nofun) (by rw [hpc]; nofun))
    (h.legal.snoc (.register hw.2.status)) ?_ rfl rfl rfl rfl ?_ ⟨hw.1, hfired, ?_⟩ (.inl rfl) ?_
  · show (s.waiters ++ [w] ++ s.fire.hand).Nodup
    have hnodup := h.listed
    have hnot : w ∉ s.waiters ++ s.fire.hand := hw.2.listed
    rw [hhand, List.append_nil] at hnodup hnot ⊢
    rw [List.nodup_append_comm]
    exact List.nodup_cons.mpr ⟨hnot, hnodup⟩
  · intro htrue
    rw [hfired] at htrue
    cases htrue
  · refine ⟨?_, List.mem_append_left _ List.mem_concat_self, hw.2.queued⟩
    show status (s.log ++ [.register w]) w = if s.fired then .due () else .waiting
    rw [hfired, status_register_self]
    rfl
  · intro v hne
    refine ⟨?_, status_register_of_ne hne⟩
    exact List.mem_append.trans (or_iff_left (List.mem_singleton.not.mpr hne))

theorem passReturn (h : Inv flavor s) (hpc : s.wait w = .passing) :
    Inv flavor { s.goto w .returned with lock := none, log := s.log ++ [.pass w] } := by
  have hw := h.wait w
  rw [hpc] at hw
  exact h.locked_step hw.1 (h.alive (by rw [hpc]; nofun) (by rw [hpc]; nofun))
    (h.legal.snoc (.pass hw.2.2.status)) h.listed rfl rfl rfl rfl (fun _ => rfl)
    ⟨⟨hw.2.1, .inr status_pass_self, hw.2.2.listed⟩, hw.2.2.queued⟩ (.inr rfl)
    fun v hne => ⟨Iff.rfl, status_pass_of_ne hne⟩

theorem passSchedule (h : Inv flavor s) (hpc : s.wait w = .schedule) :
    Inv flavor ((s.scheduleSelf w).goto w .suspended) := by
  have hw := h.wait w
  rw [hpc] at hw
  refine h.wait_step (h.alive (by rw [hpc]; nofun) (by rw [hpc]; nofun)) (h.legal.snoc (.pass hw.2.status))
    h.listed ?_ rfl rfl rfl id (fun _ => rfl) ?_
    (.inr ⟨⟨hw.1, .inr status_pass_self, hw.2.listed⟩, List.mem_concat_self⟩) ?_
  · show (s.queued ++ [w]).Nodup
    rw [List.nodup_append_comm]
    exact List.nodup_cons.mpr ⟨hw.2.queued, h.queued⟩
  · intro _ hq
    have hunaware := hq.unaware w
    rw [hpc] at hunaware
    cases hunaware
  · intro v hne
    refine view_congr Iff.rfl rfl Iff.rfl ?_ (status_pass_of_ne hne)
    exact List.mem_append.trans (or_iff_left (List.mem_singleton.not.mpr hne))

theorem resume (h : Inv flavor s) (hpc : s.wait w = .suspended) (hmem : w ∈ s.queued) :
    Inv flavor { s.goto w .returned with queued := s.queued.erase w } := by
  have hw := h.wait w
  rw [hpc] at hw
  refine h.wait_step (h.alive (by rw [hpc]; nofun) (by rw [hpc]; nofun)) h.legal h.listed (h.queued.erase w)
    rfl rfl rfl id (fun _ => rfl) ?_ ?_ ?_
  · intro _ hq
    rw [hq.queued] at hmem
    cases hmem
  · rcases hw with hwaits | hfreed
    · exact absurd hmem hwaits.queued
    · exact ⟨⟨hfreed.1.fired, hfreed.1.status, hfreed.1.listed⟩, h.queued.not_mem_erase⟩
  · intro v hne
    exact view_congr Iff.rfl rfl Iff.rfl (List.mem_erase_of_ne hne) rfl

/-- A step of `Fire` in which no call sees a difference. -/
theorem fire_step (h : Inv flavor s) (halive : s'.alive = s.alive) (hwait : s'.wait = s.wait)
    (hlog : s'.log = s.log) (hqueued : s'.queued = s.queued) (hfired : s'.fired = s.fired)
    (hlock : ∀ v, s'.lock = some (.wait v) ↔ s.lock = some (.wait v))
    (hlisted : (s'.waiters ++ s'.fire.hand).Perm (s.waiters ++ s.fire.hand)) (hfire : s'.fire.Ok flavor s') :
    Inv flavor s' where
  legal := by
    rw [hlog]
    exact h.legal
  listed := hlisted.nodup_iff.mpr h.listed
  queued := by
    rw [hqueued]
    exact h.queued
  wait v := by
    rw [hwait, view_congr (hlock v) hfired hlisted.mem_iff (by rw [hqueued]) (by rw [hlog])]
    exact h.wait v
  fire := hfire
  dead hdead := by
    rw [hwait]
    exact h.dead (halive ▸ hdead)

/-- Before the flag is set nobody has seen it. -/
theorem quiet (h : Inv flavor s) (hfired : s.fired = false) : s.Quiet := by
  have hnot : s.fired ≠ true := by
    rw [hfired]
    nofun
  refine ⟨List.eq_nil_iff_forall_not_mem.mpr fun w hmem => ?_, fun w => ?_⟩
  · rcases (h.wait w).view with hout | hwaits | hfreed
    · exact hout.queued hmem
    · exact hwaits.queued hmem
    · exact hnot hfreed.fired
  · by_contra haware
    exact hnot ((h.wait w).fired (Bool.eq_false_iff.mpr haware))

/-- A listed call is suspended and waits, once `Fire` has the lock or the flag is set. -/
theorem waits (h : Inv flavor s) (hlock : s.lock = some .fire ∨ s.fired = true)
    (hmem : w ∈ s.waiters ++ s.fire.hand) : s.wait w = .suspended ∧ (s.view w).Waits := by
  have hwaits : (s.view w).Waits := by
    rcases (h.wait w).view with hout | hwaits | hfreed
    · exact absurd hmem hout.listed
    · exact hwaits
    · exact absurd hmem hfreed.listed
  refine ⟨(h.wait w).suspended hwaits (hlock.imp_left fun hfire hmine => ?_), hwaits⟩
  cases hfire.symm.trans hmine

theorem setFired (h : Inv flavor s) (hpc : s.fire = .held) {x : FirePc W} (hhand : x.hand = [])
    (hx : s.Quiet → x.Ok flavor { s.setFired with fire := x }) : Inv flavor { s.setFired with fire := x } := by
  have hfire := h.fire
  rw [hpc] at hfire
  obtain ⟨hlock, hfired⟩ := hfire
  have hq := h.quiet hfired
  have hlisted : s.waiters ++ x.hand = s.waiters ++ s.fire.hand := by
    rw [hhand, hpc]
    rfl
  refine ⟨h.legal.snoc (.opened ()), ?_, h.queued, fun v => ?_, hx hq, h.dead⟩
  · show (s.waiters ++ x.hand).Nodup
    rw [hlisted]
    exact h.listed
  · have hv := h.wait v
    have hout (hold : (s.view v).Out) : (State.view { s.setFired with fire := x } v).Out := by
      refine ⟨?_, ?_, hold.queued⟩
      · exact status_opened_of_ne hold.status nofun
      · show v ∉ s.waiters ++ x.hand
        rw [hlisted]
        exact hold.listed
    have hunaware := hq.unaware v
    show (s.wait v).Ok _
    cases hw : s.wait v with
    | idle | enter =>
      rw [hw] at hv
      exact hout hv
    | held =>
      rw [hw] at hv
      exact ⟨hv.1, hout hv.2⟩
    | pushed =>
      rw [hw] at hv
      cases hlock.symm.trans hv.1
    | suspended =>
      rw [hw] at hv
      have hwaits := hv.resolve_right fun hfreed => by cases hfired.symm.trans hfreed.1.fired
      refine .inl ⟨?_, ?_, hwaits.queued⟩
      · have hstatus := hwaits.status
        rw [State.view, hfired] at hstatus
        exact status_opened_of_waiting hstatus
      · show v ∈ s.waiters ++ x.hand
        rw [hlisted]
        exact hwaits.listed
    | passing | schedule | returned =>
      rw [hw] at hunaware
      cases hunaware

theorem popFront (h : Inv flavor s) (hpc : s.fire = .drain) {last : Option W → FirePc W}
    (hhand : ∀ w, (last w).hand = w.toList)
    (hnone : s.waiters = [] → (last none).Ok flavor { s with fire := last none })
    (hsome : ∀ w, s.waiters = [w] → (last (some w)).Ok flavor { s with waiters := [], fire := last (some w) }) :
    Inv flavor (s.popFront last) := by
  have hfire := h.fire
  rw [hpc] at hfire
  unfold State.popFront
  split
  case h_1 hnil =>
    refine h.fire_step rfl rfl rfl rfl rfl (fun v => Iff.rfl) ?_ (hnone hnil)
    show (s.waiters ++ (last none).hand).Perm _
    rw [hhand, hpc]
    exact List.Perm.refl _
  case h_2 w hone =>
    refine h.fire_step rfl rfl rfl rfl rfl (fun v => Iff.rfl) ?_ (hsome w hone)
    show ([] ++ (last (some w)).hand).Perm _
    rw [hhand, hpc, hone]
    exact List.Perm.refl _
  case h_3 w ws hne hcons =>
    refine h.fire_step rfl rfl rfl rfl rfl (fun v => Iff.rfl) ?_ ⟨hfire.1, hfire.2.1, ?_⟩
    · show (ws ++ [w]).Perm _
      rw [hpc, hcons]
      exact (List.perm_append_singleton w ws).trans (List.append_nil _ ▸ List.Perm.refl _)
    · exact hne

/-- `Fire` schedules the waiter that it has taken from the list. -/
theorem schedule (h : Inv flavor s) (hhand : s.fire.hand = [w]) {x : FirePc W} (hx : x.hand = [])
    (hok : x.Ok flavor { s.schedule w with fire := x }) : Inv flavor { s.schedule w with fire := x } := by
  have hfired := h.fire.fired (by rw [hhand]; nofun)
  have hmem : w ∈ s.waiters ++ s.fire.hand := by
    rw [hhand]
    exact List.mem_concat_self
  obtain ⟨hpc, hwaits⟩ := h.waits (.inr hfired) hmem
  have hstatus : status s.log w = .due () := by
    have hdue := hwaits.status
    rw [State.view, hfired] at hdue
    exact hdue
  have hlisted := h.listed
  rw [hhand, List.nodup_append_comm] at hlisted
  obtain ⟨hnot, hnodup⟩ := List.nodup_cons.mp hlisted
  refine ⟨h.legal.snoc (.wake hstatus), ?_, ?_, fun v => ?_, hok, h.dead⟩
  · show (s.waiters ++ x.hand).Nodup
    rw [hx, List.append_nil]
    exact hnodup
  · show (s.queued ++ [w]).Nodup
    rw [List.nodup_append_comm]
    exact List.nodup_cons.mpr ⟨hwaits.queued, h.queued⟩
  · rcases eq_or_ne v w with rfl | hne
    · show (s.wait v).Ok _
      rw [hpc]
      refine .inr ⟨⟨hfired, .inl status_wake_self, ?_⟩, List.mem_concat_self⟩
      show v ∉ s.waiters ++ x.hand
      rw [hx, List.append_nil]
      exact hnot
    · have hview : State.view { s.schedule w with fire := x } v = s.view v := by
        refine view_congr Iff.rfl rfl ?_ ?_ (status_wake_of_ne hne)
        · show v ∈ s.waiters ++ x.hand ↔ v ∈ s.waiters ++ s.fire.hand
          rw [hx, hhand, List.append_nil, List.mem_append, List.mem_singleton, or_iff_left hne]
        · exact List.mem_append.trans (or_iff_left (List.mem_singleton.not.mpr hne))
      rw [hview]
      exact h.wait v

theorem destroy (h : Inv flavor s) (hcalled : ∃ w, s.wait w ≠ .idle)
    (hreturned : ∀ w, s.wait w = .idle ∨ s.wait w = .returned) : Inv flavor { s with alive := false } := by
  refine ⟨h.legal, h.listed, h.queued, h.wait, h.fire.keep rfl id (fun _ => rfl) fun _ hq => ?_, fun _ => ?_⟩
  · exact ⟨hq.queued, hq.unaware⟩
  · obtain ⟨w, hw⟩ := hcalled
    exact ⟨⟨w, (hreturned w).resolve_left hw⟩, hreturned⟩

omit [DecidableEq W] in
/-- The lock was not with a call, and is not. -/
theorem lock_wait_iff {l l' : Option (Holder W)} (hl : ∀ v, l ≠ some (.wait v)) (hl' : ∀ v, l' ≠ some (.wait v))
    (v : W) : l' = some (.wait v) ↔ l = some (.wait v) :=
  iff_of_false (hl' v) (hl v)

end Inv

theorem Step.inv (hstep : Step flavor s s') (h : Inv flavor s) : Inv flavor s' := by
  have hfire := h.fire
  cases hstep with
  | callWait halive hpc => exact h.callWait halive hpc
  | waitLock hpc hlock => exact h.waitLock hpc hlock
  | waitFired hpc hfired => exact h.waitFired hpc hfired
  | waitPush hpc hfired => exact h.waitPush hpc hfired
  | passUnlock hflavor hpc => exact h.passUnlock hpc
  | passSchedule hpc => exact h.passSchedule hpc
  | passReturn hflavor hpc => exact h.passReturn hpc
  | pushUnlock hpc => exact h.pushUnlock hpc
  | resume hpc hmem => exact h.resume hpc hmem
  | callFire hpc =>
    rw [hpc] at hfire
    refine h.fire_step rfl rfl rfl rfl rfl (fun v => Iff.rfl) ?_ hfire
    rw [hpc]
    exact List.Perm.refl _
  | fireLock hpc hlock =>
    rw [hpc] at hfire
    refine h.fire_step rfl rfl rfl rfl rfl ?_ ?_ ⟨rfl, hfire⟩
    · exact Inv.lock_wait_iff (by rw [hlock]; nofun) nofun
    · rw [hpc]
      exact List.Perm.refl _
  | fireFiber hflavor hpc =>
    rw [hpc] at hfire
    refine h.setFired hpc rfl fun hq => ⟨rfl, fun _ => hfire.1, fun _ => ⟨hflavor, hq.queued, hq.unaware⟩⟩
  | fireCoro hflavor hpc =>
    rw [hpc] at hfire
    refine h.setFired hpc rfl fun hq => ⟨rfl, hfire.1, hflavor, rfl, fun _ => ⟨hq.queued, hq.unaware⟩⟩
  | @leave empty hpc =>
    rw [hpc] at hfire
    obtain ⟨hfired, hlock, hcoro, hempty, hq⟩ := hfire
    refine h.fire_step rfl rfl rfl rfl rfl ?_ ?_ ?_
    · exact Inv.lock_wait_iff (by rw [hlock]; nofun) nofun
    · rw [hpc]
      cases empty <;> exact List.Perm.refl _
    · cases empty with
      | true => exact ⟨hfired, List.isEmpty_iff.mp hempty.symm⟩
      | false =>
        refine ⟨hfired, ?_, ?_⟩
        · rw [hcoro]
          nofun
        · intro hnil
          rw [hnil] at hempty
          cases hempty
  | popFiber hflavor hpc =>
    rw [hpc] at hfire
    obtain ⟨hfired, hlock, hq⟩ := hfire
    refine h.popFront hpc (fun w => rfl) (fun hnil => ?_) fun w hone => ?_
    · obtain ⟨_, hquiet⟩ := hq hnil
      exact ⟨hfired, hlock hflavor, hnil, hflavor, fun _ => ⟨hquiet.queued, hquiet.unaware⟩⟩
    · exact ⟨hfired, hlock hflavor, rfl, hflavor, nofun⟩
  | popCoro hflavor hpc =>
    rw [hpc] at hfire
    obtain ⟨hfired, hlock, hq⟩ := hfire
    refine h.popFront hpc (fun w => rfl) (fun hnil => ?_) fun w hone => ?_
    · exact ⟨hfired, hnil, fun _ => (hq hnil).1⟩
    · exact ⟨hfired, rfl, nofun⟩
  | more hpc =>
    rw [hpc] at hfire
    refine h.schedule (by rw [hpc]; rfl) rfl ⟨hfire.1, hfire.2.1, fun hnil => absurd hnil hfire.2.2⟩
  | lastUnlock hpc =>
    rw [hpc] at hfire
    obtain ⟨hfired, hlock, hnil, hfiber, hq⟩ := hfire
    refine h.fire_step rfl rfl rfl rfl rfl ?_ ?_ ⟨hfired, hnil, fun _ => hfiber⟩
    · exact Inv.lock_wait_iff (by rw [hlock]; nofun) nofun
    · rw [hpc]
      exact List.Perm.refl _
  | final hpc =>
    rw [hpc] at hfire
    exact h.schedule (by rw [hpc]; rfl) rfl ⟨hfire.1, hfire.2.1⟩
  | finalFiber hflavor hpc =>
    rw [hpc] at hfire
    refine h.fire_step rfl rfl rfl rfl rfl (fun v => Iff.rfl) ?_ ⟨hfire.1, hfire.2.1⟩
    rw [hpc]
    exact List.Perm.refl _
  | finalCoro hflavor hpc =>
    rw [hpc] at hfire
    cases hflavor.symm.trans (hfire.2.2 rfl)
  | destroy hcalled hreturned => exact h.destroy hcalled hreturned

theorem inv_of_reachable (h : (system W flavor).Reachable s) : Inv flavor s := by
  apply h.invariant
  · intro s hinit
    obtain rfl : s = initial := hinit
    exact ⟨.nil, List.nodup_nil, List.nodup_nil, fun w => ⟨rfl, List.not_mem_nil, List.not_mem_nil⟩, rfl, nofun⟩
  · intro s s' _ hinv hstep
    exact hstep.inv hinv

/-! ### What the invariant says -/

namespace Inv

theorem released_eq_zero (h : Inv flavor s) (hfired : s.fired = false) (w : W) : released s.log w = 0 := by
  have htold := h.legal.told w
  rcases (h.wait w).view with hout | hwaits | hfreed
  · have hstatus : status s.log w = .absent := hout.status
    rw [hstatus] at htold
    exact htold.1
  · have hstatus := hwaits.status
    rw [State.view, hfired] at hstatus
    rw [show status s.log w = .waiting from hstatus] at htold
    exact htold.1
  · cases hfired.symm.trans hfreed.fired

/-- A call that has registered is listed, or it was woken. -/
theorem listed_or_woken (h : Inv flavor s) (hmem : .register w ∈ s.log) :
    w ∈ s.waiters ++ s.fire.hand ∨ status s.log w = .woken () := by
  have htold := h.legal.told w
  rcases (h.wait w).view with hout | hwaits | hfreed
  · have hstatus : status s.log w = .absent := hout.status
    rw [hstatus] at htold
    exact absurd hmem htold.2
  · exact .inl hwaits.listed
  · refine .inr (hfreed.status.resolve_right fun hpassed => ?_)
    rw [show status s.log w = .passed from hpassed] at htold
    exact htold.2 hmem

/-- When the event is gone, somebody has returned from `Wait` and nobody is listed. -/
theorem gone (h : Inv flavor s) (hdead : s.alive = false) :
    s.fired = true ∧ ¬ s.Quiet ∧ s.waiters ++ s.fire.hand = [] := by
  obtain ⟨⟨w, hpc⟩, hall⟩ := h.dead hdead
  have hw := h.wait w
  rw [hpc] at hw
  have hfired : s.fired = true := hw.1.fired
  refine ⟨hfired, fun hq => ?_, List.eq_nil_iff_forall_not_mem.mpr fun v hmem => ?_⟩
  · have hunaware := hq.unaware w
    rw [hpc] at hunaware
    cases hunaware
  · obtain ⟨hsuspended, _⟩ := h.waits (.inr hfired) hmem
    rcases hall v with hidle | hreturned
    · cases hsuspended.symm.trans hidle
    · cases hsuspended.symm.trans hreturned

theorem fire_touches (h : Inv flavor s) (hdead : s.alive = false) :
    s.fire ≠ .idle ∧ s.fire.touches = false := by
  obtain ⟨hfired, hquiet, hnil⟩ := h.gone hdead
  obtain ⟨hwaiters, hhand⟩ := List.append_eq_nil_iff.mp hnil
  have hfire := h.fire
  cases hpc : s.fire with
  | idle =>
    rw [hpc] at hfire
    cases hfired.symm.trans hfire
  | enter =>
    rw [hpc] at hfire
    cases hfired.symm.trans hfire
  | held =>
    rw [hpc] at hfire
    cases hfired.symm.trans hfire.2
  | drain =>
    rw [hpc] at hfire
    exact absurd (hfire.2.2 hwaiters).2 hquiet
  | last w =>
    rw [hpc] at hfire hhand
    cases w with
    | none => exact absurd (hfire.2.2.2.2 rfl) hquiet
    | some w => cases hhand
  | leave empty =>
    rw [hpc] at hfire
    obtain ⟨_, _, _, hempty, hq⟩ := hfire
    exact absurd (hq (hempty.trans (List.isEmpty_iff.mpr hwaiters))) hquiet
  | more | final | returned | crashed => exact ⟨nofun, rfl⟩

theorem wait_touches (h : Inv flavor s) (hdead : s.alive = false) (w : W) : (s.wait w).touches = false := by
  rcases (h.dead hdead).2 w with hpc | hpc
  · rw [hpc]
    rfl
  · rw [hpc]
    rfl

end Inv

/-- Nobody is let go on twice, or before `fired_` is set. When `Fire` has returned, the list is empty and
everybody who had registered was scheduled once. `Fire` never schedules the null pointer. When the owner
has destroyed the event, `Fire` has been called, and neither `Fire` nor any `Wait` still touches the
event. -/
theorem one_shot (h : (system W flavor).Reachable s) :
    (∀ w, released s.log w ≤ 1) ∧ (s.fired = false → ∀ w, released s.log w = 0) ∧
      (s.fire = .returned → s.waiters = [] ∧ ∀ w, .register w ∈ s.log →
        [.register w, .opened (), .wake () w].Sublist s.log ∧ released s.log w = 1) ∧
      s.fire ≠ .crashed ∧
      (s.alive = false → s.fire ≠ .idle ∧ s.fire.touches = false ∧ ∀ w, (s.wait w).touches = false) := by
  have hinv := inv_of_reachable h
  have hfire := hinv.fire
  refine ⟨hinv.legal.released_le_one, hinv.released_eq_zero, fun hpc => ?_, fun hpc => ?_, fun hdead => ?_⟩
  · rw [hpc] at hfire
    refine ⟨hfire.2, fun w hmem => ?_⟩
    have hwoken : status s.log w = .woken () := by
      refine (hinv.listed_or_woken hmem).resolve_left ?_
      rw [hfire.2, hpc]
      exact List.not_mem_nil
    have htold := hinv.legal.told w
    rw [hwoken] at htold
    exact htold.symm
  · rw [hpc] at hfire
    exact hfire
  · obtain ⟨hidle, htouches⟩ := hinv.fire_touches hdead
    exact ⟨hidle, htouches, hinv.wait_touches hdead⟩

/-- A fiber waits when the flag is set, returns, and the event is destroyed before `Fire` has returned. -/
theorem one_shot_late :
    ∃ s : State Unit, (system Unit .fiber).Reachable s ∧ s.alive = false ∧ s.fire = .final none ∧
      s.fire.touches = false := by
  have h₀ : (system Unit .fiber).Reachable initial := .init rfl
  have h₁ := h₀.step (.callFire rfl)
  have h₂ := h₁.step (.fireLock rfl rfl)
  have h₃ := h₂.step (.fireFiber rfl rfl)
  have h₄ := h₃.step (.popFiber rfl rfl)
  have h₅ := h₄.step (.lastUnlock rfl)
  have h₆ := h₅.step (.callWait (w := ()) rfl rfl)
  have h₇ := h₆.step (.waitLock (w := ()) rfl rfl)
  have h₈ := h₇.step (.waitFired (w := ()) rfl rfl)
  have h₉ := h₈.step (.passUnlock (w := ()) rfl rfl)
  have h₁₀ := h₉.step (.passSchedule (w := ()) rfl)
  have h₁₁ := h₁₀.step (.resume (w := ()) rfl List.mem_concat_self)
  have h₁₂ := h₁₁.step (.destroy ⟨(), nofun⟩ fun _ => .inr rfl)
  exact ⟨_, h₁₂, rfl, rfl, ((one_shot h₁₂).2.2.2.2 rfl).2.1⟩

end Invariant

end CppConcur.Sync.Event
