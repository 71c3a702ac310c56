import CppConcur.Fiber.Guarded
import CppConcur.Logic.Custody
import Mathlib.Data.List.Nodup

/-!
# The handles on the wait lists

The handle of a suspended fiber is on one list, once, or with the one call that has taken it from there: the steps
of a call put a handle on a list, take one from it, or schedule it, and no step does two of these. From this the
primitives with wait lists are `Lawful`. The lists are changed only with the lock held.
-/

namespace CppConcur.Fiber.Guarded

open Logic Lifecycle

variable {Call σ : Type}

/-! ### The steps -/

section Effect

variable [DecidableEq Call]

/-- What a step of a call does to the handles. -/
inductive Effect (c : Call) (m : Mem Call σ) (pc : Pc Call σ) (m' : Mem Call σ) (pc' : Pc Call σ) : Prop
  /-- no handle is touched -/
  | quiet (hlist : m'.list = m.list) (hscheduled : m'.scheduled = m.scheduled) (hhand : pc'.hand = pc.hand)
      (hwakes : wakes c m pc = none)
      (hstage : stage c m pc = .code ∧ stage c m' pc' ∈ [Stage.out, .code, .awaiter] ∨
        stage c m pc = .awaiter ∧ stage c m' pc' = .awaiter)
  /-- the awaiter puts the handle on a list -/
  | push (l : WaitList) (again : Option (Section σ)) (hlist : m'.list = Function.update m.list l (m.list l ++ [c]))
      (hscheduled : m'.scheduled = m.scheduled) (hhand : pc.hand = none) (hwakes : wakes c m pc = none)
      (hstage : stage c m pc = .awaiter) (hpc' : pc' = .suspended again)
  /-- a handle is taken from a list -/
  | pop (l : WaitList) (w : Call) (ws : List Call) (hold : m.list l = w :: ws)
      (hlist : m'.list = Function.update m.list l ws) (hscheduled : m'.scheduled = m.scheduled)
      (hhand : pc.hand = none) (hhand' : pc'.hand = some w) (hwakes : wakes c m pc = none)
      (hstage : stage c m pc = .code) (hstage' : stage c m' pc' = .code)
  /-- a handle that was on a list is scheduled -/
  | wake (w : Call) (hlist : m'.list = m.list) (hscheduled : m'.scheduled = Function.update m.scheduled w true)
      (hhand : pc.hand = some w) (hhand' : pc'.hand = none) (hwakes : wakes c m pc = some w)
      (hstage : stage c m pc = .code) (hstage' : stage c m' pc' ∈ [Stage.out, .code])
  /-- the awaiter schedules the handle -/
  | wakeSelf (again : Option (Section σ)) (hlist : m'.list = m.list)
      (hscheduled : m'.scheduled = Function.update m.scheduled c true) (hhand : pc.hand = none)
      (hwakes : wakes c m pc = some c) (hstage : stage c m pc = .awaiter) (hpc' : pc' = .suspended again)
  /-- the fiber goes on -/
  | resume (again : Option (Section σ)) (hlist : m'.list = m.list)
      (hscheduled : m'.scheduled = Function.update m.scheduled c false) (hpc : pc = .suspended again)
      (hhand : pc'.hand = none) (hstage : m.scheduled c = true) (hstage' : stage c m' pc' ∈ [Stage.out, .code])

theorem Act.effect {c : Call} {m m' : Mem Call σ} {pc pc' : Pc Call σ} (h : Act c m pc m' pc') :
    Effect c m pc m' pc' := by
  cases h with
  | lock _ => exact .quiet rfl rfl rfl rfl (.inl ⟨rfl, by simp [stage]⟩)
  | blocked _ => exact .quiet rfl rfl rfl rfl (.inl ⟨rfl, by simp [stage]⟩)
  | @awaitPush b => exact .push b.list _ rfl rfl rfl rfl rfl rfl
  | update _ _ => exact .quiet rfl rfl rfl rfl (.inl ⟨rfl, by simp [stage]⟩)
  | popNobody => exact .quiet rfl rfl rfl rfl (.inl ⟨rfl, by simp [stage]⟩)
  | popNone _ => exact .quiet rfl rfl rfl rfl (.inl ⟨rfl, by simp [stage]⟩)
  | popFirst hlist => exact .pop _ _ _ hlist rfl rfl rfl rfl rfl rfl rfl
  | popLastNone _ => exact .quiet rfl rfl rfl rfl (.inl ⟨rfl, by simp [stage]⟩)
  | popLast hlist => exact .pop _ _ _ hlist rfl rfl rfl rfl rfl rfl rfl
  | popMore hlist => exact .pop _ _ _ hlist rfl rfl rfl rfl rfl rfl rfl
  | @schedule w rest => cases rest <;> exact .wake w rfl rfl rfl rfl rfl rfl (by simp [stage, Pc.afterSchedule])
  | @lastUnlock w => cases w <;> exact .quiet rfl rfl rfl rfl (.inl ⟨rfl, by simp [stage, Pc.afterUnlock]⟩)
  | unlock => exact .quiet rfl rfl rfl rfl (.inl ⟨rfl, by simp [stage]⟩)
  | suspend => exact .quiet rfl rfl rfl rfl (.inl ⟨rfl, by simp [stage]⟩)
  | awaitLock _ => exact .quiet rfl rfl rfl rfl (.inr ⟨rfl, rfl⟩)
  | awaitWait hpass => exact .push .waiters _ rfl rfl rfl (by simp [wakes, hpass]) rfl rfl
  | awaitLate hpass hearly => exact .wakeSelf _ rfl rfl rfl (by simp [wakes, hpass, hearly]) rfl rfl
  | awaitEarly hpass hearly => exact .quiet rfl rfl rfl (by simp [wakes, hpass, hearly]) (.inr ⟨rfl, rfl⟩)
  | awaitPass => exact .wakeSelf _ rfl rfl rfl rfl rfl rfl
  | @resume again hscheduled =>
    cases again <;> exact .resume _ rfl rfl rfl rfl hscheduled (by simp [stage, Pc.afterSuspend])

end Effect

/-! ### The invariant -/

/-- Who has a handle. -/
inductive Keeper (Call : Type)
  | list (l : WaitList)
  | hand (d : Call)

/-- The handle of `c` is with a keeper. -/
def Kept (x : Conf Call (Mem Call σ) (Pc Call σ)) : Keeper Call → Call → Prop
  | .list l, c => c ∈ x.mem.list l
  | .hand d, c => (x.pc d).hand = some c

/-- The fiber of the call is suspended and has not been scheduled. -/
def Parked (x : Conf Call (Mem Call σ) (Pc Call σ)) (c : Call) : Prop := stage c x.mem (x.pc c) = .parked

/-- Each suspended call has one handle, which is on one list, once, or has been taken from there. -/
structure Good (x : Conf Call (Mem Call σ) (Pc Call σ)) : Prop where
  custody : Custody (Parked x) (Kept x)
  nodup : ∀ l, (x.mem.list l).Nodup
  suspended : ∀ c, x.mem.scheduled c = true → ∃ again, x.pc c = .suspended again

theorem stage_congr {m m' : Mem Call σ} {c : Call} (h : m'.scheduled c = m.scheduled c) (pc : Pc Call σ) :
    stage c m' pc = stage c m pc := by
  cases pc <;> simp only [stage, h]

theorem stage_suspended {m : Mem Call σ} {c : Call} {pc : Pc Call σ} (h : stage c m pc = .parked) :
    ∃ again, pc = .suspended again ∧ m.scheduled c = false := by
  cases pc with
  | suspended again =>
    refine ⟨again, rfl, ?_⟩
    simpa [stage] using h
  | _ => cases h

/-- A call that executes code, or whose awaiter has the handle, has not been scheduled. -/
theorem Good.not_scheduled {x : Conf Call (Mem Call σ) (Pc Call σ)} (h : Good x) {c : Call}
    (hstage : stage c x.mem (x.pc c) = .code ∨ stage c x.mem (x.pc c) = .awaiter) : x.mem.scheduled c = false := by
  by_contra hne
  obtain ⟨again, hpc⟩ := h.suspended c (by simpa using hne)
  have hwoken : stage c x.mem (x.pc c) = .woken := by
    rw [hpc]
    simp only [stage]
    exact if_pos (by simpa using hne)
  rw [hwoken] at hstage
  simp at hstage

theorem Good.parked_of_hand {x : Conf Call (Mem Call σ) (Pc Call σ)} (h : Good x) {c w : Call}
    (hhand : (x.pc c).hand = some w) : Parked x w :=
  h.custody.held_of_found (show Kept x (.hand c) w from hhand)

section Steps

variable [DecidableEq Call] {x : Conf Call (Mem Call σ) (Pc Call σ)} {c : Call} {m' : Mem Call σ} {pc' : Pc Call σ}

/-- The calls that are as before. -/
theorem parked_update_of_ne {d : Call} (hd : d ≠ c) (hscheduled : m'.scheduled d = x.mem.scheduled d) :
    Parked ⟨m', Function.update x.pc c pc'⟩ d ↔ Parked x d := by
  simp only [Parked, Function.update_of_ne hd, stage_congr hscheduled]

theorem parked_update_self : Parked ⟨m', Function.update x.pc c pc'⟩ c ↔ stage c m' pc' = .parked := by
  simp only [Parked, Function.update_self]

/-- Handles that stay on their list or in their hand. -/
theorem kept_update {r : Keeper Call} {u : Call} (hlist : ∀ l, r = .list l → (u ∈ m'.list l ↔ u ∈ x.mem.list l))
    (hhand : r = .hand c → (pc'.hand = some u ↔ (x.pc c).hand = some u)) :
    Kept ⟨m', Function.update x.pc c pc'⟩ r u ↔ Kept x r u := by
  cases r with
  | list l => exact hlist l rfl
  | hand d =>
    by_cases hd : d = c
    · subst hd
      simp only [Kept, Function.update_self]
      exact hhand rfl
    · simp only [Kept, Function.update_of_ne hd]

theorem Good.custody_step (h : Good x) (hact : Effect c x.mem (x.pc c) m' pc') :
    Custody (Parked ⟨m', Function.update x.pc c pc'⟩) (Kept ⟨m', Function.update x.pc c pc'⟩) := by
  have hpc {st : Stage} (hstage : stage c x.mem (x.pc c) = st) (hne : st ≠ .parked) : ¬ Parked x c :=
    fun hparked => hne (hstage.symm.trans hparked)
  cases hact with
  | quiet hlist hscheduled hhand _ hstage =>
    refine h.custody.congr (fun u => ?_) fun r u => kept_update (fun l _ => by rw [hlist]) fun _ => by rw [hhand]
    by_cases hu : u = c
    · subst hu
      rw [parked_update_self]
      rcases hstage with ⟨hstage, hstage'⟩ | ⟨hstage, hstage'⟩
      · refine iff_of_false ?_ (hpc hstage (by decide))
        intro heq
        simp [heq] at hstage'
      · exact iff_of_false (hstage'.trans_ne (by decide)) (hpc hstage (by decide))
    · exact parked_update_of_ne hu (by rw [hscheduled])
  | push l again hlist hscheduled hhand _ hstage hpc' =>
    have hfree := h.not_scheduled (.inr hstage)
    refine h.custody.add (q := .list l) (hpc hstage (by decide)) ?_ (fun u hu => parked_update_of_ne hu (by rw [hscheduled]))
      ?_ fun r u hne => kept_update (fun l' hr => ?_) fun hr => ?_
    · rw [parked_update_self, hpc']
      simp [stage, hscheduled, hfree]
    · show c ∈ m'.list l
      simp [hlist]
    · rw [hlist]
      by_cases hl : l' = l
      · subst hl
        have hu : u ≠ c := fun heq => hne (by rw [hr, heq])
        simp [hu]
      · rw [Function.update_of_ne hl]
    · rw [hhand, hpc']
      rfl
  | pop l w ws hold hlist hscheduled hhand hhand' _ hstage hstage' =>
    have hnodup := h.nodup l
    rw [hold] at hnodup
    refine h.custody.move (p := .list l) (q := .hand c) (t := w) ?_ (fun u => ?_) ?_ ?_ fun r u hleft harrived =>
      kept_update (fun l' hr => ?_) fun hr => ?_
    · show w ∈ x.mem.list l
      simp [hold]
    · by_cases hu : u = c
      · subst hu
        rw [parked_update_self]
        exact iff_of_false (hstage'.trans_ne (by decide)) (hpc hstage (by decide))
      · exact parked_update_of_ne hu (by rw [hscheduled])
    · show w ∉ m'.list l
      rw [hlist, Function.update_self]
      exact (List.nodup_cons.mp hnodup).1
    · simp only [Kept, Function.update_self]
      exact hhand'
    · rw [hlist]
      by_cases hl : l' = l
      · subst hl
        have hu : u ≠ w := fun heq => hleft (by rw [hr, heq])
        rw [Function.update_self, hold, List.mem_cons]
        simp [hu]
      · rw [Function.update_of_ne hl]
    · have hu : w ≠ u := fun heq => harrived (by rw [hr, heq])
      rw [hhand, hhand']
      simp [hu]
  | wake w hlist hscheduled hhand hhand' _ hstage hstage' =>
    have hparked : Parked x w := h.parked_of_hand hhand
    obtain ⟨again, hsuspended, _⟩ := stage_suspended hparked
    have hw : w ≠ c := by
      rintro rfl
      exact hpc hstage (by decide) hparked
    refine h.custody.remove (p := .hand c) (t := w) hhand ?_ (fun u hu => ?_) ?_ fun r u hleft =>
      kept_update (fun l _ => by rw [hlist]) fun hr => ?_
    · simp only [Parked, Function.update_of_ne hw, hsuspended, stage, hscheduled, Function.update_self]
      decide
    · by_cases huc : u = c
      · subst huc
        rw [parked_update_self]
        refine iff_of_false ?_ (hpc hstage (by decide))
        intro heq
        simp [heq] at hstage'
      · exact parked_update_of_ne huc (by rw [hscheduled, Function.update_of_ne hu])
    · simp only [Kept, Function.update_self, hhand']
      exact nofun
    · have hu : w ≠ u := fun heq => hleft (by rw [hr, heq])
      rw [hhand, hhand']
      simp [hu]
  | wakeSelf again hlist hscheduled hhand _ hstage hpc' =>
    refine h.custody.congr (fun u => ?_) fun r u => kept_update (fun l _ => by rw [hlist]) fun _ => by rw [hhand, hpc']; rfl
    by_cases hu : u = c
    · subst hu
      rw [parked_update_self]
      refine iff_of_false ?_ (hpc hstage (by decide))
      simp [hpc', stage, hscheduled]
    · exact parked_update_of_ne hu (by rw [hscheduled, Function.update_of_ne hu])
  | resume again hlist hscheduled hsuspended hhand hstage hstage' =>
    refine h.custody.congr (fun u => ?_) fun r u =>
      kept_update (fun l _ => by rw [hlist]) fun _ => by rw [hhand, hsuspended]; rfl
    by_cases hu : u = c
    · subst hu
      rw [parked_update_self]
      refine iff_of_false ?_ (hpc (show _ = Stage.woken from ?_) (by decide))
      · intro heq
        simp [heq] at hstage'
      · simp [hsuspended, stage, hstage]
    · exact parked_update_of_ne hu (by rw [hscheduled, Function.update_of_ne hu])

theorem Good.nodup_step (h : Good x) (hact : Effect c x.mem (x.pc c) m' pc') (l : WaitList) : (m'.list l).Nodup := by
  cases hact with
  | push l' again hlist _ _ _ hstage _ =>
    rw [hlist]
    by_cases hl : l = l'
    · subst hl
      have hnot : c ∉ x.mem.list l :=
        h.custody.not_found (p := .list l) fun hparked => nomatch hstage.symm.trans hparked
      rw [Function.update_self]
      exact List.nodup_append.mpr ⟨h.nodup l, List.nodup_singleton c, by
        intro u hu v hv
        rw [List.mem_singleton.mp hv]
        exact fun heq => hnot (heq ▸ hu)⟩
    · rw [Function.update_of_ne hl]
      exact h.nodup l
  | pop l' w ws hold hlist =>
    rw [hlist]
    by_cases hl : l = l'
    · subst hl
      have hnodup := h.nodup l
      rw [hold] at hnodup
      rw [Function.update_self]
      exact (List.nodup_cons.mp hnodup).2
    · rw [Function.update_of_ne hl]
      exact h.nodup l
  | quiet hlist | wake _ hlist | wakeSelf _ hlist | resume _ hlist =>
    rw [hlist]
    exact h.nodup l

theorem Good.suspended_step (h : Good x) (hact : Effect c x.mem (x.pc c) m' pc') (d : Call)
    (hd : m'.scheduled d = true) : ∃ again, Function.update x.pc c pc' d = .suspended again := by
  by_cases hdc : d = c
  · subst hdc
    rw [Function.update_self]
    cases hact with
    | quiet _ hscheduled _ _ hstage =>
      have := h.not_scheduled (hstage.imp And.left And.left)
      simp [hscheduled, this] at hd
    | push l again _ _ _ _ _ hpc' => exact ⟨again, hpc'⟩
    | pop _ _ _ _ _ hscheduled _ _ _ hstage =>
      simp [hscheduled, h.not_scheduled (.inl hstage)] at hd
    | wake w _ hscheduled hhand _ _ hstage =>
      have hparked : Parked x w := h.parked_of_hand hhand
      have hw : d ≠ w := by
        rintro rfl
        cases hstage.symm.trans hparked
      simp [hscheduled, hw, h.not_scheduled (.inl hstage)] at hd
    | wakeSelf again _ _ _ _ _ hpc' => exact ⟨again, hpc'⟩
    | resume _ _ hscheduled => simp [hscheduled] at hd
  · rw [Function.update_of_ne hdc]
    cases hact with
    | wake w _ hscheduled hhand =>
      by_cases hw : d = w
      · subst hw
        have hparked : Parked x d := h.parked_of_hand hhand
        obtain ⟨again, hsuspended, _⟩ := stage_suspended hparked
        exact ⟨again, hsuspended⟩
      · rw [hscheduled, Function.update_of_ne hw] at hd
        exact h.suspended d hd
    | quiet _ hscheduled | push _ _ _ hscheduled | pop _ _ _ _ _ hscheduled =>
      rw [hscheduled] at hd
      exact h.suspended d hd
    | wakeSelf _ _ hscheduled | resume _ _ hscheduled =>
      rw [hscheduled, Function.update_of_ne hdc] at hd
      exact h.suspended d hd

theorem Good.step (h : Good x) (hact : Effect c x.mem (x.pc c) m' pc') : Good ⟨m', Function.update x.pc c pc'⟩ :=
  ⟨h.custody_step hact, h.nodup_step hact, h.suspended_step hact⟩

end Steps

/-! ### The primitives are lawful -/

section Lawful

variable [DecidableEq Call]

omit [DecidableEq Call] in
theorem good_init (G : Primitive) : Good (G.init : Conf Call _ _) := by
  refine ⟨⟨fun {c r _} hr => ?_, fun c => iff_of_false nofun ?_⟩, fun _ => List.nodup_nil, nofun⟩
  · cases r <;> cases hr
  · rintro ⟨r, hr⟩
    cases r <;> cases hr

/-- A call is made. -/
theorem Good.enter {x : Conf Call (Mem Call σ) (Pc Call σ)} (h : Good x) {c : Call}
    (hidle : x.pc c = .idle) (method : Method σ) : Good ⟨x.mem, Function.update x.pc c (.call method)⟩ := by
  refine ⟨h.custody.congr (fun u => ?_) fun r u => kept_update (fun _ _ => Iff.rfl) fun _ => ?_, h.nodup, fun d hd => ?_⟩
  · by_cases hu : u = c
    · subst hu
      rw [parked_update_self, Parked, hidle]
      exact iff_of_false nofun nofun
    · exact parked_update_of_ne hu rfl
  · rw [hidle]
    rfl
  · obtain ⟨again, hpc⟩ := h.suspended d hd
    have hdc : d ≠ c := by
      rintro rfl
      rw [hidle] at hpc
      cases hpc
    exact ⟨again, by simp only [Function.update_of_ne hdc, hpc]⟩

theorem leave_list (c : Call) (m : Mem Call σ) : (leave c m).list = m.list := by
  unfold leave
  split
  · split <;> rfl
  · rfl

theorem leave_scheduled (c : Call) (m : Mem Call σ) : (leave c m).scheduled = m.scheduled := by
  unfold leave
  split
  · split <;> rfl
  · rfl

theorem stage_leave (c d : Call) (m : Mem Call σ) (pc : Pc Call σ) : stage d (leave c m) pc = stage d m pc :=
  stage_congr (congrFun (leave_scheduled c m) d) pc

theorem Good.leave {x : Conf Call (Mem Call σ) (Pc Call σ)} (h : Good x) (c : Call) : Good ⟨leave c x.mem, x.pc⟩ := by
  refine ⟨h.custody.congr (fun u => ?_) fun r u => ?_, fun l => ?_, fun d hd => ?_⟩
  · exact Eq.congr_left (stage_leave c u x.mem (x.pc u))
  · cases r with
    | list l => simp only [Kept, leave_list]
    | hand d => rfl
  · rw [leave_list]
    exact h.nodup l
  · rw [leave_scheduled] at hd
    exact h.suspended d hd

theorem good_of_reachable (G : Primitive) {x : Conf Call (Mem Call G.Fields) (Pc Call G.Fields)}
    (h : (G.component : Component Call).system.Reachable x) : Good x := by
  apply h.invariant
  · rintro _ rfl
    exact good_init G
  · intro x x' _ hx hstep
    cases hstep with
    | enter henter =>
      obtain ⟨rfl, hidle, name, rfl⟩ := henter
      exact hx.enter hidle _
    | step hact => exact hx.step (Act.effect hact)
    | leave c => exact hx.leave c

omit [DecidableEq Call] in
/-- There is one position of a list, or one call, that has the handle. -/
theorem Good.existsUnique_spot {x : Conf Call (Mem Call σ) (Pc Call σ)} (h : Good x) {c : Call} (hc : Parked x c) :
    ∃! spot, Holds x.mem x.pc c spot := by
  obtain ⟨r, hr, hunique⟩ := h.custody.existsUnique hc
  have hkeeper (spot : Spot Call) (hspot : Holds x.mem x.pc c spot) :
      (∃ l i, spot = .list l i ∧ r = .list l) ∨ ∃ d, spot = .hand d ∧ r = .hand d := by
    cases spot with
    | list l i => exact .inl ⟨l, i, rfl, (hunique (.list l) (List.mem_of_getElem? hspot)).symm⟩
    | hand d => exact .inr ⟨d, rfl, (hunique (.hand d) hspot).symm⟩
  cases r with
  | list l =>
    obtain ⟨i, hi⟩ := List.mem_iff_getElem?.mp hr
    refine ⟨.list l i, hi, fun spot hspot => ?_⟩
    rcases hkeeper spot hspot with ⟨l', j, rfl, hl⟩ | ⟨d, rfl, hd⟩
    · cases hl
      obtain ⟨hlt, _⟩ := List.getElem?_eq_some_iff.mp hi
      rw [(List.getElem?_inj hlt (h.nodup l)).mp (hi.trans hspot.symm)]
    · cases hd
  | hand d =>
    refine ⟨.hand d, hr, fun spot hspot => ?_⟩
    rcases hkeeper spot hspot with ⟨l', j, rfl, hl⟩ | ⟨d, rfl, hd⟩
    · cases hl
    · cases hd
      rfl

omit [DecidableEq Call] in
theorem Good.parked_of_holds {x : Conf Call (Mem Call σ) (Pc Call σ)} (h : Good x) {c : Call} {spot : Spot Call}
    (hspot : Holds x.mem x.pc c spot) : Parked x c := by
  cases spot with
  | list l i => exact h.custody.held_of_found (show Kept x (.list l) c from List.mem_of_getElem? hspot)
  | hand d => exact h.parked_of_hand hspot

/-- The primitives with wait lists are lawful. -/
theorem lawful (G : Primitive) : (G.component : Component Call).Lawful where
  init c := rfl
  enter x hx c m' pc' henter := by
    obtain ⟨rfl, hidle, name, rfl⟩ := henter
    refine ⟨?_, rfl, fun _ _ => rfl⟩
    show stage c x.mem (x.pc c) = .out
    rw [hidle]
    rfl
  code x hx c m' pc' hact hruns := by
    have hgood := good_of_reachable G hx
    have hnot (hstage : stage c x.mem (x.pc c) = .awaiter) : False := by
      have : (stage c x.mem (x.pc c)).Runs := hruns
      rwa [hstage] at this
    cases Act.effect hact with
    | quiet _ _ _ hwakes hstage =>
      rcases hstage with ⟨_, hstage'⟩ | ⟨hstage, _⟩
      · refine .inl ⟨hwakes, ?_⟩
        show stage c m' pc' ∈ _
        simp only [List.mem_cons, List.not_mem_nil, or_false] at hstage' ⊢
        tauto
      · exact (hnot hstage).elim
    | push _ _ _ _ _ _ hstage => exact (hnot hstage).elim
    | pop _ _ _ _ _ _ _ _ hwakes _ hstage' =>
      refine .inl ⟨hwakes, ?_⟩
      rw [show (G.component : Component Call).stage c m' pc' = .code from hstage']
      simp
    | wake w _ hscheduled hhand _ hwakes hstage hstage' =>
      have hparked := hgood.parked_of_hand hhand
      obtain ⟨again, hsuspended, _⟩ := stage_suspended hparked
      refine .inr ⟨w, ?_, hwakes, hparked, ?_, hstage'⟩
      · rintro rfl
        cases hstage.symm.trans hparked
      · show stage w m' (x.pc w) = .woken
        simp [hsuspended, stage, hscheduled]
    | wakeSelf _ _ _ _ _ hstage => exact (hnot hstage).elim
    | resume again _ _ hpc _ _ hstage' =>
      refine .inl ⟨?_, ?_⟩
      · show wakes c x.mem (x.pc c) = none
        rw [hpc]
        rfl
      · show stage c m' pc' ∈ _
        simp only [List.mem_cons, List.not_mem_nil, or_false] at hstage' ⊢
        tauto
  awaiter x hx c m' pc' hact hawaiter := by
    have hgood := good_of_reachable G hx
    have hawaiter : stage c x.mem (x.pc c) = .awaiter := hawaiter
    cases Act.effect hact with
    | quiet _ _ _ hwakes hstage =>
      rcases hstage with ⟨hstage, _⟩ | ⟨_, hstage'⟩
      · cases hstage.symm.trans hawaiter
      · refine .inl ⟨hwakes, ?_⟩
        rw [show (G.component : Component Call).stage c m' pc' = .awaiter from hstage']
        simp
    | push _ again _ hscheduled _ hwakes _ hpc' =>
      refine .inl ⟨hwakes, ?_⟩
      show stage c m' pc' ∈ _
      rw [hpc']
      simp [stage, hscheduled, hgood.not_scheduled (.inr hawaiter)]
    | pop _ _ _ _ _ _ _ _ _ hstage => cases hstage.symm.trans hawaiter
    | wake _ _ _ _ _ _ hstage => cases hstage.symm.trans hawaiter
    | wakeSelf again _ hscheduled _ hwakes _ hpc' =>
      refine .inr ⟨hwakes, ?_⟩
      show stage c m' pc' = .woken
      rw [hpc']
      simp [stage, hscheduled]
    | resume again _ _ hpc _ hscheduled =>
      rw [hpc] at hawaiter
      simp [stage, hscheduled] at hawaiter
  others x hx c m' pc' hact d hd hwakes := by
    refine stage_congr ?_ (x.pc d)
    cases Act.effect hact with
    | quiet _ hscheduled | push _ _ _ hscheduled | pop _ _ _ _ _ hscheduled => rw [hscheduled]
    | wake w _ hscheduled _ _ hwakes' =>
      have hw : d ≠ w := fun heq => hwakes (heq ▸ hwakes')
      rw [hscheduled, Function.update_of_ne hw]
    | wakeSelf _ _ hscheduled | resume _ _ hscheduled => rw [hscheduled, Function.update_of_ne hd]
  leave c d m pc := stage_leave c d m pc
  parked x hx c hc := (good_of_reachable G hx).existsUnique_spot hc
  held x hx c spot hspot := (good_of_reachable G hx).parked_of_holds hspot

end Lawful

/-! ### The lock -/

/-- The call, or its awaiter, is between `lock_.lock()` and `lock_.unlock()`, and has not handed its handle over. -/
def Pc.Locked : Pc Call σ → Prop
  | .held _ => True
  | .pop _ => True
  | .schedule _ (.pop _) => True
  | .schedule _ .unlock => True
  | .schedule _ .ret => False
  | .last _ => True
  | .unlock => True
  | .awaitHeld _ => True
  | .awaitPush _ => True
  | .idle => False
  | .call _ => False
  | .returned => False
  | .await _ => False
  | .awaitPass => False
  | .suspended _ => False

section Lock

variable [DecidableEq Call] {c : Call} {m m' : Mem Call σ} {pc pc' : Pc Call σ}

/-- A call enters a locked section by taking the lock, and then keeps it. -/
theorem Act.lock_of_locked (h : Act c m pc m' pc') (hlock : pc.Locked → m.lock = some (.held c)) (hpc' : pc'.Locked) :
    m'.lock = some (.held c) := by
  cases h with
  | lock | awaitLock => rfl
  | blocked | update | popNobody | popNone | popFirst | popLastNone | popLast | popMore => exact hlock trivial
  | @schedule w rest =>
    cases rest with
    | pop | unlock => exact hlock trivial
    | ret => exact hpc'.elim
  | @lastUnlock w => cases w <;> exact hpc'.elim
  | @resume again => cases again <;> exact hpc'.elim
  | awaitPush | unlock | suspend | awaitWait | awaitLate | awaitEarly | awaitPass => exact hpc'.elim

/-- The lock is taken when it is free, and only the call that has it does anything to it or to the lists. -/
theorem Act.lock_or_locked (h : Act c m pc m' pc') :
    (m'.lock = m.lock ∧ m'.list = m.list) ∨ (m.lock = none ∧ m'.list = m.list) ∨ pc.Locked := by
  cases h with
  | lock hlock | awaitLock hlock => exact .inr (.inl ⟨hlock, rfl⟩)
  | schedule | suspend | awaitPass | resume => exact .inl ⟨rfl, rfl⟩
  | awaitPush | blocked | update | popNobody | popNone | popFirst | popLastNone | popLast | popMore | lastUnlock
  | unlock | awaitWait | awaitLate | awaitEarly => exact .inr (.inr trivial)

theorem leave_lock (hlock : m.lock = some (.held c)) (d : Call) : (leave d m).lock = some (.held c) := by
  unfold leave
  rw [hlock]
  exact hlock

/-- A call in a locked section has the lock. -/
def Locks (x : Conf Call (Mem Call σ) (Pc Call σ)) : Prop := ∀ c, (x.pc c).Locked → x.mem.lock = some (.held c)

theorem Locks.enter {x : Conf Call (Mem Call σ) (Pc Call σ)} (h : Locks x) (c : Call) (method : Method σ) :
    Locks ⟨x.mem, Function.update x.pc c (.call method)⟩ := by
  intro d hlocked
  by_cases hd : d = c
  · subst hd
    simp only [Function.update_self] at hlocked
    exact hlocked.elim
  · simp only [Function.update_of_ne hd] at hlocked
    exact h d hlocked

theorem Locks.step {x : Conf Call (Mem Call σ) (Pc Call σ)} (h : Locks x) (hact : Act c x.mem (x.pc c) m' pc') :
    Locks ⟨m', Function.update x.pc c pc'⟩ := by
  intro d hlocked
  by_cases hd : d = c
  · subst hd
    simp only [Function.update_self] at hlocked
    exact hact.lock_of_locked (h d) hlocked
  · simp only [Function.update_of_ne hd] at hlocked
    rcases hact.lock_or_locked with ⟨hsame, _⟩ | ⟨hnone, _⟩ | hlocked'
    · exact hsame.trans (h d hlocked)
    · cases hnone.symm.trans (h d hlocked)
    · cases (h d hlocked).symm.trans (h c hlocked')
      exact absurd rfl hd

theorem locks_of_reachable (G : Primitive) {x : Conf Call (Mem Call G.Fields) (Pc Call G.Fields)}
    (h : (G.component : Component Call).system.Reachable x) : Locks x := by
  apply h.invariant
  · rintro _ rfl c hlocked
    exact hlocked.elim
  · intro x x' _ ih hstep
    cases hstep with
    | @enter c _ _ henter =>
      obtain ⟨rfl, _, name, rfl⟩ := henter
      exact Locks.enter ih c _
    | step hact => exact Locks.step ih hact
    | leave c => exact fun d hlocked => leave_lock (ih d hlocked) c

/-- No two calls change a list at the same time. -/
theorem locked_unique (G : Primitive) {x : Conf Call (Mem Call G.Fields) (Pc Call G.Fields)}
    (h : (G.component : Component Call).system.Reachable x) {c d : Call} {m' : Mem Call G.Fields}
    {pc' : Pc Call G.Fields} (hact : Act c x.mem (x.pc c) m' pc') (hlist : m'.list ≠ x.mem.list)
    (hlocked : (x.pc d).Locked) : d = c := by
  rcases Act.lock_or_locked hact with ⟨_, hsame⟩ | ⟨_, hsame⟩ | hlocked'
  · exact absurd hsame hlist
  · exact absurd hsame hlist
  · cases (locks_of_reachable G h d hlocked).symm.trans (locks_of_reachable G h c hlocked')
    rfl

end Lock

end CppConcur.Fiber.Guarded
