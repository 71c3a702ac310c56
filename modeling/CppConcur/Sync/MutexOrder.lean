import CppConcur.Logic.Roster
import CppConcur.Sync.Mutex

/-!
# Mutual exclusion and the order of the owners

The history of each mutex is one of a fair lock, whose owner is the participant that has acquired the
mutex, or was handed it, and has not given it back. Such a participant may still be suspended: it is
then the one in the schedulers.
-/

namespace CppConcur.Sync

open Logic Logic.Handoff

variable {P : Type}

/-- The participant is suspended in `Lock`. -/
def Pc.Suspended : Pc → Prop
  | .suspended _ => True
  | _ => False

/-- The participant has acquired the mutex, or was handed it, and has not given it back. -/
def Pc.Owns (queued : List P) (p : P) : Pc → Prop
  | .code owns => owns = true
  | .lock owns _ => owns = true
  | .acquired => True
  | .suspended owns => owns = true ∨ p ∈ queued
  | .tryLock owns _ => owns = true
  | .tried owns => owns = true
  | .critical => True
  | .unlock _ => True
  | .unlocked => False

/-- The participant owns the mutex. -/
def Owns (c : Conf P (Mem P) Pc) (p : P) : Prop := (c.pc p).Owns c.mem.queued p

/-- The history is one of a fair lock with the given owner, and the suspended participants are those in
`waiters_` and those in the schedulers, each once. -/
structure Inv (c : Conf P (Mem P) Pc) (o : Option P) : Prop where
  legal : Legal c.mem.log o c.mem.waiters
  locked : c.mem.locked = o.isSome
  owns : ∀ p, Owns c p ↔ o = some p
  suspended : Roster (c.mem.waiters ++ c.mem.queued) fun p => (c.pc p).Suspended

theorem Pc.owns_congr {x : Pc} {p : P} {queued queued' : List P} (h : p ∈ queued' ↔ p ∈ queued) :
    x.Owns queued' p ↔ x.Owns queued p := by
  cases x with
  | suspended => exact or_congr_right h
  | code | lock | acquired | tryLock | tried | critical | unlock | unlocked => exact Iff.rfl

theorem Pc.Suspended.owns {x : Pc} {p : P} {queued : List P} (h : x.Suspended) (hmem : p ∈ queued) :
    x.Owns queued p := by
  cases x with
  | suspended => exact .inr hmem
  | code | lock | acquired | tryLock | tried | critical | unlock | unlocked => exact h.elim

theorem owns_entered (flavor : Flavor) (queued : List P) (p : P) : (entered flavor).Owns queued p := by
  cases flavor <;> trivial

theorem not_suspended_entered (flavor : Flavor) : ¬ (entered flavor).Suspended := by
  cases flavor <;> exact id

namespace Inv

variable {c : Conf P (Mem P) Pc} {o o' : Option P} {m' : Mem P} {p : P} {x : Pc}

theorem owner_eq (h : Inv c o) (hp : Owns c p) : o = some p := (h.owns p).mp hp

theorem not_mem (h : Inv c o) (hp : ¬ (c.pc p).Suspended) : p ∉ c.mem.waiters ∧ p ∉ c.mem.queued := by
  have hnot : p ∉ c.mem.waiters ++ c.mem.queued := fun hmem => hp ((h.suspended.mem_iff p).mp hmem)
  rw [List.mem_append, not_or] at hnot
  exact hnot

/-- One that is not the owner before or after a step that leaves it alone. -/
theorem owns_other (h : Inv c o) {q : P} {queued : List P} (hmem : q ∈ queued ↔ q ∈ c.mem.queued)
    (hold : o ≠ some q) (hnew : o' ≠ some q) : (c.pc q).Owns queued q ↔ o' = some q :=
  iff_of_false (fun howns => hold (h.owner_eq ((Pc.owns_congr hmem).mp howns))) hnew

theorem owner_none (h : Inv c o) (hlocked : c.mem.locked = false) : o = none := by
  rw [h.locked] at hlocked
  exact Option.isNone_iff_eq_none.mp (Option.isSome_eq_false_iff.mp hlocked)

theorem spin (h : Inv c o) (s : Spin P) : Inv ⟨{ c.mem with spin := s }, c.pc⟩ o :=
  ⟨h.legal, h.locked, h.owns, h.suspended⟩

variable [DecidableEq P]

/-- The owner after a step of `p`, as `p` sees it and as the others do. -/
theorem owns_update {queued : List P} (hself : x.Owns queued p ↔ o' = some p)
    (hother : ∀ q, q ≠ p → ((c.pc q).Owns queued q ↔ o' = some q)) (q : P) :
    (Function.update c.pc p x q).Owns queued q ↔ o' = some q := by
  rcases eq_or_ne q p with rfl | hne
  · rw [Function.update_self]
    exact hself
  · rw [Function.update_of_ne hne]
    exact hother q hne

/-- A participant moves on and the mutex stays as it is. -/
theorem move (h : Inv c o) (howns : x.Owns c.mem.queued p ↔ (c.pc p).Owns c.mem.queued p)
    (hsuspended : x.Suspended ↔ (c.pc p).Suspended) : Inv ⟨c.mem, Function.update c.pc p x⟩ o where
  legal := h.legal
  locked := h.locked
  owns := owns_update (howns.trans (h.owns p)) fun q _ => h.owns q
  suspended := h.suspended.keep hsuspended

/-- A participant takes the mutex and goes on. -/
theorem acquire (h : Inv c o) (hlocked : c.mem.locked = false) (hpc : ¬ (c.pc p).Suspended)
    (hx : x.Owns c.mem.queued p) (hsuspended : ¬ x.Suspended) :
    Inv ⟨c.mem.acquire p, Function.update c.pc p x⟩ (some p) := by
  obtain rfl := h.owner_none hlocked
  refine ⟨h.legal.acquire p, rfl, ?_, h.suspended.keep (iff_of_false hsuspended hpc)⟩
  refine owns_update (iff_of_true hx rfl) ?_
  intro q hne
  exact h.owns_other Iff.rfl nofun fun heq => hne (Option.some.inj heq).symm

/-- A fiber takes the mutex and is scheduled. -/
theorem acquire_schedule {owns : Bool} (h : Inv c o) (hlocked : c.mem.locked = false)
    (hpc : ¬ (c.pc p).Suspended) :
    Inv ⟨(c.mem.acquire p).schedule p, Function.update c.pc p (.suspended owns)⟩ (some p) := by
  obtain rfl := h.owner_none hlocked
  refine ⟨(h.legal.acquire p).schedule (.inl rfl), rfl, ?_, ?_⟩
  · refine owns_update (iff_of_true (.inr List.mem_concat_self) rfl) ?_
    intro q hne
    refine h.owns_other ?_ nofun fun heq => hne (Option.some.inj heq).symm
    exact List.mem_append.trans (or_iff_left (List.mem_singleton.not.mpr hne))
  · show Roster (c.mem.waiters ++ (c.mem.queued ++ [p])) _
    rw [← List.append_assoc]
    have hin : (Pc.suspended owns).Suspended := trivial
    exact h.suspended.enter hpc hin

/-- A participant comes to wait. -/
theorem push {owns : Bool} (h : Inv c o) (hlocked : c.mem.locked = true) (hpc : ¬ (c.pc p).Suspended)
    (howns : owns = true ↔ Owns c p) :
    Inv ⟨c.mem.push p, Function.update c.pc p (.suspended owns)⟩ o := by
  obtain ⟨r, rfl⟩ : ∃ r, o = some r := Option.isSome_iff_exists.mp (h.locked ▸ hlocked)
  refine ⟨h.legal.snoc (.push p), h.locked, ?_, ?_⟩
  · refine owns_update ?_ fun q _ => h.owns q
    exact (or_iff_left (h.not_mem hpc).2).trans (howns.trans (h.owns p))
  · have hin : (Pc.suspended owns).Suspended := trivial
    exact h.suspended.wait hpc hin

/-- The owner gives the mutex back. -/
theorem unlock (h : Inv c o) (hpc : c.pc p = .unlock .held) :
    ∃ o', Inv ⟨c.mem.unlock, Function.update c.pc p .unlocked⟩ o' := by
  have hp : Owns c p := by
    rw [Owns, hpc]
    trivial
  have hsuspended : ¬ (c.pc p).Suspended := by
    rw [hpc]
    exact id
  obtain rfl := h.owner_eq hp
  have hroster := h.suspended.keep (x := Pc.unlocked) (iff_of_false id hsuspended)
  have hlegal := h.legal
  unfold Mem.unlock
  split
  case h_1 hnil =>
    rw [hnil] at hlegal
    refine ⟨none, hnil ▸ hlegal.snoc .release, rfl, ?_, hroster⟩
    refine owns_update (iff_of_false id nofun) ?_
    intro q hne
    exact h.owns_other Iff.rfl (fun heq => hne (Option.some.inj heq).symm) nofun
  case h_2 w ws hcons =>
    rw [hcons] at hlegal hroster
    have hw : w ≠ p := by
      intro heq
      apply (h.not_mem hsuspended).1
      rw [hcons, heq]
      exact List.mem_cons_self
    refine ⟨some w, (hlegal.snoc .handOver).schedule (.inr rfl), rfl, ?_, hroster.wake⟩
    refine owns_update (iff_of_false id fun heq => hw (Option.some.inj heq)) ?_
    intro q hne
    rcases eq_or_ne q w with rfl | hqw
    · have hwait : (c.pc q).Suspended := (h.suspended.mem_iff q).mp (by rw [hcons]; exact List.mem_cons_self)
      exact iff_of_true (hwait.owns List.mem_concat_self) rfl
    · refine h.owns_other ?_ (fun heq => hne (Option.some.inj heq).symm)
        fun heq => hqw (Option.some.inj heq).symm
      exact List.mem_append.trans (or_iff_left (List.mem_singleton.not.mpr hqw))

/-- A participant that was scheduled goes on. -/
theorem resume (h : Inv c o) (hpc : (c.pc p).Suspended) (hmem : p ∈ c.mem.queued)
    (hx : x.Owns (c.mem.queued.erase p) p) (hsuspended : ¬ x.Suspended) :
    Inv ⟨{ c.mem with queued := c.mem.queued.erase p }, Function.update c.pc p x⟩ o := by
  obtain rfl := h.owner_eq (hpc.owns hmem)
  refine ⟨h.legal, h.locked, ?_, h.suspended.leave hmem hsuspended⟩
  refine owns_update (iff_of_true hx rfl) ?_
  intro q hne
  have hother : some p ≠ some q := fun heq => hne (Option.some.inj heq).symm
  exact h.owns_other (List.mem_erase_of_ne hne) hother hother

end Inv

/-! ### Steps -/

section Steps

variable [DecidableEq P] {flavor : Flavor} {c : Conf P (Mem P) Pc} {p : P}

theorem Act.inv {m' : Mem P} {x : Pc} {o : Option P} (hact : Act flavor p c.mem (c.pc p) m' x)
    (h : Inv c o) : ∃ o', Inv ⟨m', Function.update c.pc p x⟩ o' := by
  generalize hpc : c.pc p = y at hact
  cases hact with
  | callLock | callTryLock | criticalEnd =>
    exact ⟨o, h.move (by rw [hpc]; exact Iff.rfl) (by rw [hpc]; exact Iff.rfl)⟩
  | callUnlock =>
    exact ⟨o, h.move (by rw [hpc]; exact iff_of_true trivial rfl) (by rw [hpc]; exact Iff.rfl)⟩
  | lockSpin | tryLockSpin | unlockSpin | tryLockReturn =>
    exact ⟨o, (h.move (by rw [hpc]; exact Iff.rfl) (by rw [hpc]; exact Iff.rfl)).spin _⟩
  | lockFiber hflavor =>
    have hnot : ¬ (c.pc p).Suspended := by rw [hpc]; exact id
    cases hlocked : c.mem.locked with
    | false =>
      rw [Mem.awaitLock, hlocked]
      exact ⟨some p, (h.acquire_schedule hlocked hnot).spin _⟩
    | true =>
      rw [Mem.awaitLock, hlocked]
      exact ⟨o, (h.push hlocked hnot (by rw [Owns, hpc]; exact Iff.rfl)).spin _⟩
  | lockTrue hflavor hlock =>
    cases hlocked : c.mem.locked with
    | false =>
      rw [Mem.lock, hlocked] at hlock
      cases hlock
      exact ⟨some p, h.acquire hlocked (by rw [hpc]; exact id) trivial id⟩
    | true =>
      rw [Mem.lock, hlocked] at hlock
      cases hlock
  | lockFalse hflavor hlock =>
    cases hlocked : c.mem.locked with
    | false =>
      rw [Mem.lock, hlocked] at hlock
      cases hlock
    | true =>
      rw [Mem.lock, hlocked] at hlock
      cases hlock
      exact ⟨o, (h.push hlocked (by rw [hpc]; exact id) (by rw [Owns, hpc]; exact Iff.rfl)).spin _⟩
  | tryLock htry =>
    cases hlocked : c.mem.locked with
    | false =>
      rw [Mem.tryLock, hlocked] at htry
      cases htry
      exact ⟨some p, h.acquire hlocked (by rw [hpc]; exact id) rfl id⟩
    | true =>
      rw [Mem.tryLock, hlocked] at htry
      cases htry
      exact ⟨o, h.move (by rw [hpc]; exact Iff.rfl) (by rw [hpc]; exact Iff.rfl)⟩
  | unlock => exact h.unlock hpc
  | awaiterReturn hspin => exact ⟨o, (h.move (by rw [hpc]) (by rw [hpc])).spin _⟩
  | lockReturn =>
    refine ⟨o, (h.move ?_ ?_).spin _⟩
    · rw [hpc]
      exact iff_of_true (owns_entered flavor _ p) trivial
    · rw [hpc]
      exact iff_of_false (not_suspended_entered flavor) id
  | unlockReturn =>
    exact ⟨o, (h.move (by rw [hpc]; exact iff_of_false nofun id) (by rw [hpc]; exact Iff.rfl)).spin _⟩
  | resume hmem =>
    exact ⟨o, h.resume (by rw [hpc]; trivial) hmem (owns_entered flavor _ p) (not_suspended_entered flavor)⟩

theorem inv_of_reachable (h : (system P flavor).Reachable c) : ∃ o, Inv c o := by
  apply h.invariant
  · intro c hinit
    obtain rfl : c = initial := hinit
    refine ⟨none, .nil, rfl, fun p => iff_of_false nofun nofun, .nil fun p => id⟩
  · intro c c' _ hinv hstep
    obtain ⟨o, hinv⟩ := hinv
    obtain ⟨p, m', x, hact, rfl⟩ := hstep
    exact Act.inv hact hinv

theorem Act.reachable {m' : Mem P} {x : Pc} (hact : Act flavor p c.mem (c.pc p) m' x)
    (h : (system P flavor).Reachable c) :
    (system P flavor).Reachable ⟨m', Function.update c.pc p x⟩ :=
  .step h ⟨p, m', x, hact, rfl⟩

/-- Each of the mutexes has at most one owner, and `locked_` says whether there is one. It goes to the
waiters in the order of `waiters_`, nobody gets it while others wait, and a participant is scheduled
only when it has just become the owner, and once. -/
theorem fifo_handoff (h : (system P flavor).Reachable c) :
    (∀ p q, Owns c p → Owns c q → p = q) ∧ (c.mem.locked = true ↔ ∃ p, Owns c p) ∧
      (c.mem.waiters ≠ [] → c.mem.locked = true) ∧ (∀ p, Owns c p ↔ owner c.mem.log = some p) ∧
      pushed c.mem.log = handedOver c.mem.log ++ c.mem.waiters ∧
      (∀ l p l', c.mem.log = l ++ .acquire p :: l' → pushed l = handedOver l) ∧
      (∀ l p l', c.mem.log = l ++ .schedule p :: l' →
        l.getLast? = some (.acquire p) ∨ l.getLast? = some (.handOver p)) ∧
      c.mem.queued.Nodup ∧ ∀ p ∈ c.mem.queued, Owns c p := by
  obtain ⟨o, hinv⟩ := inv_of_reachable h
  refine ⟨?_, ?_, ?_, ?_, hinv.legal.pushed_eq, ?_, ?_, ?_, ?_⟩
  · intro p q hp hq
    exact Option.some.inj ((hinv.owner_eq hp).symm.trans (hinv.owner_eq hq))
  · rw [hinv.locked, Option.isSome_iff_exists]
    exact exists_congr fun p => (hinv.owns p).symm
  · intro hne
    by_contra hlocked
    have hlegal := hinv.legal
    rw [hinv.owner_none (Bool.eq_false_iff.mpr hlocked)] at hlegal
    exact hne hlegal.waiting_eq_nil
  · intro p
    rw [hinv.legal.owner_eq]
    exact hinv.owns p
  · intro l p l' hlog
    exact hinv.legal.pushed_of_acquire hlog
  · intro l p l' hlog
    exact hinv.legal.last_of_schedule hlog
  · exact hinv.suspended.nodup.of_append_right
  · intro p hmem
    exact ((hinv.suspended.mem_iff p).mp (List.mem_append_right _ hmem)).owns hmem

/-- Fiber `true` runs with the mutex while its awaiter still holds the spinlock; then fiber `false` comes
to wait, and is the owner before it runs again. -/
theorem fifo_handoff_fibers :
    ∃ c : Conf Bool (Mem Bool) Pc, (system Bool .fiber).Reachable c ∧
      c.mem.log = [.acquire true, .schedule true, .push false, .handOver false, .schedule false] ∧
        c.mem.queued = [false] ∧ Owns c false := by
  have h₀ : (system Bool .fiber).Reachable initial := .init rfl
  have h₁ := (Act.callLock (p := true)).reachable h₀
  have h₂ := (Act.lockSpin (p := true) rfl).reachable h₁
  have h₃ := (Act.lockFiber (p := true) rfl).reachable h₂
  have h₄ := (Act.resume (p := true) (List.mem_singleton.mpr rfl)).reachable h₃
  have h₅ := (Act.callLock (p := false)).reachable h₄
  have h₆ := (Act.callUnlock (p := true) (by decide)).reachable h₅
  have h₇ := (Act.awaiterReturn (p := true) rfl).reachable h₆
  have h₈ := (Act.lockSpin (p := false) rfl).reachable h₇
  have h₉ := (Act.lockFiber (p := false) rfl).reachable h₈
  have h₁₀ := (Act.awaiterReturn (p := false) rfl).reachable h₉
  have h₁₁ := (Act.unlockSpin (p := true) rfl).reachable h₁₀
  have h₁₂ := (Act.unlock (p := true)).reachable h₁₁
  have hqueued := (fifo_handoff h₁₂).2.2.2.2.2.2.2.2
  exact ⟨_, h₁₂, rfl, rfl, hqueued false (List.mem_singleton.mpr rfl)⟩

end Steps

end CppConcur.Sync
