import CppConcur.LockFree.QueueSteps

/-!
# The lock-free queue is a linearizable FIFO queue

The steps of one thread are put together here, one case for each step of the source, and the
invariant follows for every interleaving. The linearization points are the compare-exchange that
links a node, the one that moves `head_`, and for a `TryPop` that returns nothing its load of the
successor of the head.
-/

namespace CppConcur.LockFree.Queue

variable {T Tid : Type*} {t : Tid} {m : Mem T} {x : Aux Tid}

/-! ### The steps that only read -/

theorem pushCheckTail_keeps (hgood : Good m x) (value : T) (a : Addr) (oldTail oldTailNext : Loaded Addr)
    (choice : Choice T) (hpc : Assertion t m x (.pushCheckTail value a oldTail oldTailNext))
    (hfresh : m.tail.Fresh oldTail) : Keeps t m x (step m choice (.pushCheckTail value a oldTail oldTailNext)) := by
  obtain ⟨hready, hseen, b, hb, tick, hseenNext, hnext⟩ := hpc
  simp only [step]
  split
  · exact keeps_of_read hgood hready
  · rename_i hsame
    have heq := hseen.updates_eq hgood.tail_stamp hfresh (by rw [not_not.mp hsame])
    have hchain := hseen.chain_eq heq hgood.tail_value hb
    obtain ⟨hkeep, hsome⟩ := hnext heq
    split
    · rename_i hnull
      refine keeps_of_read hgood ⟨hready, hseen, b, hb, tick, hseenNext, fun htick => ?_⟩
      -- the node at `tail_` has no successor, so it is the last one
      have hlast : x.tailPos = m.pushed.length := by
        by_contra hne
        have hptr := hgood.next_ptr x.tailPos hgood.head_le_tail (lt_of_le_of_ne hgood.tail_le hne)
        rw [hchain, hkeep htick, hnull] at hptr
        exact absurd hptr (by simp)
      rw [← hchain, ← hlast]
      exact hgood.place_of_le hgood.head_le_tail hgood.tail_le
    · rename_i hnotNull
      obtain ⟨c, hc⟩ := Option.ne_none_iff_exists'.mp hnotNull
      exact keeps_of_read hgood ⟨hready, hseen, c, hc, b, hb, fun _ => hsome c hc⟩

theorem popLoadNext_keeps (hgood : Good m x) (headOld : Loaded Addr) (choice : Choice T)
    (hpc : Assertion t m x (.popLoadNext headOld)) : Keeps t m x (step m choice (.popLoadNext headOld)) := by
  obtain ⟨hseen, a, ha⟩ := hpc
  simp only [step, ha]
  refine keeps_of_read hgood ⟨hseen, ⟨a, ha⟩, fun heq hnull => ?_, fun b hb => ⟨a, ha, fun _ => hb⟩⟩
  -- the head has no successor at this instant, so every linked value has been claimed
  have hchain := hseen.chain_eq heq hgood.head_value ha
  have hpopped := hgood.popped_le
  simp only [Mem.isEmpty, decide_eq_true_eq]
  by_contra hne
  have hptr := hgood.next_ptr m.popped.length le_rfl (by omega)
  rw [hchain] at hptr
  exact absurd (hnull.symm.trans hptr) (by simp)

theorem popLoadTail_keeps (hgood : Good m x) (headOld headNext : Loaded Addr) (sawEmpty : Bool) (choice : Choice T)
    (hpc : Assertion t m x (.popLoadTail headOld headNext sawEmpty)) :
    Keeps t m x (step m choice (.popLoadTail headOld headNext sawEmpty)) := by
  obtain ⟨hseen, ⟨a, ha⟩, hempty, hnext⟩ := hpc
  refine keeps_of_read hgood ⟨hseen, seen_load hgood.tail_stamp, ⟨a, ha⟩, hempty, hnext, fun heq hne => ?_⟩
  have hchain := hseen.chain_eq heq hgood.head_value ha
  refine lt_of_le_of_ne hgood.head_le_tail fun hpos => hne ?_
  simp only [AtomicStampedPtr.load, hgood.tail_value, ha, ← hpos, hchain]

theorem popCheckHead_keeps (hgood : Good m x) (headOld headNext tailOld : Loaded Addr) (sawEmpty : Bool)
    (choice : Choice T) (hpc : Assertion t m x (.popCheckHead headOld headNext tailOld sawEmpty))
    (hfresh : m.head.Fresh headOld) : Keeps t m x (step m choice (.popCheckHead headOld headNext tailOld sawEmpty)) := by
  obtain ⟨hseen, hseenTail, ⟨a, ha⟩, hempty, hnext, hbefore⟩ := hpc
  simp only [step]
  split
  · exact keeps_of_read hgood trivial
  · rename_i hsame
    have heq := hseen.updates_eq hgood.head_stamp hfresh (by rw [not_not.mp hsame])
    split
    · rename_i hnull
      split
      · exact keeps_of_read hgood trivial
      · exact keeps_of_read hgood (hempty heq hnull)
    · rename_i hnotNull
      obtain ⟨b, hb⟩ := Option.ne_none_iff_exists'.mp hnotNull
      split
      · rename_i hne
        exact keeps_of_read hgood ⟨hseen, ⟨b, hb, hnext b hb⟩, fun _ => hbefore heq hne⟩
      · rename_i hsamePtr
        refine keeps_of_read hgood ⟨hseenTail, b, hb, a, ?_, fun _ => ?_⟩
        · rw [← not_not.mp hsamePtr]
          exact ha
        · obtain ⟨a', ha', hab⟩ := hnext b hb
          rw [ha] at ha'
          rw [Option.some.inj ha']
          exact hab heq

/-! ### The two increments of a `TryPop` -/

theorem popDropHead_keeps (hgood : Good m x) (headOld headNext : Loaded Addr) (k : Nat) (choice : Choice T)
    (hpc : Assertion t m x (.popDropHead headOld headNext k)) :
    Keeps t m x (step m choice (.popDropHead headOld headNext k)) := by
  obtain ⟨hticket, hpassed, hptr⟩ := hpc
  have hlt := hticket.lt
  have hpopped := hgood.popped_le
  have hlive : x.Live k := fun hboth => by rw [hpassed] at hboth; exact absurd hboth.2 (by decide)
  have hplace := hgood.place_chain k (by omega) hlive
  have htry := hgood.tryDel_linked _ k hplace
  have hpassed' : ∀ j, Function.update x.passedDone k true j = true → j < m.popped.length := by
    intro j hj
    by_cases hjk : j = k
    · exact hjk ▸ hlt
    · exact hgood.passed_lt j ((Function.update_of_ne hjk ..).symm.trans hj)
  have htickets : ∀ u, u ≠ t → ∀ j, j < m.popped.length → x.popper j = some u →
      Function.update x.passedDone k true j = x.passedDone j ∧ x.valueDone (j + 1) = x.valueDone (j + 1) := by
    intro u hu j _ hpopper
    have hjk : j ≠ k := by
      rintro rfl
      exact hu (Option.some.inj (hpopper.symm.trans hticket.popper))
    exact ⟨Function.update_of_ne hjk .., rfl⟩
  simp only [step, hptr, Mem.lastTryDel, decide_eq_true_eq]
  split
  · rename_i hodd
    have hdone : x.valueDone k = true ∨ x.passedDone k = true := by
      by_contra hneither
      rw [if_neg hneither] at htry
      omega
    refine ⟨_, lastDrop_good (t := t) hgood (by omega) x.valueDone (Function.update x.passedDone k true) hlive hdone
      ⟨hdone.resolve_right (by rw [hpassed]; decide), Function.update_self ..⟩ (fun _ _ => rfl)
      (fun j hj => Function.update_of_ne hj ..) hpassed' hgood.taken_of_done, ?_, fun u hu => ?_⟩
    · exact ⟨Function.update_self .., ⟨hticket.popper, hlt, hticket.pending, hticket.not_done, hticket.not_taken,
        hticket.ptr⟩⟩
    · exact drop_evolves hgood (by omega) hlive _ _ _ (fun b hb => Function.update_of_ne hb ..) (.inl (by omega))
        (htickets u hu)
  · rename_i heven
    have hneither : ¬ (x.valueDone k = true ∨ x.passedDone k = true) := by
      intro hdone
      rw [if_pos hdone] at htry
      omega
    refine ⟨_, firstDrop_good hgood (by omega) x.valueDone (Function.update x.passedDone k true) hneither
      (.inr (Function.update_self ..)) (fun hboth => hneither (.inl hboth.1)) (fun _ _ => rfl)
      (fun j hj => Function.update_of_ne hj ..) hpassed' hgood.taken_of_done, ?_, fun u hu => ?_⟩
    · exact ⟨hticket.popper, hlt, hticket.pending, hticket.not_done, hticket.not_taken, hticket.ptr⟩
    · exact drop_evolves hgood (by omega) hlive _ _ _ (fun _ _ => rfl) (.inr rfl) (htickets u hu)

theorem popDropNext_keeps (hgood : Good m x) (headNext : Loaded Addr) (val : Option T) (k : Nat) (choice : Choice T)
    (hpc : Assertion t m x (.popDropNext headNext val k)) :
    Keeps t m x (step m choice (.popDropNext headNext val k)) := by
  obtain ⟨hclaimed, htaken, hdone, hptr⟩ := hpc
  have hlt := hclaimed.lt
  have hpopped := hgood.popped_le
  have hlive : x.Live (k + 1) := fun hboth => by rw [hdone] at hboth; exact absurd hboth.1 (by decide)
  have hplace := hgood.place_chain (k + 1) (by omega) hlive
  have htry := hgood.tryDel_linked _ (k + 1) hplace
  have htaken' : ∀ j, Function.update x.valueDone (k + 1) true j = true → x.valueTaken j = true := by
    intro j hj
    by_cases hjk : j = k + 1
    · exact hjk ▸ htaken
    · exact hgood.taken_of_done j ((Function.update_of_ne hjk ..).symm.trans hj)
  have htickets : ∀ u, u ≠ t → ∀ j, j < m.popped.length → x.popper j = some u →
      x.passedDone j = x.passedDone j ∧ Function.update x.valueDone (k + 1) true (j + 1) = x.valueDone (j + 1) := by
    intro u hu j _ hpopper
    have hjk : j + 1 ≠ k + 1 := by
      intro heq
      have : j = k := by omega
      subst this
      exact hu (Option.some.inj (hpopper.symm.trans hclaimed.popper))
    exact ⟨rfl, Function.update_of_ne hjk ..⟩
  simp only [step, hptr, Mem.lastTryDel, decide_eq_true_eq]
  split
  · rename_i hodd
    have hpassed : x.valueDone (k + 1) = true ∨ x.passedDone (k + 1) = true := by
      by_contra hneither
      rw [if_neg hneither] at htry
      omega
    have hpassed' := hpassed.resolve_left (by rw [hdone]; decide)
    have hbelow := hgood.passed_lt _ hpassed'
    refine ⟨_, lastDrop_good (t := t) hgood (by omega) (Function.update x.valueDone (k + 1) true) x.passedDone hlive hpassed
      ⟨Function.update_self .., hpassed'⟩ (fun j hj => Function.update_of_ne hj ..) (fun _ _ => rfl)
      hgood.passed_lt htaken', ?_, fun u hu => ?_⟩
    · exact ⟨Function.update_self .., ⟨hclaimed.popper, hlt, hclaimed.pending, hclaimed.val⟩⟩
    · exact drop_evolves hgood (by omega) hlive _ _ _ (fun b hb => Function.update_of_ne hb ..) (.inl (by omega))
        (htickets u hu)
  · rename_i heven
    have hneither : ¬ (x.valueDone (k + 1) = true ∨ x.passedDone (k + 1) = true) := by
      intro hpassed
      rw [if_pos hpassed] at htry
      omega
    refine resume_keeps (firstDrop_good hgood (by omega) (Function.update x.valueDone (k + 1) true) x.passedDone
      hneither (.inl (Function.update_self ..)) (fun hboth => hneither (.inr hboth.2))
      (fun j hj => Function.update_of_ne hj ..) (fun _ _ => rfl) hgood.passed_lt htaken')
      ⟨hclaimed.popper, hlt, hclaimed.pending, hclaimed.val⟩ fun u hu => ?_
    exact drop_evolves hgood (by omega) hlive _ _ _ (fun _ _ => rfl) (.inr rfl) (htickets u hu)

/-! ### Every step -/

theorem step_keeps (hgood : Good m x) (choice : Choice T) {pc : Pc T} (hpc : Assertion t m x pc)
    (hfresh : Fresh m pc) (halloc : ∀ value, pc = .newAlloc value → m.allocated choice.addr = false) :
    Keeps t m x (step m choice pc) := by
  cases pc with
  | newLoadTop value =>
    simp only [step]
    split
    · exact keeps_of_read hgood trivial
    · rename_i hnotNull
      obtain ⟨a, ha⟩ := Option.ne_none_iff_exists'.mp hnotNull
      exact keeps_of_read hgood ⟨seen_load hgood.top_stamp, a, ha⟩
  | newLoadNext value currTop =>
    obtain ⟨hseen, a, ha⟩ := hpc
    simp only [step, ha]
    exact keeps_of_read hgood ⟨hseen, a, ha, fun _ => rfl⟩
  | newCasTop value currTop next => exact newCasTop_keeps hgood value currTop next choice hpc hfresh
  | newAlloc value => exact newAlloc_keeps hgood value choice (halloc value rfl)
  | newSetValue value a =>
    refine ⟨_, setNode_good hgood hpc _ (x.tick a) rfl (hgood.next_stamp a), ⟨hpc, ?_⟩,
      fun u hu => setNode_evolves hgood hpc _ _ le_rfl le_rfl le_rfl hu⟩
    simp only [step, setNode_self, Node.setValue]
  | newLoadOwn value a => exact keeps_of_read hgood ⟨hpc.1, hpc.2, rfl⟩
  | newStoreOwn value a oldNext =>
    obtain ⟨hplace, hvalue, hnext⟩ := hpc
    refine ⟨_, setNode_good hgood hplace _ (x.tick a + 1) rfl ?_, ⟨hplace, ?_, ?_⟩,
      fun u hu => setNode_evolves hgood hplace _ _ (Nat.le_succ _) (Nat.le_succ _) (by
        simp only [Node.storeNext, AtomicStampedPtr.store]
        omega) hu⟩
    · simp only [Node.storeNext, AtomicStampedPtr.store, StampedPtr.pack]
      rw [← hnext, hgood.next_stamp a, mod_stamps_succ]
    · simp only [step, setNode_self, Node.storeNext]
      exact hvalue
    · simp only [step, setNode_self, Node.storeNext, AtomicStampedPtr.store, StampedPtr.pack]
  | pushLoadTail value a =>
    exact keeps_of_read hgood ⟨hpc, seen_load hgood.tail_stamp, _, by rw [AtomicStampedPtr.load, hgood.tail_value]⟩
  | pushLoadNext value a oldTail =>
    obtain ⟨hready, hseen, b, hb⟩ := hpc
    simp only [step, hb]
    refine keeps_of_read hgood ⟨hready, hseen, b, hb, x.tick b, ⟨hgood.next_stamp b, le_rfl, le_rfl, le_rfl⟩,
      fun _ => ⟨fun _ => rfl, fun c hc => hc⟩⟩
  | pushCheckTail value a oldTail oldTailNext =>
    exact pushCheckTail_keeps hgood value a oldTail oldTailNext choice hpc hfresh
  | pushLink value a oldTail oldTailNext => exact pushLink_keeps hgood value a oldTail oldTailNext choice hpc hfresh
  | pushHelp value a oldTail oldTailNext =>
    obtain ⟨hready, hseen, b, hb, hnext⟩ := hpc
    simp only [step, hb]
    exact moveTail_keeps hgood hseen hfresh hnext choice.spurious (fun _ _ => hready) hready
  | pushSwing a oldTail =>
    obtain ⟨hseen, hnext⟩ := hpc
    simp only [step]
    exact moveTail_keeps hgood hseen hfresh hnext choice.spurious (fun _ _ => trivial) trivial
  | popLoadHead =>
    exact keeps_of_read hgood ⟨seen_load hgood.head_stamp, _, by rw [AtomicStampedPtr.load, hgood.head_value]⟩
  | popLoadNext headOld => exact popLoadNext_keeps hgood headOld choice hpc
  | popLoadTail headOld headNext sawEmpty => exact popLoadTail_keeps hgood headOld headNext sawEmpty choice hpc
  | popCheckHead headOld headNext tailOld sawEmpty =>
    exact popCheckHead_keeps hgood headOld headNext tailOld sawEmpty choice hpc hfresh
  | popCasHead headOld headNext => exact popCasHead_keeps hgood headOld headNext choice hpc hfresh
  | popHelp headNext tailOld =>
    obtain ⟨hseen, b, hb, hnext⟩ := hpc
    simp only [step, hb]
    exact moveTail_keeps hgood hseen hfresh hnext choice.spurious (fun _ _ => trivial) trivial
  | popDropHead headOld headNext k => exact popDropHead_keeps hgood headOld headNext k choice hpc
  | popTakeValue headNext k => exact popTakeValue_keeps hgood headNext k choice hpc
  | popDropNext headNext val k => exact popDropNext_keeps hgood headNext val k choice hpc
  | poolLoadTop a after => exact keeps_of_read hgood ⟨hpc.1, seen_load hgood.top_stamp, hpc.2⟩
  | poolLoadOwn a oldTop after => exact keeps_of_read hgood ⟨hpc.1, hpc.2.1, .inl rfl, hpc.2.2⟩
  | poolStore a oldTop oldNext after =>
    obtain ⟨hplace, hseen, hstamp, hafter⟩ := hpc
    obtain ⟨tick, htick, hle, hnext⟩ : ∃ tick, x.tick a ≤ tick ∧ tick ≤ x.tick a + 1 ∧
        (oldNext.value.stamp + 1) % stamps = tick % stamps := by
      rcases hstamp with hstamp | hstamp
      · exact ⟨x.tick a + 1, Nat.le_succ _, le_rfl, by rw [← hstamp, hgood.next_stamp a, mod_stamps_succ]⟩
      · exact ⟨x.tick a, le_rfl, Nat.le_succ _, by rw [← hstamp, hgood.next_stamp a]⟩
    refine ⟨_, setNode_good hgood hplace _ tick rfl ?_, ⟨hplace, hseen, ?_, ?_⟩,
      fun u hu => setNode_evolves hgood hplace _ _ htick (Nat.le_succ _) (by
        simp only [Node.storeNext, AtomicStampedPtr.store]
        omega) hu⟩
    · simp only [Node.storeNext, AtomicStampedPtr.store, StampedPtr.pack]
      exact hnext
    · simp only [step, setNode_self, Node.storeNext, AtomicStampedPtr.store, StampedPtr.pack]
    · cases after with
      | takeValue headNext k =>
        exact ⟨hafter.popper, hafter.lt, hafter.pending, hafter.not_done, hafter.not_taken, hafter.ptr⟩
      | ret val k => exact ⟨hafter.popper, hafter.lt, hafter.pending, hafter.val⟩
  | poolCas a oldTop oldNext after =>
    obtain ⟨hplace, hseen, hnext, hafter⟩ := hpc
    simp only [step]
    split
    · rename_i hcas
      have heq := hseen.updates_eq_of_matches hgood.top_stamp hfresh hcas.1
      obtain ⟨hgood', hevolves⟩ := poolPush_keeps hgood hplace hseen heq (by rw [hnext])
      refine resume_keeps hgood' ?_ hevolves
      cases after with
      | takeValue headNext k =>
        exact ⟨hafter.popper, hafter.lt, hafter.pending, hafter.not_done, hafter.not_taken, hafter.ptr⟩
      | ret val k => exact ⟨hafter.popper, hafter.lt, hafter.pending, hafter.val⟩
    · refine keeps_of_read hgood ⟨hplace, seen_load hgood.top_stamp, .inr ?_, hafter⟩
      rw [hnext]
  | crash => exact hpc.elim
  | popNull sawEmpty => exact keeps_of_read hgood hpc
  | _ => exact keeps_of_read hgood trivial

/-! ### Every reachable state -/

/-- The auxiliary value for the state the constructor leaves. -/
def Aux.new (dummy : Addr) : Aux Tid where
  chain := fun _ => dummy
  tailPos := 0
  place := fun a => if a = dummy then .linked 0 else .free
  pool := []
  tick := fun _ => 0
  valueTaken := fun i => i = 0
  valueDone := fun i => i = 0
  passedDone := fun _ => false
  popper := fun _ => none

theorem good_new (dummy : Addr) : Good (Mem.new dummy : Mem T) (Aux.new dummy : Aux Tid) where
  head_le_tail := le_rfl
  tail_le := le_rfl
  head_value := rfl
  tail_value := rfl
  top_value := rfl
  next_stamp := fun _ => rfl
  next_ptr := fun i _ hi => absurd hi (Nat.not_lt_zero i)
  next_last := rfl
  place_chain := fun i hi _ => by
    obtain rfl : i = 0 := Nat.le_zero.mp hi
    exact if_pos rfl
  linked_pos := fun a i ha => by
    simp only [Aux.new] at ha
    split at ha
    · rename_i heq
      obtain rfl := Place.linked.inj ha
      exact ⟨le_rfl, heq.symm, fun hboth => absurd hboth.2 (by simp [Aux.new])⟩
    · exact absurd ha (by simp)
  passed_lt := fun i hi => absurd hi (by simp [Aux.new])
  taken_le := fun i hi => by
    simp only [Aux.new, decide_eq_true_eq] at hi
    exact hi.le
  taken_of_done := fun _ hi => hi
  value := fun i hi => absurd hi (Nat.not_lt_zero i)
  tryDel_linked := fun a i ha => by
    simp only [Aux.new] at ha
    split at ha
    · obtain rfl := Place.linked.inj ha
      rfl
    · exact absurd ha (by simp)
  tryDel_pool := fun a ha => by
    simp only [Aux.new] at ha
    split at ha <;> exact absurd ha (by simp)
  tryDel_held := fun a t ha => by
    simp only [Aux.new] at ha
    split at ha <;> exact absurd ha (by simp)
  pool_nodup := List.nodup_nil
  mem_pool := fun a => by
    simp only [Aux.new, List.not_mem_nil, false_iff]
    split <;> simp
  pool_chained := trivial
  free_of_not_allocated := fun a ha => by
    simp only [Mem.new, decide_eq_false_iff_not] at ha
    exact if_neg ha
  next_free := fun _ _ => ⟨rfl, rfl⟩
  popped_value := fun k val hk => absurd hk (by simp [Mem.new])

theorem good_of_reachable [DecidableEq Tid] {c : Logic.Conf Tid (Mem T) (Pc T)} (h : (system T Tid).Reachable c) :
    ∃ x : Aux Tid, Good c.mem x ∧ ∀ t, Assertion t c.mem x (c.pc t) := by
  refine Logic.Program.outline (fun m (x : Aux Tid) => Good m x) (fun t m x pc => Assertion t m x pc) ?_ ?_ h
  · rintro c ⟨⟨dummy, hmem⟩, hpc⟩
    refine ⟨Aux.new dummy, hmem ▸ good_new dummy, fun t => ?_⟩
    rw [hpc t]
    trivial
  · intro t m x pc m' pc' hgood hpc hact
    suffices hkeeps : Keeps t m x (m', pc') by
      obtain ⟨x', hgood', hpc', hevolves⟩ := hkeeps
      exact ⟨x', hgood', hpc', fun u hu k hk => hk.stable (hevolves u hu) hgood hgood'⟩
    cases hact with
    | push _ value => exact keeps_of_read hgood trivial
    | tryPop _ => exact keeps_of_read hgood trivial
    | step choice hfresh halloc => exact step_keeps hgood choice hpc hfresh halloc

/-! ### The claims that have not been returned yet -/

/-- The claim that the rest of a `TryPop` after `ToPool` returns. -/
def After.ticket : After T → Nat
  | .takeValue _ k | .ret _ k => k

/-- The claim on `head_` that a thread has made and not yet returned. -/
def Pc.ticket : Pc T → Option Nat
  | .popDropHead _ _ k | .popTakeValue _ k | .popDropNext _ _ k => some k
  | .poolLoadTop _ after | .poolLoadOwn _ _ after | .poolStore _ _ _ after | .poolCas _ _ _ after => some after.ticket
  | _ => none

/-- The three things a step can do to the claims. -/
inductive TicketStep (popped : List (Option (Option T))) (ticket : Option Nat) :
    List (Option (Option T)) → Option Nat → Prop
  | keep : TicketStep popped ticket popped ticket
  | claim (hnone : ticket = none) : TicketStep popped ticket (popped ++ [none]) (some popped.length)
  | ret (k : Nat) (val : Option T) (hsome : ticket = some k) :
      TicketStep popped ticket (popped.set k (some val)) none

theorem ticketStep_resume (m : Mem T) (after : After T) :
    TicketStep m.popped (some after.ticket) (resume m after).1.popped (resume m after).2.ticket := by
  cases after with
  | takeValue headNext k => exact .keep
  | ret val k => exact .ret k val rfl

theorem ticketStep_step (m : Mem T) (choice : Choice T) (pc : Pc T) (hcrash : (step m choice pc).2 ≠ .crash) :
    TicketStep m.popped pc.ticket (step m choice pc).1.popped (step m choice pc).2.ticket := by
  cases pc with
  | popDropHead headOld headNext k =>
    simp only [step] at hcrash ⊢
    split at hcrash
    · split <;> exact .keep
    · exact absurd rfl hcrash
  | popTakeValue headNext k =>
    simp only [step] at hcrash ⊢
    split at hcrash
    · exact .keep
    · exact absurd rfl hcrash
  | popDropNext headNext val k =>
    simp only [step] at hcrash ⊢
    split at hcrash
    · split
      · exact .keep
      · exact .ret k val rfl
    · exact absurd rfl hcrash
  | popCasHead headOld headNext =>
    simp only [step]
    split
    · exact .claim rfl
    · exact .keep
  | poolCas a oldTop oldNext after =>
    simp only [step]
    split
    · exact ticketStep_resume { m with top := m.top.store ⟨some a, oldTop.value.stamp + 1⟩ } after
    · exact .keep
  | _ =>
    simp only [step]
    (repeat' split) <;> exact .keep

theorem ticketStep_act {m m' : Mem T} {pc pc' : Pc T} (hact : Act m pc m' pc') (hcrash : pc' ≠ .crash) :
    TicketStep m.popped pc.ticket m'.popped pc'.ticket := by
  have houtside : pc.Outside → pc.ticket = none := by
    cases pc <;> simp [Pc.Outside, Pc.ticket]
  cases hact with
  | push hout value => rw [houtside hout]; exact .keep
  | tryPop hout => rw [houtside hout]; exact .keep
  | step choice _ _ => exact ticketStep_step m choice pc hcrash

/-- Every claim without a returned value is one of a thread that is still in its `TryPop`. -/
def PendingOwned (c : Logic.Conf Tid (Mem T) (Pc T)) : Prop :=
  ∀ k : Nat, c.mem.popped[k]? = some none → ∃ t, (c.pc t).ticket = some k

theorem pending_of_reachable [DecidableEq Tid] {c : Logic.Conf Tid (Mem T) (Pc T)} (h : (system T Tid).Reachable c) :
    PendingOwned c := by
  refine h.invariant ?_ ?_
  · rintro c ⟨⟨dummy, hmem⟩, -⟩ k hk
    rw [hmem] at hk
    exact absurd hk (by simp [Mem.new])
  · intro c c' hreach ih hstep k hk
    obtain ⟨x, hgood, hpc⟩ := good_of_reachable (hreach.step hstep)
    obtain ⟨t, m', pc', hact, rfl⟩ := hstep
    have hcrash : pc' ≠ .crash := by
      rintro rfl
      simpa [Assertion] using hpc t
    have hother : ∀ j, (∃ u, (c.pc u).ticket = some j) → (c.pc t).ticket ≠ some j →
        ∃ u, (Function.update c.pc t pc' u).ticket = some j := by
      rintro j ⟨u, hu⟩ hne
      have hut : u ≠ t := by
        rintro rfl
        exact hne hu
      exact ⟨u, by rw [Function.update_of_ne hut]; exact hu⟩
    have hticket := ticketStep_act hact hcrash
    simp only at hk ⊢
    generalize hp : m'.popped = popped' at hticket hk
    generalize hq : pc'.ticket = ticket' at hticket
    cases hticket with
    | keep =>
      by_cases hown : (c.pc t).ticket = some k
      · exact ⟨t, by rw [Function.update_self, hq, hown]⟩
      · exact hother k (ih k hk) hown
    | claim hnone =>
      rcases Nat.lt_or_ge k c.mem.popped.length with hlt | hge
      · rw [List.getElem?_append_left hlt] at hk
        exact hother k (ih k hk) (by rw [hnone]; simp)
      · obtain rfl : k = c.mem.popped.length := by
          have := (List.getElem?_eq_some_iff.mp hk).1
          simp only [List.length_append, List.length_singleton] at this
          omega
        exact ⟨t, by rw [Function.update_self, hq]⟩
    | ret j val hsome =>
      have hjk : j ≠ k := by
        rintro rfl
        rw [List.getElem?_set_self'] at hk
        revert hk
        cases c.mem.popped[j]? <;> simp
      rw [List.getElem?_set_ne hjk] at hk
      exact hother k (ih k hk) (by rw [hsome]; simpa using hjk)

/-! ### The queue -/

/-- Follow the `next` pointers of the nodes a number of times. -/
def Mem.follow (m : Mem T) : Nat → Option Addr → Option Addr
  | 0, p => p
  | n + 1, p => m.follow n (p.bind fun a => (m.node a).next.value.rawPtr)

theorem Good.follow_chain (hgood : Good m x) (n i : Nat) (hhead : m.popped.length ≤ i) (hlast : i + n ≤ m.pushed.length) :
    m.follow n (some (x.chain i)) = some (x.chain (i + n)) := by
  induction n generalizing i with
  | zero => rfl
  | succ n ih =>
    simp only [Mem.follow, Option.bind_some]
    rw [hgood.next_ptr i hhead (by omega), ih (i + 1) (by omega) (by omega)]
    congr 2
    omega

/-- `tail_` is reached from `head_` by following `next`. -/
theorem Good.follow_head (hgood : Good m x) : ∃ n, m.follow n m.head.value.rawPtr = m.tail.value.rawPtr := by
  have hle := hgood.head_le_tail
  have htail := hgood.tail_le
  refine ⟨x.tailPos - m.popped.length, ?_⟩
  rw [hgood.head_value, hgood.tail_value]
  simp only
  rw [hgood.follow_chain _ _ le_rfl (by omega)]
  congr 2
  omega

/-- In every state that any interleaving of `Push` and `TryPop` reaches: the values returned by `TryPop`,
in the order of the compare-exchanges on `head_`, are the pushed values in the order they were linked
(a claim without a value is one whose `TryPop` has not returned yet); a `TryPop` that returned nothing
saw the queue empty; `tail_` is reached from `head_` through the list; and no thread follows a null pointer. -/
theorem popped_prefix_of_pushed [DecidableEq Tid] (c : Logic.Conf Tid (Mem T) (Pc T))
    (h : (system T Tid).Reachable c) :
    c.mem.popped.length ≤ c.mem.pushed.length ∧
      (∀ (k : Nat) (val : Option T), c.mem.popped[k]? = some (some val) → val = c.mem.pushed[k]?) ∧
      PendingOwned c ∧
      (∀ t sawEmpty, c.pc t = .popNull sawEmpty → sawEmpty = true) ∧
      (∃ n, c.mem.follow n c.mem.head.value.rawPtr = c.mem.tail.value.rawPtr) ∧ ∀ t, c.pc t ≠ .crash := by
  obtain ⟨x, hgood, hpc⟩ := good_of_reachable h
  refine ⟨hgood.popped_le, hgood.popped_value, pending_of_reachable h, fun t sawEmpty ht => ?_, hgood.follow_head,
    fun t ht => ?_⟩
  · have hnull := hpc t
    rw [ht] at hnull
    exact hnull
  · have hcrash := hpc t
    rw [ht] at hcrash
    exact hcrash

/-- One push and one pop, after which the dummy of the constructor is in the pool. -/
theorem popped_prefix_of_pushed_single : ∃ c : Logic.Conf Nat (Mem Nat) (Pc Nat),
    (system Nat Nat).Reachable c ∧ c.mem.popped = [some (some 7)] ∧
      (∀ (k : Nat) (val : Option Nat), c.mem.popped[k]? = some (some val) → val = c.mem.pushed[k]?) := by
  have hinit : (system Nat Nat).Reachable ⟨Mem.new 0, fun _ => .idle⟩ := .init ⟨⟨0, rfl⟩, fun _ => rfl⟩
  have hpush := hinit.step ⟨0, _, _, .push (by trivial) 7, rfl⟩
  have hnewTop := hpush.step ⟨0, _, _, .step ⟨false, 0, none⟩ (by trivial) nofun, rfl⟩
  have halloc := hnewTop.step ⟨0, _, _, .step ⟨false, 1, none⟩ (by trivial) (fun _ _ => rfl), rfl⟩
  have hloadTail := halloc.step ⟨0, _, _, .step ⟨false, 0, none⟩ (by trivial) nofun, rfl⟩
  have hloadNext := hloadTail.step ⟨0, _, _, .step ⟨false, 0, none⟩ (by trivial) nofun, rfl⟩
  have hcheck := hloadNext.step ⟨0, _, _, .step ⟨false, 0, none⟩ (by exact Nat.zero_lt_succ _) nofun, rfl⟩
  have hlink := hcheck.step ⟨0, _, _, .step ⟨false, 0, none⟩ (by rintro b ⟨⟩; exact Nat.zero_lt_succ _) nofun, rfl⟩
  have hswing := hlink.step ⟨0, _, _, .step ⟨false, 0, none⟩ (by exact Nat.zero_lt_succ _) nofun, rfl⟩
  have hpop := hswing.step ⟨1, _, _, .tryPop (by trivial), rfl⟩
  have hloadHead := hpop.step ⟨1, _, _, .step ⟨false, 0, none⟩ (by trivial) nofun, rfl⟩
  have hheadNext := hloadHead.step ⟨1, _, _, .step ⟨false, 0, none⟩ (by trivial) nofun, rfl⟩
  have hpopTail := hheadNext.step ⟨1, _, _, .step ⟨false, 0, none⟩ (by trivial) nofun, rfl⟩
  have hcheckHead := hpopTail.step ⟨1, _, _, .step ⟨false, 0, none⟩ (by exact Nat.zero_lt_succ _) nofun, rfl⟩
  have hcas := hcheckHead.step ⟨1, _, _, .step ⟨false, 0, none⟩ (by exact Nat.zero_lt_succ _) nofun, rfl⟩
  have hdrop := hcas.step ⟨1, _, _, .step ⟨false, 0, none⟩ (by trivial) nofun, rfl⟩
  have hpoolTop := hdrop.step ⟨1, _, _, .step ⟨false, 0, none⟩ (by trivial) nofun, rfl⟩
  have hpoolOwn := hpoolTop.step ⟨1, _, _, .step ⟨false, 0, none⟩ (by trivial) nofun, rfl⟩
  have hpoolStore := hpoolOwn.step ⟨1, _, _, .step ⟨false, 0, none⟩ (by trivial) nofun, rfl⟩
  have hpoolCas := hpoolStore.step ⟨1, _, _, .step ⟨false, 0, none⟩ (by exact Nat.zero_lt_succ _) nofun, rfl⟩
  have htake := hpoolCas.step ⟨1, _, _, .step ⟨false, 0, none⟩ (by trivial) nofun, rfl⟩
  have hret := htake.step ⟨1, _, _, .step ⟨false, 0, none⟩ (by trivial) nofun, rfl⟩
  exact ⟨_, hret, rfl, (popped_prefix_of_pushed _ hret).2.1⟩

end CppConcur.LockFree.Queue
