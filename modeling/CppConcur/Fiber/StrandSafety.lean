import CppConcur.Fiber.StrandSteps

/-!
# What a strand guarantees

Each step of `Combine` keeps the invariant, so it holds in every interleaving of the fibers. The critical
sections exclude each other because each of them is run by the owner, and a waiter is accessed through the
list only while its fiber is suspended.
-/

namespace CppConcur.Fiber.Strand

variable {Fib : Type*} [DecidableEq Fib] {f : Fib} {m : Mem Fib} {x : Aux Fib}

omit [DecidableEq Fib] in
theorem Keeps.of_evolves {m' : Mem Fib} {x' : Aux Fib} {next : Mem Fib × Pc} (h : Keeps f m' x' next)
    (hevolves : ∀ u, u ≠ f → Evolves u m x m' x') : Keeps f m x next := by
  obtain ⟨x'', hgood, hpc, hevolves'⟩ := h
  exact ⟨x'', hgood, hpc, fun u hu => (hevolves u hu).trans (hevolves' u hu)⟩

omit [DecidableEq Fib] in
theorem Good.busy (hgood : Good m x) (hholder : x.holder = some f) : m.head.Busy := by
  have hword := hgood.word
  cases hhead : m.head with
  | null =>
    rw [hhead] at hword
    exact absurd (hword.1.symm.trans hholder) nofun
  | released p =>
    rw [hhead] at hword
    exact absurd (hword.1.symm.trans hholder) nofun
  | _ => trivial

omit [DecidableEq Fib] in
theorem Good.accessible (hgood : Good m x) {w : Addr} (hw : (x.state w).Waiting) : m.Accessible w := by
  refine ⟨(hgood.live_iff w).mpr ?_, hgood.unscheduled w hw⟩
  intro hfree
  rw [hfree] at hw
  exact hw

omit [DecidableEq Fib] in
theorem Holds.held_nil (h : Holds x f none) : x.held f = [] := List.head?_eq_none_iff.mp h.2

omit [DecidableEq Fib] in
theorem Good.held_nil_of_none (hgood : Good m x) (hholder : x.holder = none) (g : Fib) : x.held g = [] :=
  hgood.held_other (by rw [hholder]; exact nofun)

omit [DecidableEq Fib] in
theorem Good.held_nil_of_holds (hgood : Good m x) (h : Holds x f none) (g : Fib) : x.held g = [] := by
  by_cases hg : g = f
  · rw [hg]
    exact h.held_nil
  · refine hgood.held_other ?_
    rw [h.1]
    exact fun heq => hg (Option.some.inj heq).symm

omit [DecidableEq Fib] in
theorem Good.word_of (hgood : Good m x) {w : Word} (hhead : m.head = w) : WordOk x w := hhead ▸ hgood.word

/-! ### Taking the ownership -/

omit [DecidableEq Fib] in
/-- A fiber that finds nobody in the strand becomes the owner. -/
theorem own_good (hgood : Good m x) (hhead : m.head = .null) (f : Fib) :
    Good (m.setHead .dummy) { x with holder := some f } := by
  obtain ⟨hholder, hlist⟩ := hgood.word_of hhead
  exact head_good hgood .dummy (some f) ⟨nofun, hlist⟩ fun g hg => absurd (hgood.held_nil_of_none hholder g) hg

theorem Done.take {a : Addr} (h : Done m x f a) : Done (m.setHead .dummy) (x.take f) f a := by
  refine ⟨h.own, ?_, h.ready, h.finished⟩
  rcases h.state with hstate | hstate
  · exact .inl (by simp only [Aux.take, hstate, State.take])
  · exact .inr (by simp only [Aux.take, hstate, State.take])

theorem take_keeps (hgood : Good m x) {a p : Addr} (hdone : Done m x f a) (hlist : x.list.head? = some p)
    (hfree : x.holder = none ∨ x.holder = some f) (hheld : x.held f = []) :
    Keeps f m x (m.setHead .dummy, .next a p) := by
  refine ⟨x.take f, take_good hgood hfree hheld, ⟨hdone.take, rfl, ?_⟩, fun u hu => take_evolves hu hfree⟩
  simp only [Aux.take, Function.update_self]
  exact hlist

theorem tryCas_keeps (hgood : Good m x) {a : Addr} (hfresh : Fresh m x f a) : Keeps f m x (step f m (.tryCas a)) := by
  simp only [step]
  split
  · rename_i hhead
    have hword := hgood.word_of hhead
    obtain ⟨hholder, hlist⟩ := hword
    have hgood' := own_good hgood hhead f
    have hworks : WorksOn { x with holder := some f } f a := .inl ⟨hfresh.own, hfresh.state⟩
    refine ⟨_, start_good hgood' hworks hfresh.unstarted, ⟨hfresh.own, hfresh.state, hfresh.ready, ⟨rfl, ?_⟩, ?_⟩,
      fun u hu => (head_evolves .dummy (some f) ?_).trans (start_evolves hgood' hworks hu)⟩
    · simp only [hgood.held_nil_of_none hholder f, List.head?_nil]
    · exact List.mem_append_right _ (List.mem_singleton_self _)
    · intro hu'
      exact absurd (hholder.symm.trans hu') nofun
  · exact keeps_of_read hgood hfresh

theorem takeCas_keeps (hgood : Good m x) {a : Addr} {batchHead : Word}
    (hpc : Assertion f m x (.takeCas a batchHead)) : Keeps f m x (step f m (.takeCas a batchHead)) := by
  obtain ⟨hdone, hholds, hbusy⟩ := hpc
  simp only [step]
  split
  · rename_i hhead
    have hword := hgood.word_of hhead
    cases batchHead with
    | dummy =>
      have hgood' : Good (m.setHead .null) { x with holder := none } :=
        head_good hgood .null none ⟨rfl, hword.2⟩ fun g hg => absurd (hgood.held_nil_of_holds hholds g) hg
      have hdone' : Done (m.setHead .null) { x with holder := none } f a :=
        ⟨hdone.own, hdone.state, hdone.ready, hdone.finished⟩
      refine (ret_keeps hgood' hdone').of_evolves fun u hu => head_evolves .null none fun hu' => ?_
      exact absurd (Option.some.inj (hu'.symm.trans hholds.1)) hu
    | busy p => exact take_keeps hgood hdone hword.2 (.inr hholds.1) hholds.held_nil
    | _ => exact hbusy.elim
  · exact keeps_of_read hgood ⟨hdone, hholds, hgood.busy hholds.1⟩

/-! ### One round of the loop over the batch -/

theorem next_keeps (hgood : Good m x) {a w : Addr} (hpc : Assertion f m x (.next a w)) :
    Keeps f m x (step f m (.next a w)) := by
  obtain ⟨hdone, hholder, hhead⟩ := hpc
  obtain ⟨rest, hheld⟩ : ∃ rest, x.held f = w :: rest := List.head?_eq_some_iff.mp hhead
  have hstate : x.state w = .held f := (hgood.mem_held f w).mp (by rw [hheld]; exact List.mem_cons_self)
  have hne : a ≠ w := by
    rintro rfl
    rcases hdone.state with h | h <;> exact absurd (h.symm.trans hstate) nofun
  have hchained := hgood.held_chained f
  rw [hheld] at hchained
  have hpick := pick_good hgood hheld
  have hworks : WorksOn (x.pick f w rest) f w := .inr (Function.update_self ..)
  have hkeep : (x.pick f w rest).state a = x.state a := Function.update_of_ne hne ..
  simp only [step]
  rw [touch_eq (hgood.accessible (by rw [hstate]; trivial))]
  refine ⟨_, start_good hpick hworks (hgood.unstarted w (.inr ⟨f, hstate⟩)), ⟨?_, ⟨hholder, ?_⟩, ?_⟩, fun u hu =>
    (pick_evolves hgood hheld hu).trans (start_evolves hpick hworks hu)⟩
  · exact ⟨hdone.own, by rw [hkeep]; exact hdone.state, hdone.ready, hdone.finished⟩
  · simp only [Aux.pick, Function.update_self]
    exact hchained.1.symm
  · exact ⟨Function.update_self .., List.mem_append_right _ (List.mem_singleton_self _)⟩

theorem run_keeps (hgood : Good m x) {a w : Addr} {rest : Option Addr} (hpc : Assertion f m x (.run a w rest)) :
    Keeps f m x (step f m (.run a w rest)) := by
  obtain ⟨hdone, hholds, hcurrent⟩ := hpc
  have htouch : m.touch w = m := touch_eq (hgood.accessible (by rw [hcurrent.state]; trivial))
  have hgood' := finish_good hgood hcurrent.started
  have hdone' : Done (m.finish w) x f a := ⟨hdone.own, hdone.state, hdone.ready, List.mem_append_left _ hdone.finished⟩
  have hcurrent' : Current (m.finish w) x f w := ⟨hcurrent.state, hcurrent.started⟩
  have hfinished : ((m.finish w).waiter w).call ∈ (m.finish w).finished :=
    List.mem_append_right _ (List.mem_singleton_self _)
  cases rest with
  | none =>
    simp only [step, htouch]
    exact ⟨x, hgood', ⟨hdone', hholds, hcurrent', hfinished⟩, fun u _ => finish_evolves u m x w⟩
  | some w' =>
    simp only [step, htouch]
    exact ⟨x, hgood', ⟨hdone', hcurrent', hfinished, fun _ _ => hholds⟩, fun u _ => finish_evolves u m x w⟩

theorem releaseCas_keeps (hgood : Good m x) {a w : Addr} {oldHead : Word}
    (hpc : Assertion f m x (.releaseCas a w oldHead)) : Keeps f m x (step f m (.releaseCas a w oldHead)) := by
  obtain ⟨hdone, hholds, hcurrent, hfinished, hbusy⟩ := hpc
  simp only [step]
  split
  · rename_i hhead
    have hword := hgood.word_of hhead
    have hword' : WordOk { x with holder := none } (if oldHead = .dummy then .null else oldHead.release) := by
      cases oldHead with
      | dummy => exact ⟨rfl, hword.2⟩
      | busy p => exact ⟨rfl, hword.2⟩
      | _ => exact hbusy.elim
    refine ⟨_, head_good hgood _ none hword' fun g hg => absurd (hgood.held_nil_of_holds hholds g) hg, ?_, fun u hu =>
      head_evolves _ none fun hu' => absurd (Option.some.inj (hu'.symm.trans hholds.1)) hu⟩
    exact ⟨⟨hdone.own, hdone.state, hdone.ready, hdone.finished⟩, ⟨hcurrent.state, hcurrent.started⟩, hfinished, nofun⟩
  · exact keeps_of_read hgood ⟨hdone, hholds, hcurrent, hfinished, hgood.busy hholds.1⟩

theorem schedule_keeps (hgood : Good m x) {a w : Addr} {rest : Option Addr} (hpc : Assertion f m x (.schedule a w rest)) :
    Keeps f m x (step f m (.schedule a w rest)) := by
  obtain ⟨hdone, hcurrent, hfinished, hholds⟩ := hpc
  have hstate := hcurrent.state
  have hne : a ≠ w := by
    rintro rfl
    rcases hdone.state with h | h <;> exact absurd (h.symm.trans hstate) nofun
  obtain ⟨g, hfiber, hown, -⟩ := hgood.waiting w (by rw [hstate]; trivial)
  have hgf : g ≠ f := by
    rintro rfl
    exact hne (Option.some.inj (hdone.own.symm.trans hown))
  have hgood' := wake_good hgood hstate hfinished
  have hdone' : Done (m.schedule w) (x.wake w) f a := by
    refine ⟨hdone.own, ?_, ?_, ?_⟩
    · simp only [Aux.wake, ne_eq, hne, not_false_eq_true, Function.update_of_ne]
      exact hdone.state
    · rw [schedule_eq hfiber]
      exact (Function.update_of_ne hgf.symm ..).trans hdone.ready
    · rw [schedule_eq hfiber]
      simp only [ne_eq, hne, not_false_eq_true, Function.update_of_ne]
      exact hdone.finished
  have hevolves : ∀ u, u ≠ f → Evolves u m x (m.schedule w) (x.wake w) := fun u hu => wake_evolves hgood hstate hu
  simp only [step]
  rw [touch_eq (hgood.accessible (by rw [hstate]; trivial))]
  cases rest with
  | none => exact (ret_keeps hgood' hdone').of_evolves hevolves
  | some w' => exact ⟨_, hgood', ⟨hdone', hholds w' rfl⟩, hevolves⟩

/-! ### The awaiter -/

omit [DecidableEq Fib] in
theorem prepare_keeps (hgood : Good m x) {a : Addr} (hfresh : Fresh m x f a) :
    Keeps f m x (m.prepare a m.head, .awaitCas a m.head) := by
  refine ⟨x, prepare_good hgood hfresh.state m.head, ?_, fun u hu =>
    prepare_evolves hgood (.inl ⟨hfresh.own, hfresh.state⟩) m.head hu⟩
  cases hhead : m.head with
  | null => exact ⟨hfresh, nofun, nofun⟩
  | released p => exact ⟨hfresh, nofun, nofun⟩
  | dummy =>
    refine ⟨⟨hfresh.own, hfresh.state, hfresh.ready, ?_, ?_, ?_⟩, fun _ => ?_, nofun⟩ <;>
      simp only [Mem.prepare, Function.update_self]
    · exact hfresh.fiber
    · exact hfresh.unstarted
    · exact hfresh.unscheduled
  | busy p =>
    refine ⟨⟨hfresh.own, hfresh.state, hfresh.ready, ?_, ?_, ?_⟩, nofun, fun q hq => ?_⟩ <;>
      simp only [Mem.prepare, Function.update_self]
    · exact hfresh.fiber
    · exact hfresh.unstarted
    · exact hfresh.unscheduled
    · exact congrArg some (Word.busy.inj hq)

theorem awaitCas_keeps (hgood : Good m x) {a : Addr} {oldHead : Word} (hpc : Assertion f m x (.awaitCas a oldHead)) :
    Keeps f m x (step f m (.awaitCas a oldHead)) := by
  obtain ⟨hfresh, hdummy, hbusy⟩ := hpc
  simp only [step]
  split
  · rename_i hhead
    have hword := hgood.word_of hhead
    cases oldHead with
    | null =>
      obtain ⟨hholder, hlist⟩ := hword
      have hgood' := own_good hgood hhead f
      refine ⟨_, owners_good hgood' _, ⟨⟨hfresh.own, hfresh.state, hfresh.ready, hfresh.fiber, hfresh.unstarted,
        hfresh.unscheduled⟩, ⟨rfl, ?_⟩, ?_⟩, fun u hu => (head_evolves .dummy (some f) ?_).trans (owners_evolves u _ _ _)⟩
      · simp only [hgood.held_nil_of_none hholder f, List.head?_nil]
      · exact List.mem_append_right _ (List.mem_singleton_self _)
      · intro hu'
        exact absurd (hholder.symm.trans hu') nofun
    | dummy =>
      refine ⟨x.push a, push_good hgood hfresh hword.1 ?_, ⟨hfresh.own, .inl ?_⟩, fun u hu => push_evolves hgood hfresh hu⟩
      · rw [hdummy rfl, hword.2]
        rfl
      · simp only [Aux.push, Function.update_self]
        trivial
    | busy p =>
      refine ⟨x.push a, push_good hgood hfresh hword.1 ?_, ⟨hfresh.own, .inl ?_⟩, fun u hu => push_evolves hgood hfresh hu⟩
      · rw [hbusy p rfl, hword.2]
      · simp only [Aux.push, Function.update_self]
        trivial
    | released p =>
      obtain ⟨hholder, hlist⟩ := hword
      have hgood' := take_good (f := f) hgood (.inl hholder) (hgood.held_nil_of_none hholder f)
      have hstate : (x.take f).state a = .own := by simp only [Aux.take, hfresh.state, State.take]
      refine ⟨_, owners_good hgood' _, ⟨⟨hfresh.own, hstate, hfresh.ready, hfresh.fiber, hfresh.unstarted,
        hfresh.unscheduled⟩, ⟨rfl, ?_⟩, ?_⟩, fun u hu => (take_evolves hu (.inl hholder)).trans (owners_evolves u _ _ _)⟩
      · simp only [Aux.take, Function.update_self]
        exact hlist
      · exact List.mem_append_right _ (List.mem_singleton_self _)
  · exact prepare_keeps hgood hfresh

theorem awaitSchedule_keeps (hgood : Good m x) {a : Addr} {b : Option Addr}
    (hpc : Assertion f m x (.awaitSchedule a b)) : Keeps f m x (step f m (.awaitSchedule a b)) := by
  obtain ⟨hfresh, hholds, howner⟩ := hpc
  have hworks : WorksOn x f a := .inl ⟨hfresh.own, hfresh.state⟩
  refine ⟨x, schedule_good hgood hfresh.fiber hfresh.own (by rw [hfresh.state]; exact id) hfresh.unscheduled (.inr howner),
    ⟨hfresh.own, hfresh.state, hholds, ?_⟩, fun u hu => schedule_evolves hgood hfresh.fiber hworks hu hu⟩
  simp only [step]
  rw [schedule_eq hfresh.fiber]
  simp only [Function.update_self]
  exact hfresh.unstarted

/-! ### The fiber is resumed -/

theorem suspended_keeps (hgood : Good m x) {a : Addr} {owner : Option (Option Addr)}
    (hpc : Assertion f m x (.suspended a owner)) : Keeps f m x (step f m (.suspended a owner)) := by
  simp only [step]
  split
  · rename_i hready
    have hgood' := resume_good hgood f
    have hready' : Function.update m.ready f false f = false := Function.update_self ..
    cases owner with
    | none =>
      obtain ⟨hown, hstate⟩ := hpc
      have hwoken : x.state a = .woken := by
        rcases hstate with hstate | hstate
        · obtain ⟨g, -, hown', hnot⟩ := hgood.waiting a hstate
          obtain rfl := hgood.own_inj f g a hown hown'
          exact absurd (hready.symm.trans hnot) nofun
        · exact hstate.1
      exact ⟨x, hgood', ⟨hown, .inr hwoken, hready', hgood.woken a hwoken⟩, fun u hu => resume_evolves m x hu⟩
    | some b =>
      obtain ⟨hown, hstate, hholds, hstarted⟩ := hpc
      have hworks : WorksOn x f a := .inl ⟨hown, hstate⟩
      exact ⟨x, start_good hgood' hworks hstarted, ⟨hown, hstate, hready', hholds,
        List.mem_append_right _ (List.mem_singleton_self _)⟩,
        fun u hu => (resume_evolves m x hu).trans (start_evolves hgood' hworks hu)⟩
  · exact keeps_of_read hgood hpc

theorem endCas_keeps (hgood : Good m x) {a p : Addr} (hdone : Done m x f a) : Keeps f m x (step f m (.endCas a p)) := by
  simp only [step]
  split
  · rename_i hhead
    have hword := hgood.word_of hhead
    exact take_keeps hgood hdone hword.2 (.inl hword.1) (hgood.held_nil_of_none hword.1 f)
  · exact ret_keeps hgood hdone

/-! ### Every step -/

theorem step_keeps (hgood : Good m x) {pc : Pc} (hpc : Assertion f m x pc) : Keeps f m x (step f m pc) := by
  cases pc with
  | idle => exact keeps_of_read hgood hpc
  | tryLoad a =>
    simp only [step]
    split
    · exact keeps_of_read hgood hpc
    · exact keeps_of_read hgood hpc
  | tryCas a => exact tryCas_keeps hgood hpc
  | runOwn a batch =>
    obtain ⟨hown, hstate, hready, hholds, hstarted⟩ := hpc
    have hgood' := finish_good hgood hstarted
    have hdone : Done (m.finish a) x f a :=
      ⟨hown, .inl hstate, hready, List.mem_append_right _ (List.mem_singleton_self _)⟩
    cases batch with
    | none => exact ⟨x, hgood', ⟨hdone, hholds⟩, fun u _ => finish_evolves u m x a⟩
    | some w => exact ⟨x, hgood', ⟨hdone, hholds⟩, fun u _ => finish_evolves u m x a⟩
  | takeLoad a => exact keeps_of_read hgood ⟨hpc.1, hpc.2, hgood.busy hpc.2.1⟩
  | takeCas a batchHead => exact takeCas_keeps hgood hpc
  | next a w => exact next_keeps hgood hpc
  | run a w rest => exact run_keeps hgood hpc
  | releaseLoad a w =>
    obtain ⟨hdone, hholds, hcurrent, hfinished⟩ := hpc
    exact keeps_of_read hgood ⟨hdone, hholds, hcurrent, hfinished, hgood.busy hholds.1⟩
  | releaseCas a w oldHead => exact releaseCas_keeps hgood hpc
  | schedule a w rest => exact schedule_keeps hgood hpc
  | awaitLoad a => exact prepare_keeps hgood hpc
  | awaitCas a oldHead => exact awaitCas_keeps hgood hpc
  | awaitSchedule a batch => exact awaitSchedule_keeps hgood hpc
  | suspended a owner => exact suspended_keeps hgood hpc
  | endLoad a =>
    simp only [step]
    split
    · exact keeps_of_read hgood hpc
    · exact ret_keeps hgood hpc
  | endCas a p => exact endCas_keeps hgood hpc
  | ret c => exact keeps_of_read hgood hpc

theorem combine_keeps (hgood : Good m x) {pc : Pc} (hout : pc.Outside) (hpc : Assertion f m x pc) {a : Addr}
    (hfree : m.live a = false) : Keeps f m x (m.combine f a, .tryLoad a) := by
  obtain ⟨hnone, hready⟩ : x.own f = none ∧ m.ready f = false := by
    cases pc with
    | idle => exact hpc
    | ret c => exact ⟨hpc.1, hpc.2.1⟩
    | _ => exact hout.elim
  have hwaiter : (m.combine f a).waiter a = ⟨some f, none, m.calls⟩ := Function.update_self ..
  refine ⟨x.combine f a, combine_good hgood hfree hnone, ?_, fun u hu => combine_evolves hgood hfree hu⟩
  refine ⟨Function.update_self .., Function.update_self .., hready, ?_, ?_, ?_⟩ <;> rw [hwaiter]
  · exact fun hmem => absurd (hgood.started_lt _ hmem) (Nat.lt_irrefl _)
  · exact fun hmem => absurd (hgood.scheduled_lt _ hmem) (Nat.lt_irrefl _)

/-! ### Every reachable state -/

/-- The auxiliary value for a new strand. -/
def Aux.new : Aux Fib where
  holder := none
  list := []
  held := fun _ => []
  state := fun _ => .free
  own := fun _ => none

omit [DecidableEq Fib] in
theorem good_new : Good (Mem.new : Mem Fib) Aux.new := by
  constructor <;> simp [Mem.new, Aux.new, WordOk, Chained, State.Waiting]

theorem good_of_reachable {c : Logic.Conf Fib (Mem Fib) Pc} (h : (system Fib).Reachable c) :
    ∃ x : Aux Fib, Good c.mem x ∧ ∀ f, Assertion f c.mem x (c.pc f) := by
  refine Logic.Program.outline (fun m (x : Aux Fib) => Good m x) (fun f m x pc => Assertion f m x pc) ?_ ?_ h
  · rintro c ⟨hmem, hpc⟩
    refine ⟨Aux.new, hmem ▸ good_new, fun f => ?_⟩
    rw [hpc f, hmem]
    exact ⟨rfl, rfl⟩
  · intro f m x pc m' pc' hgood hpc hact
    have hkeeps : Keeps f m x (m', pc') := by
      cases hact with
      | combine hout a hfree => exact combine_keeps hgood hout hpc hfree
      | step => exact step_keeps hgood hpc
    obtain ⟨x', hgood', hpc', hevolves⟩ := hkeeps
    exact ⟨x', hgood', hpc', fun u hu k hk => hk.stable (hevolves u hu)⟩

/-- A fiber that is executing a critical section, its own or that of a waiter. -/
def Pc.Executing : Pc → Prop
  | .runOwn _ _ | .run _ _ _ => True
  | _ => False

omit [DecidableEq Fib] in
theorem Assertion.holder {pc : Pc} (hpc : Assertion f m x pc) (hexec : pc.Executing) : x.holder = some f := by
  cases pc with
  | runOwn a batch => exact hpc.2.2.2.1.1
  | run a w rest => exact hpc.2.1.1
  | _ => exact hexec.elim

/-- In every state that the fibers reach: at most one critical section is executing; none has been begun
twice; a call of `Combine` that has returned has had its critical section executed to the end; no fiber has
been scheduled twice, and each that has been scheduled has had its critical section executed or has become
the owner; and no waiter has been accessed through the list after its fiber was scheduled. -/
theorem strand_safe (c : Logic.Conf Fib (Mem Fib) Pc) (h : (system Fib).Reachable c) :
    (∀ f g, (c.pc f).Executing → (c.pc g).Executing → f = g) ∧ c.mem.started.Nodup ∧
      (∀ f call, c.pc f = .ret call → call ∈ c.mem.finished) ∧ c.mem.scheduled.Nodup ∧
      (∀ call ∈ c.mem.scheduled, call ∈ c.mem.finished ∨ call ∈ c.mem.owners) ∧ c.mem.fault = false := by
  obtain ⟨x, hgood, hpc⟩ := good_of_reachable h
  refine ⟨fun f g hf hg => ?_, hgood.started_nodup, fun f call hf => ?_, hgood.scheduled_nodup, hgood.scheduled_ok,
    hgood.fault⟩
  · exact Option.some.inj (((hpc f).holder hf).symm.trans ((hpc g).holder hg))
  · have hret := hpc f
    rw [hf] at hret
    exact hret.2.2

/-- One fiber runs its own critical section and that of a second fiber, which it then schedules. -/
theorem strand_safe_batch : ∃ c : Logic.Conf Bool (Mem Bool) Pc, (system Bool).Reachable c ∧
    c.mem.started = [0, 1] ∧ c.mem.scheduled = [1] ∧ c.pc false = .ret 0 ∧ 0 ∈ c.mem.finished ∧ c.mem.fault = false := by
  have hinit : (system Bool).Reachable ⟨.new, fun _ => .idle⟩ := .init ⟨rfl, fun _ => rfl⟩
  have hcombine := hinit.step ⟨false, _, _, .combine (by trivial) 0 rfl, rfl⟩
  have hload := hcombine.step ⟨false, _, _, .step, rfl⟩
  have hrun := hload.step ⟨false, _, _, .step, rfl⟩
  have hother := hrun.step ⟨true, _, _, .combine (by trivial) 1 rfl, rfl⟩
  have hotherLoad := hother.step ⟨true, _, _, .step, rfl⟩
  have hawait := hotherLoad.step ⟨true, _, _, .step, rfl⟩
  have hpush := hawait.step ⟨true, _, _, .step, rfl⟩
  have hfinish := hpush.step ⟨false, _, _, .step, rfl⟩
  have htakeLoad := hfinish.step ⟨false, _, _, .step, rfl⟩
  have htake := htakeLoad.step ⟨false, _, _, .step, rfl⟩
  have hnext := htake.step ⟨false, _, _, .step, rfl⟩
  have hbatch := hnext.step ⟨false, _, _, .step, rfl⟩
  have hreleaseLoad := hbatch.step ⟨false, _, _, .step, rfl⟩
  have hrelease := hreleaseLoad.step ⟨false, _, _, .step, rfl⟩
  have hschedule := hrelease.step ⟨false, _, _, .step, rfl⟩
  obtain ⟨-, -, hret, -, -, hfault⟩ := strand_safe _ hschedule
  exact ⟨_, hschedule, rfl, rfl, rfl, hret false 0 rfl, hfault⟩

end CppConcur.Fiber.Strand
