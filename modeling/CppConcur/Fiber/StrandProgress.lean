import CppConcur.Fiber.StrandSafety

/-!
# No batch is stranded

The fiber that finishes a batch leaves the list of the next one in `waiters_head_`, without the busy bit,
and only then schedules the last waiter of its batch. As long as the list stays there, this waiter has not
finished its check of `waiters_head_`: it is about to be scheduled, it has been scheduled and has not run,
or it runs and its compare-exchange will find the list.

The calls of these last waiters are recorded beside the state. A fiber that is suspended and has not been
scheduled is in the list, in the batch of the owner, or the one that a batch runner is working on; so when
nothing is left to run, nobody is suspended.
-/

namespace CppConcur.Fiber.Strand

variable {Fib : Type*}

/-! ### The last waiters of the finished batches -/

/-- The calls of the last waiters of the batches that have been released, after a step at `pc`. -/
def lastWaiters (m : Mem Fib) (last : List Nat) : Pc → List Nat
  | .releaseCas _ w oldHead => if m.head = oldHead then last ++ [(m.waiter w).call] else last
  | _ => last

/-- The runs of a strand, with the last waiters of the finished batches. -/
def recordedSystem (Fib : Type*) [DecidableEq Fib] : Logic.System (Logic.Conf Fib (Mem Fib) Pc × List Nat) where
  init s := s.1.mem = .new ∧ (∀ f, s.1.pc f = .idle) ∧ s.2 = []
  step s s' := ∃ f m' pc', Act f s.1.mem (s.1.pc f) m' pc' ∧
    s' = (⟨m', Function.update s.1.pc f pc'⟩, lastWaiters s.1.mem s.2 (s.1.pc f))

theorem recorded_combine [DecidableEq Fib] {c : Logic.Conf Fib (Mem Fib) Pc} {last : List Nat}
    (h : (recordedSystem Fib).Reachable (c, last)) (f : Fib) (a : Addr) (hout : (c.pc f).Outside) (hfree : c.mem.live a = false) :
    (recordedSystem Fib).Reachable
      (⟨c.mem.combine f a, Function.update c.pc f (.tryLoad a)⟩, lastWaiters c.mem last (c.pc f)) :=
  h.step ⟨f, _, _, .combine hout a hfree, rfl⟩

theorem recorded_step [DecidableEq Fib] {c : Logic.Conf Fib (Mem Fib) Pc} {last : List Nat}
    (h : (recordedSystem Fib).Reachable (c, last)) (f : Fib) :
    (recordedSystem Fib).Reachable
      (⟨(step f c.mem (c.pc f)).1, Function.update c.pc f (step f c.mem (c.pc f)).2⟩, lastWaiters c.mem last (c.pc f)) :=
  h.step ⟨f, _, _, .step, rfl⟩

theorem reachable_of_recorded [DecidableEq Fib] {s : Logic.Conf Fib (Mem Fib) Pc × List Nat}
    (h : (recordedSystem Fib).Reachable s) : (system Fib).Reachable s.1 := by
  induction h with
  | init hinit => exact .init ⟨hinit.1, hinit.2.1⟩
  | step _ hstep ih =>
    obtain ⟨f, m', pc', hact, rfl⟩ := hstep
    exact .step ih ⟨f, m', pc', hact, rfl⟩

/-- The fiber was the last waiter of a finished batch, it is about to be scheduled or has been scheduled,
and it has not finished its check of `waiters_head_`; if it has loaded the word, its compare-exchange will
find it unchanged. -/
def Responsible (m : Mem Fib) (pc : Fib → Pc) (last : List Nat) (g : Fib) : Prop :=
  ∃ a, (m.waiter a).call ∈ last ∧
    (pc g = .suspended a none ∨ pc g = .endLoad a ∨ ∃ p, pc g = .endCas a p ∧ m.head = .released p) ∧
    ((∃ f a', pc f = .schedule a' a none) ∨ (m.waiter a).call ∈ m.scheduled)

/-- No fiber is executing `Combine`, and every fiber that has been scheduled has run. -/
def Quiet (m : Mem Fib) (pc : Fib → Pc) : Prop :=
  ∀ f, (pc f).Outside ∨ (∃ a owner, pc f = .suspended a owner) ∧ m.ready f = false

/-! ### Owners, batches and waiters that are worked on -/

namespace Pc

/-- A fiber that owns the strand. -/
def Owner : Pc → Prop
  | .runOwn _ _ | .takeLoad _ | .takeCas _ _ | .next _ _ | .run _ _ _ | .releaseLoad _ _ | .releaseCas _ _ _
  | .schedule _ _ (some _) | .awaitSchedule _ _ | .suspended _ (some _) => True
  | _ => False

/-- The first waiter of the rest of the batch. -/
def rest : Pc → Option Addr
  | .runOwn _ b | .awaitSchedule _ b | .suspended _ (some b) | .run _ _ b | .schedule _ _ b => b
  | .next _ w => some w
  | _ => none

/-- The waiter that a batch runner has taken out of the batch and has not scheduled. -/
def Works (w : Addr) : Pc → Prop
  | .run _ w' _ | .releaseLoad _ w' | .releaseCas _ w' _ | .schedule _ w' _ => w' = w
  | _ => False

/-- The waiter whose link the awaiter may write in its next step. -/
def prepares : Pc → Option Addr
  | .awaitLoad a | .awaitCas a _ => some a
  | _ => none

end Pc

/-- A waiter of the linked list that starts at a pointer. -/
def OnChain (waiter : Addr → Waiter Fib) (p : Option Addr) (a : Addr) : Prop :=
  ∃ l, l.head? = p ∧ Chained waiter l ∧ a ∈ l

/-- A suspended waiter is in the list, in a batch, or being worked on. -/
def Reached (m : Mem Fib) (pc : Fib → Pc) (a : Addr) : Prop :=
  OnChain m.waiter m.head.stripBusyBit a ∨ ∃ g, OnChain m.waiter (pc g).rest a ∨ (pc g).Works a

theorem not_onChain_none {waiter : Addr → Waiter Fib} {a : Addr} : ¬ OnChain waiter none a := by
  rintro ⟨l, hhead, -, ha⟩
  rw [List.head?_eq_none_iff.mp hhead] at ha
  exact List.not_mem_nil ha

/-- A pointer determines the list. -/
theorem Chained.unique {waiter : Addr → Waiter Fib} {l k : List Addr} (hl : Chained waiter l) (hk : Chained waiter k)
    (hhead : l.head? = k.head?) : l = k := by
  induction l generalizing k with
  | nil => exact (List.head?_eq_none_iff.mp hhead.symm).symm
  | cons a l ih =>
    obtain ⟨k', rfl⟩ : ∃ k', k = a :: k' := List.head?_eq_some_iff.mp hhead.symm
    rw [ih hl.2 hk.2 (hl.1.symm.trans hk.1)]

/-! ### What a step does -/

/-- What an action at `pc` leaves of the waiters and of the fibers that have been scheduled. -/
structure Effect (f : Fib) (m : Mem Fib) (pc : Pc) (m' : Mem Fib) : Prop where
  call : ∀ b, m.live b = true → (m'.waiter b).call = (m.waiter b).call
  next : ∀ b, m.live b = true → pc.prepares ≠ some b → (m'.waiter b).next = (m.waiter b).next
  ready : ∀ u, u ≠ f → m.ready u = true → m'.ready u = true
  scheduled : ∀ c ∈ m.scheduled, c ∈ m'.scheduled

section Steps

variable {f : Fib} {m m' : Mem Fib} {pc : Pc}

theorem Effect.of_eq (hwaiter : m'.waiter = m.waiter) (hready : m'.ready = m.ready)
    (hscheduled : m'.scheduled = m.scheduled) : Effect f m pc m' :=
  ⟨fun _ _ => by rw [hwaiter], fun _ _ _ => by rw [hwaiter], fun _ _ h => by rw [hready, h], fun _ hc => by rwa [hscheduled]⟩

theorem prepare_effect (a : Addr) (w : Word) (hpc : pc.prepares = some a) : Effect f m pc (m.prepare a w) := by
  have hwrite (n : Option Addr) :
      Effect f m pc { m with waiter := Function.update m.waiter a { m.waiter a with next := n } } := by
    refine ⟨fun b _ => ?_, fun b _ hb => ?_, fun _ _ h => h, fun _ hc => hc⟩
    · rcases eq_or_ne b a with rfl | hne
      · simp only [Function.update_self]
      · simp only [Function.update_of_ne hne]
    · have hne : b ≠ a := by
        rintro rfl
        exact hb hpc
      simp only [Function.update_of_ne hne]
  cases w with
  | null | released => exact .of_eq rfl rfl rfl
  | dummy => exact hwrite none
  | busy p => exact hwrite (some p)

variable [DecidableEq Fib]

theorem schedule_effect (a : Addr) : Effect f m pc (m.schedule a) := by
  rw [Mem.schedule]
  split
  next g hg =>
    refine ⟨fun b _ => ?_, fun b _ _ => ?_, fun u _ hu => ?_, fun _ hc => List.mem_append_left _ hc⟩
    · rcases eq_or_ne b a with rfl | hne
      · simp only [Function.update_self]
      · simp only [Function.update_of_ne hne]
    · rcases eq_or_ne b a with rfl | hne
      · simp only [Function.update_self]
      · simp only [Function.update_of_ne hne]
    · rcases eq_or_ne u g with rfl | hne
      · exact Function.update_self ..
      · exact (Function.update_of_ne hne ..).trans hu
  · exact .of_eq rfl rfl rfl

theorem step_effect (f : Fib) (m : Mem Fib) (pc : Pc) : Effect f m pc (step f m pc).1 := by
  cases pc with
  | idle | ret | takeLoad | releaseLoad | next => exact .of_eq rfl rfl rfl
  | tryLoad a =>
    simp only [step]
    split <;> exact .of_eq rfl rfl rfl
  | tryCas a =>
    simp only [step]
    split <;> exact .of_eq rfl rfl rfl
  | runOwn a b =>
    cases b <;> exact .of_eq rfl rfl rfl
  | takeCas a w =>
    simp only [step]
    split
    · split
      · exact .of_eq rfl rfl rfl
      · cases w.stripBusyBit <;> exact .of_eq rfl rfl rfl
    · exact .of_eq rfl rfl rfl
  | run a w rest =>
    cases rest <;> exact .of_eq rfl rfl rfl
  | releaseCas a w oldHead =>
    simp only [step]
    split <;> exact .of_eq rfl rfl rfl
  | schedule a w rest =>
    have h : Effect f (m.touch w) (.schedule a w rest) ((m.touch w).schedule w) := schedule_effect w
    cases rest <;> exact ⟨h.call, h.next, h.ready, h.scheduled⟩
  | awaitLoad a => exact prepare_effect a m.head rfl
  | awaitCas a oldHead =>
    simp only [step]
    split
    · split <;> exact .of_eq rfl rfl rfl
    · exact prepare_effect a m.head rfl
  | awaitSchedule a b => exact schedule_effect a
  | suspended a owner =>
    simp only [step]
    split
    · split
      all_goals exact ⟨fun _ _ => rfl, fun _ _ _ => rfl, fun u hu h => (Function.update_of_ne hu ..).trans h, fun _ hc => hc⟩
    · exact .of_eq rfl rfl rfl
  | endLoad a =>
    simp only [step]
    split <;> exact .of_eq rfl rfl rfl
  | endCas a p =>
    simp only [step]
    split <;> exact .of_eq rfl rfl rfl

omit [DecidableEq Fib] in
theorem prepare_head (m : Mem Fib) (a : Addr) (w : Word) : (m.prepare a w).head = m.head := by
  cases w <;> rfl

theorem schedule_head (m : Mem Fib) (a : Addr) : (m.schedule a).head = m.head := by
  rw [Mem.schedule]
  split <;> rfl

/-- What an action at `pc` does to `waiters_head_`. -/
inductive HeadStep (m : Mem Fib) (pc : Pc) (m' : Mem Fib) (pc' : Pc) : Prop
  | keep (hhead : m'.head = m.head) (howner : pc.Owner → pc'.Owner)
  /-- The fiber becomes the owner or takes the next batch. -/
  | take (hhead : m'.head = .dummy) (howner : pc'.Owner) (hrest : pc'.rest = m.head.stripBusyBit)
  | push {a : Addr} (hold : m.head.Busy) (hhead : m'.head = .busy a) (hnext : (m'.waiter a).next = m.head.stripBusyBit)
      (hpc : pc.prepares = some a) (hpc' : pc' = .suspended a none)
  /-- The fiber has finished its batch and leaves the next one to the last waiter. -/
  | release {a w : Addr} {oldHead : Word} (hpc : pc = .releaseCas a w oldHead) (hold : m.head = oldHead)
      (hbusy : oldHead.Busy) (hhead : m'.head = if oldHead = .dummy then .null else oldHead.release)
      (hpc' : pc' = .schedule a w none)
  | leave (hold : m.head = .dummy) (hhead : m'.head = .null)

theorem step_headStep {x : Aux Fib} (hpc : Assertion f m x pc) : HeadStep m pc (step f m pc).1 (step f m pc).2 := by
  cases pc with
  | idle | ret => exact .keep rfl id
  | takeLoad | next | releaseLoad => exact .keep rfl fun _ => trivial
  | runOwn a b => cases b <;> exact .keep rfl fun _ => trivial
  | run a w rest => cases rest <;> exact .keep rfl fun _ => trivial
  | awaitLoad a => exact .keep (prepare_head m a m.head) (by rintro ⟨⟩)
  | awaitSchedule a b => exact .keep (schedule_head m a) fun _ => trivial
  | tryLoad a =>
    simp only [step]
    split <;> exact .keep rfl (by rintro ⟨⟩)
  | tryCas a =>
    simp only [step]
    split
    next hhead => exact .take rfl trivial (by rw [hhead]; rfl)
    · exact .keep rfl (by rintro ⟨⟩)
  | takeCas a batchHead =>
    simp only [step]
    split
    next hhead =>
      cases batchHead with
      | dummy => exact .leave hhead rfl
      | busy p => exact .take rfl trivial (by rw [hhead]; rfl)
      | null | released => exact hpc.2.2.elim
    · exact .keep rfl fun _ => trivial
  | releaseCas a w oldHead =>
    simp only [step]
    split
    next hhead => exact .release rfl hhead hpc.2.2.2.2 rfl rfl
    · exact .keep rfl fun _ => trivial
  | schedule a w rest =>
    cases rest with
    | none => exact .keep (schedule_head (m.touch w) w) (by rintro ⟨⟩)
    | some w' => exact .keep (schedule_head (m.touch w) w) fun _ => trivial
  | awaitCas a oldHead =>
    simp only [step]
    split
    next hhead =>
      cases oldHead with
      | null | released => exact .take rfl trivial (by rw [hhead]; rfl)
      | dummy => exact .push (by rw [hhead]; trivial) rfl (by rw [hhead]; exact hpc.2.1 rfl) rfl rfl
      | busy p => exact .push (by rw [hhead]; trivial) rfl (by rw [hhead]; exact hpc.2.2 p rfl) rfl rfl
    · exact .keep (prepare_head m a m.head) (by rintro ⟨⟩)
  | suspended a owner =>
    simp only [step]
    split
    · cases owner with
      | none => exact .keep rfl (by rintro ⟨⟩)
      | some b => exact .keep rfl fun _ => trivial
    · exact .keep rfl id
  | endLoad a =>
    simp only [step]
    split <;> exact .keep rfl (by rintro ⟨⟩)
  | endCas a p =>
    simp only [step]
    split
    next hhead => exact .take rfl trivial (by rw [hhead]; rfl)
    · exact .keep rfl (by rintro ⟨⟩)

/-- The rest of a batch stays where it is until its first waiter is taken out. -/
theorem step_rest (hrest : pc.rest ≠ none) :
    (step f m pc).2.rest = pc.rest ∨ ∃ a w, pc = .next a w ∧ (step f m pc).2 = .run a w (m.waiter w).next := by
  match pc, hrest with
  | .runOwn a (some w), _ | .run a w (some w'), _ | .schedule a w (some w'), _ => exact .inl rfl
  | .awaitSchedule a b, _ => exact .inl rfl
  | .next a w, _ => exact .inr ⟨a, w, rfl, rfl⟩
  | .suspended a (some b), _ =>
    left
    simp only [step]
    split <;> rfl

/-- A waiter is worked on until it is scheduled. -/
theorem step_works {w : Addr} (hworks : pc.Works w) :
    (step f m pc).2.Works w ∨ ∃ a rest, pc = .schedule a w rest := by
  match pc, hworks with
  | .run a _ none, hw | .run a _ (some _), hw | .releaseLoad a _, hw => exact .inl hw
  | .releaseCas a w' oldHead, hw =>
    left
    simp only [step]
    split <;> exact hw
  | .schedule a _ rest, rfl => exact .inr ⟨a, rest, rfl⟩

/-- All of this about one action. -/
structure Turn (f : Fib) (m : Mem Fib) (pc : Pc) (m' : Mem Fib) (pc' : Pc) : Prop where
  effect : Effect f m pc m'
  head : HeadStep m pc m' pc'
  rest : pc.rest ≠ none → pc'.rest = pc.rest ∨ ∃ a w, pc = .next a w ∧ pc' = .run a w (m.waiter w).next
  works : ∀ w, pc.Works w → pc'.Works w ∨ ∃ a rest, pc = .schedule a w rest

theorem Act.turn {x : Aux Fib} {pc' : Pc} (hact : Act f m pc m' pc') (hpc : Assertion f m x pc) : Turn f m pc m' pc' := by
  cases hact with
  | step => exact ⟨step_effect f m pc, step_headStep hpc, step_rest, fun _ => step_works⟩
  | combine hout a hfree =>
    have hne (b : Addr) (hb : m.live b = true) : b ≠ a := by
      rintro rfl
      exact absurd (hb.symm.trans hfree) nofun
    have hwaiter (b : Addr) (hb : m.live b = true) : (m.combine f a).waiter b = m.waiter b :=
      Function.update_of_ne (hne b hb) ..
    refine ⟨⟨fun b hb => by rw [hwaiter b hb], fun b hb _ => by rw [hwaiter b hb], fun _ _ h => h, fun _ hc => hc⟩,
      .keep rfl ?_, ?_, ?_⟩
    all_goals
      match pc, hout with
      | .idle, _ | .ret _, _ => exact nofun

end Steps

/-! ### A waiter stays within reach until it is scheduled -/

section Reach

variable {f g : Fib} {m m' : Mem Fib} {x : Aux Fib} {pc : Pc} {a : Addr}

theorem Good.list_head (hgood : Good m x) : x.list.head? = m.head.stripBusyBit := by
  have hword := hgood.word
  cases hhead : m.head with
  | null | dummy =>
    rw [hhead] at hword
    rw [hword.2]
    rfl
  | busy p | released p =>
    rw [hhead] at hword
    exact hword.2

theorem Assertion.held_head (hpc : Assertion g m x pc) (hrest : pc.rest ≠ none) : (x.held g).head? = pc.rest := by
  match pc, hpc, hrest with
  | .runOwn a (some w), hpc, _ => exact hpc.2.2.2.1.2
  | .next a w, hpc, _ => exact hpc.2.2
  | .run a w (some w'), hpc, _ => exact hpc.2.1.2
  | .schedule a w (some w'), hpc, _ => exact (hpc.2.2.2 w' rfl).2
  | .awaitSchedule a (some w), hpc, _ => exact hpc.2.1.2
  | .suspended a (some (some w)), hpc, _ => exact hpc.2.2.1.2

/-- The awaiter writes the link of a waiter that has not been pushed. -/
theorem Assertion.prepares_ne (hpc : Assertion f m x pc) (ha : (x.state a).Waiting) : pc.prepares ≠ some a := by
  have hne (hown : x.state a = .own) : False := by
    rw [hown] at ha
    exact ha
  match pc, hpc with
  | .awaitLoad b, hpc =>
    rintro ⟨⟩
    exact hne hpc.state
  | .awaitCas b oldHead, hpc =>
    rintro ⟨⟩
    exact hne hpc.1.state
  | .idle, _ | .tryLoad _, _ | .tryCas _, _ | .runOwn _ _, _ | .takeLoad _, _ | .takeCas _ _, _ | .next _ _, _
  | .run _ _ _, _ | .releaseLoad _ _, _ | .releaseCas _ _ _, _ | .schedule _ _ _, _ | .awaitSchedule _ _, _
  | .suspended _ _, _ | .endLoad _, _ | .endCas _ _, _ | .ret _, _ => exact nofun

theorem Chained.keep (hgood : Good m x) (hpc : Assertion f m x pc) (heffect : Effect f m pc m') {l : List Addr}
    (hl : Chained m.waiter l) (hwaiting : ∀ b ∈ l, (x.state b).Waiting) : Chained m'.waiter l := by
  refine hl.congr fun b hb => ?_
  exact heffect.next b (hgood.accessible (hwaiting b hb)).1 (hpc.prepares_ne (hwaiting b hb))

/-- An action leaves the list of the word linked. -/
theorem list_keep (hgood : Good m x) (hpc : Assertion f m x pc) (heffect : Effect f m pc m')
    (h : OnChain m.waiter m.head.stripBusyBit a) : OnChain m'.waiter m.head.stripBusyBit a := by
  obtain ⟨l, hhead, hl, ha⟩ := h
  obtain rfl := hl.unique hgood.list_chained (hhead.trans hgood.list_head.symm)
  refine ⟨x.list, hhead, hl.keep hgood hpc heffect fun b hb => ?_, ha⟩
  rw [(hgood.mem_list b).mp hb]
  trivial

/-- An action leaves the rest of a batch linked. -/
theorem rest_keep {pcg : Pc} (hgood : Good m x) (hpc : Assertion f m x pc) (heffect : Effect f m pc m')
    (hpcg : Assertion g m x pcg) (h : OnChain m.waiter pcg.rest a) : OnChain m'.waiter pcg.rest a := by
  obtain ⟨l, hhead, hl, ha⟩ := h
  have hrest : pcg.rest ≠ none := by
    intro hnone
    exact not_onChain_none ⟨l, hhead.trans hnone, hl, ha⟩
  obtain rfl := hl.unique (hgood.held_chained g) (hhead.trans (hpcg.held_head hrest).symm)
  refine ⟨x.held g, hhead, hl.keep hgood hpc heffect fun b hb => ?_, ha⟩
  rw [(hgood.mem_held g b).mp hb]
  trivial

theorem Word.Busy.strip_release {w : Word} (h : w.Busy) :
    (if w = .dummy then Word.null else w.release).stripBusyBit = w.stripBusyBit := by
  match w, h with
  | .dummy, _ | .busy _, _ => rfl

variable [DecidableEq Fib] {pcs : Fib → Pc} {pc' : Pc}

theorem Reached.act (hgood : Good m x) (hpc : ∀ f, Assertion f m x (pcs f)) (hturn : Turn f m (pcs f) m' pc')
    (h : Reached m pcs a) (hnot : ∀ a' rest, pcs f ≠ .schedule a' a rest) : Reached m' (Function.update pcs f pc') a := by
  have hself : Function.update pcs f pc' f = pc' := Function.update_self ..
  rcases h with hlist | ⟨g, hrest | hworks⟩
  · have hlist' := list_keep hgood (hpc f) hturn.effect hlist
    cases hturn.head with
    | keep hhead _ => exact .inl (by rw [hhead]; exact hlist')
    | take _ _ hrest => exact .inr ⟨f, .inl (by rw [hself, hrest]; exact hlist')⟩
    | @push a' _ hhead hnext _ _ =>
      obtain ⟨l, hl, hchained, ha⟩ := hlist'
      exact .inl ⟨a' :: l, by rw [hhead]; rfl, ⟨hnext.trans hl.symm, hchained⟩, List.mem_cons_of_mem a' ha⟩
    | release _ hold hbusy hhead _ =>
      left
      rw [hold] at hlist'
      rw [hhead, hbusy.strip_release]
      exact hlist'
    | leave hold _ =>
      rw [hold] at hlist'
      exact absurd hlist' not_onChain_none
  · have hrest' := rest_keep hgood (hpc f) hturn.effect (hpc g) hrest
    rcases eq_or_ne g f with rfl | hg
    · have hne : (pcs g).rest ≠ none := fun hnone => not_onChain_none (hnone ▸ hrest)
      rcases hturn.rest hne with hsame | ⟨a₁, w, hold, hnew⟩
      · exact .inr ⟨g, .inl (by rw [hself, hsame]; exact hrest')⟩
      · -- the first waiter of the batch is taken out
        have hpcg := hpc g
        rw [hold] at hrest' hpcg
        obtain ⟨l, hl, hchained, ha⟩ := hrest'
        obtain ⟨l', rfl⟩ : ∃ l', l = w :: l' := List.head?_eq_some_iff.mp hl
        rcases List.mem_cons.mp ha with rfl | ha
        · exact .inr ⟨g, .inr (by rw [hself, hnew]; exact rfl)⟩
        · have hwaiting : (x.state w).Waiting := by
            have hmem : w ∈ x.held g := List.mem_of_head? hpcg.2.2
            rw [(hgood.mem_held g w).mp hmem]
            trivial
          have hnext := hturn.effect.next w (hgood.accessible hwaiting).1 (by rw [hold]; exact nofun)
          refine .inr ⟨g, .inl ⟨l', ?_, hchained.2, ha⟩⟩
          rw [hself, hnew]
          exact hchained.1.symm.trans hnext
    · exact .inr ⟨g, .inl (by rw [Function.update_of_ne hg]; exact hrest')⟩
  · rcases eq_or_ne g f with rfl | hg
    · rcases hturn.works a hworks with hworks' | ⟨a', rest, hold⟩
      · exact .inr ⟨g, .inr (by rw [hself]; exact hworks')⟩
      · exact absurd hold (hnot a' rest)
    · exact .inr ⟨g, .inr (by rw [Function.update_of_ne hg]; exact hworks)⟩

/-- How a fiber comes to be suspended. -/
theorem step_suspended {owner : Option (Option Addr)} (h : (step f m pc).2 = .suspended a owner) :
    (pc = .suspended a owner ∧ m.ready f = false) ∨ (∃ b, pc = .awaitSchedule a b) ∨
      (owner = none ∧ ∃ w, pc = .awaitCas a w ∧ m.head = w ∧ w.Busy ∧ (step f m pc).1 = m.setHead (.busy a)) := by
  cases pc with
  | idle | takeLoad | next | releaseLoad | awaitLoad | ret => cases h
  | runOwn a b => cases b <;> cases h
  | run a w rest => cases rest <;> cases h
  | schedule a w rest => cases rest <;> cases h
  | tryLoad a =>
    simp only [step] at h
    split at h <;> cases h
  | tryCas a =>
    simp only [step] at h
    split at h <;> cases h
  | takeCas a w =>
    simp only [step] at h
    split at h
    · split at h
      · cases h
      · cases hstrip : w.stripBusyBit <;> rw [hstrip] at h <;> cases h
    · cases h
  | releaseCas a w oldHead =>
    simp only [step] at h
    split at h <;> cases h
  | awaitCas b oldHead =>
    simp only [step] at h ⊢
    split at h
    next hhead =>
      rw [if_pos hhead]
      cases oldHead with
      | null | released => cases h
      | dummy | busy =>
        cases h
        exact .inr (.inr ⟨rfl, _, rfl, hhead, trivial, rfl⟩)
    · cases h
  | awaitSchedule b batch =>
    cases h
    exact .inr (.inl ⟨batch, rfl⟩)
  | suspended b o =>
    simp only [step] at h
    split at h
    · cases o <;> cases h
    next hready =>
      cases h
      exact .inl ⟨rfl, Bool.eq_false_iff.mpr hready⟩
  | endLoad a =>
    simp only [step] at h
    split at h <;> cases h
  | endCas a p =>
    simp only [step] at h
    split at h <;> cases h

/-- A fiber that is scheduled is ready, and its call is among the scheduled ones. -/
theorem schedule_ready {w : Addr} (hfiber : (m.waiter w).fiber = some g) :
    (m.schedule w).ready g = true ∧ (m.waiter w).call ∈ (m.schedule w).scheduled := by
  rw [schedule_eq hfiber]
  exact ⟨Function.update_self .., List.mem_append_right _ (List.mem_singleton_self _)⟩

omit [DecidableEq Fib] in
/-- A fiber whose waiter is waiting is suspended. -/
theorem Assertion.suspended_of_waiting (hpc : Assertion g m x pc) (hown : x.own g = some a) (ha : (x.state a).Waiting) :
    pc = .suspended a none := by
  have hne {b : Addr} (hb : x.own g = some b) (hstate : x.state b = .own ∨ x.state b = .woken) : False := by
    obtain rfl := Option.some.inj (hown.symm.trans hb)
    rcases hstate with hstate | hstate <;> rw [hstate] at ha <;> exact ha
  have hfresh {b : Addr} (h : Fresh m x g b) : False := hne h.own (.inl h.state)
  have hdone {b : Addr} (h : Done m x g b) : False := hne h.own h.state
  cases pc with
  | idle => exact absurd (hown.symm.trans hpc.1) nofun
  | ret => exact absurd (hown.symm.trans hpc.1) nofun
  | tryLoad | tryCas | awaitLoad => exact (hfresh hpc).elim
  | awaitCas | awaitSchedule => exact (hfresh hpc.1).elim
  | runOwn => exact (hne hpc.1 (.inl hpc.2.1)).elim
  | takeLoad | takeCas | next | run | releaseLoad | releaseCas | schedule => exact (hdone hpc.1).elim
  | endLoad | endCas => exact (hdone hpc).elim
  | suspended b owner =>
    cases owner with
    | none => rw [Option.some.inj (hown.symm.trans hpc.1)]
    | some batch => exact (hne hpc.1 (.inl hpc.2.1)).elim

end Reach

/-! ### What the word and the waiters say -/

/-- The invariant of a run. -/
structure Progress (m : Mem Fib) (pc : Fib → Pc) (last : List Nat) : Prop where
  owner : m.head.Busy → ∃ f, (pc f).Owner
  awake : ∀ f a b, pc f = .suspended a (some b) → m.ready f = true
  responsible : ∀ p, m.head = .released p → ∃ g, Responsible m pc last g
  reached : ∀ f a, pc f = .suspended a none → m.ready f = false → Reached m pc a

section Runs

variable {m m' : Mem Fib} {x : Aux Fib} {pc : Fib → Pc} {last : List Nat}

/-- Nothing is left to run, so nobody is in the strand. -/
theorem Progress.quiet (h : Progress m pc last) (hgood : Good m x) (hpc : ∀ f, Assertion f m x (pc f))
    (hquiet : Quiet m pc) :
    m.head = .null ∧ ∀ f, (pc f).Outside := by
  have hcases (f : Fib) : pc f = .idle ∨ (∃ k, pc f = .ret k) ∨ ∃ a, pc f = .suspended a none ∧ m.ready f = false := by
    rcases hquiet f with hout | ⟨⟨a, owner, hf⟩, hready⟩
    · cases hf : pc f with
      | idle => exact .inl rfl
      | ret k => exact .inr (.inl ⟨k, rfl⟩)
      | _ =>
        rw [hf] at hout
        exact hout.elim
    · cases owner with
      | none => exact .inr (.inr ⟨a, hf, hready⟩)
      | some b => exact absurd (hready.symm.trans (h.awake f a b hf)) nofun
  have howner (f : Fib) : ¬ (pc f).Owner := by
    rcases hcases f with hf | ⟨_, hf⟩ | ⟨_, hf, -⟩ <;> rw [hf] <;> exact id
  have hworks (f : Fib) (a : Addr) : ¬ (pc f).Works a := by
    rcases hcases f with hf | ⟨_, hf⟩ | ⟨_, hf, -⟩ <;> rw [hf] <;> exact id
  have hrest (f : Fib) : (pc f).rest = none := by
    rcases hcases f with hf | ⟨_, hf⟩ | ⟨_, hf, -⟩ <;> rw [hf] <;> rfl
  have hnull : m.head = .null := by
    cases hhead : m.head with
    | null => rfl
    | dummy | busy =>
      obtain ⟨f, hf⟩ := h.owner (by rw [hhead]; trivial)
      exact (howner f hf).elim
    | released p =>
      obtain ⟨g, a, -, hat, hsched⟩ := h.responsible p hhead
      have hsuspended : pc g = .suspended a none := by
        rcases hat with hat | hat | ⟨_, hat, -⟩
        · exact hat
        all_goals rcases hcases g with hg | ⟨_, hg⟩ | ⟨_, hg, -⟩ <;> cases hat.symm.trans hg
      have hready : m.ready g = false := by
        rcases hcases g with hg | ⟨_, hg⟩ | ⟨_, -, hready⟩
        · cases hsuspended.symm.trans hg
        · cases hsuspended.symm.trans hg
        · exact hready
      have hpcg := hpc g
      rw [hsuspended] at hpcg
      rcases hsched with ⟨f, a', hf⟩ | hmem
      · exact (hworks f a (by rw [hf]; rfl)).elim
      · rcases hpcg.2 with hwaiting | ⟨-, hready'⟩
        · exact (hgood.unscheduled a hwaiting hmem).elim
        · cases hready.symm.trans hready'
  refine ⟨hnull, fun f => ?_⟩
  rcases hcases f with hf | ⟨_, hf⟩ | ⟨a, hf, hready⟩
  · rw [hf]
    trivial
  · rw [hf]
    trivial
  · rcases h.reached f a hf hready with hlist | ⟨g, hbatch | hwork⟩
    · rw [hnull] at hlist
      exact (not_onChain_none hlist).elim
    · rw [hrest g] at hbatch
      exact (not_onChain_none hbatch).elim
    · exact (hworks g a hwork).elim

variable [DecidableEq Fib] {f : Fib} {pc' : Pc}

theorem Progress.owner_act (h : Progress m pc last) (hturn : Turn f m (pc f) m' pc') (hbusy : m'.head.Busy) :
    ∃ g, (Function.update pc f pc' g).Owner := by
  have hself : Function.update pc f pc' f = pc' := Function.update_self ..
  cases hturn.head with
  | keep hhead howner =>
    obtain ⟨g, hg⟩ := h.owner (by rw [← hhead]; exact hbusy)
    refine ⟨g, ?_⟩
    rcases eq_or_ne g f with rfl | hne
    · rw [hself]
      exact howner hg
    · rw [Function.update_of_ne hne]
      exact hg
  | take _ howner _ => exact ⟨f, by rw [hself]; exact howner⟩
  | @push a hold _ _ hprepares _ =>
    obtain ⟨g, hg⟩ := h.owner hold
    have hne : g ≠ f := by
      rintro rfl
      match hpc : pc g, hprepares with
      | .awaitLoad _, _ | .awaitCas _ _, _ =>
        rw [hpc] at hg
        exact hg
    exact ⟨g, by rw [Function.update_of_ne hne]; exact hg⟩
  | @release _ _ oldHead _ _ hold hhead _ =>
    rw [hhead] at hbusy
    match oldHead, hold with
    | .dummy, _ | .busy _, _ => exact hbusy.elim
  | leave _ hhead =>
    rw [hhead] at hbusy
    exact hbusy.elim

theorem Progress.awake_act (h : Progress m pc last) (hpc : ∀ f, Assertion f m x (pc f)) (hact : Act f m (pc f) m' pc')
    (u : Fib) (a : Addr) (b : Option Addr) (hu : Function.update pc f pc' u = .suspended a (some b)) : m'.ready u = true := by
  have heffect := (hact.turn (hpc f)).effect
  rcases eq_or_ne u f with rfl | hne
  · rw [Function.update_self] at hu
    cases hact with
    | combine => cases hu
    | step =>
      rcases step_suspended hu with ⟨hold, hready⟩ | ⟨b', hold⟩ | ⟨hnone, -⟩
      · exact absurd (hready.symm.trans (h.awake u a b hold)) nofun
      · have hfresh := hpc u
        rw [hold] at hfresh ⊢
        exact (schedule_ready hfresh.1.fiber).1
      · cases hnone
  · rw [Function.update_of_ne hne] at hu
    exact heffect.ready u hne (h.awake u a b hu)

/-- The step that schedules a waiter. -/
theorem schedule_act {a a' : Addr} {rest : Option Addr} {g : Fib} (hgood : Good m x)
    (hpc : Assertion f m x (.schedule a' a rest)) (hact : Act f m (.schedule a' a rest) m' pc') (hown : x.own g = some a) :
    m'.ready g = true ∧ (m.waiter a).call ∈ m'.scheduled := by
  have hwaiting : (x.state a).Waiting := by
    rw [hpc.2.1.state]
    trivial
  obtain ⟨g', hfiber, hown', -⟩ := hgood.waiting a hwaiting
  obtain rfl := hgood.own_inj g g' a hown hown'
  have hready := schedule_ready hfiber
  cases hact with
  | combine hout => exact hout.elim
  | step =>
    simp only [step, touch_eq (hgood.accessible hwaiting)]
    cases rest <;> exact hready

theorem Progress.reached_act (h : Progress m pc last) (hgood : Good m x) (hpc : ∀ f, Assertion f m x (pc f))
    (hact : Act f m (pc f) m' pc') (u : Fib) (a : Addr) (hu : Function.update pc f pc' u = .suspended a none)
    (hready : m'.ready u = false) : Reached m' (Function.update pc f pc') a := by
  have hturn := hact.turn (hpc f)
  rcases eq_or_ne u f with rfl | hne
  · rw [Function.update_self] at hu
    cases hact with
    | combine => cases hu
    | step =>
      rcases step_suspended hu with ⟨hold, hready'⟩ | ⟨b, hold⟩ | ⟨-, w, hold, hhead, hbusy, hnew⟩
      · exact (h.reached u a hold hready').act hgood hpc hturn (by rw [hold]; exact nofun)
      · rw [hold] at hu
        cases hu
      · -- the waiter has just been pushed
        left
        have hnext : (m.waiter a).next = x.list.head? := by
          have hpcu := hpc u
          rw [hold] at hpcu
          rw [hgood.list_head, hhead]
          match w, hbusy with
          | .dummy, _ => exact hpcu.2.1 rfl
          | .busy p, _ => exact hpcu.2.2 p rfl
        rw [hnew]
        exact ⟨a :: x.list, rfl, ⟨hnext, hgood.list_chained⟩, List.mem_cons_self⟩
  · rw [Function.update_of_ne hne] at hu
    have hready' : m.ready u = false := by
      refine Bool.eq_false_iff.mpr fun htrue => ?_
      exact absurd (hready.symm.trans (hturn.effect.ready u hne htrue)) nofun
    refine (h.reached u a hu hready').act hgood hpc hturn fun a' rest hf => ?_
    have hown : x.own u = some a := by
      have hpcu := hpc u
      rw [hu] at hpcu
      exact hpcu.1
    have hpcf := hpc f
    rw [hf] at hact hpcf
    exact absurd (hready.symm.trans (schedule_act hgood hpcf hact hown).1) nofun

omit [DecidableEq Fib] in
theorem subset_lastWaiters (m : Mem Fib) (last : List Nat) (p : Pc) : last ⊆ lastWaiters m last p := by
  cases p with
  | releaseCas a w oldHead =>
    simp only [lastWaiters]
    split
    · exact List.subset_append_left ..
    · exact List.Subset.refl _
  | _ => exact List.Subset.refl _

/-- A fiber that checks the word while the list is there has not finished, unless it has taken the list. -/
theorem check_act {p : Pc} {a q : Addr} (hact : Act f m p m' pc')
    (hat : p = .suspended a none ∨ p = .endLoad a ∨ ∃ q', p = .endCas a q' ∧ m.head = .released q')
    (hhead : m.head = .released q) (hhead' : m'.head = .released q) :
    pc' = .suspended a none ∨ pc' = .endLoad a ∨ ∃ q', pc' = .endCas a q' ∧ m'.head = .released q' := by
  rcases hat with rfl | rfl | ⟨q', rfl, hq'⟩
  · cases hact with
    | combine hout => exact hout.elim
    | step =>
      simp only [step]
      split
      · exact .inr (.inl rfl)
      · exact .inl rfl
  · cases hact with
    | combine hout => exact hout.elim
    | step =>
      simp only [step, hhead]
      exact .inr (.inr ⟨q, rfl, rfl⟩)
  · cases hact with
    | combine hout => exact hout.elim
    | step =>
      simp only [step, if_pos hq'] at hhead'
      cases hhead'

/-- The list is still there, so the fiber that has to take it has not finished its check. -/
theorem Responsible.act {g : Fib} {p : Addr} (h : Responsible m pc last g) (hgood : Good m x)
    (hpc : ∀ f, Assertion f m x (pc f)) (hact : Act f m (pc f) m' pc') (hhead : m.head = .released p)
    (hhead' : m'.head = .released p) :
    Responsible m' (Function.update pc f pc') (lastWaiters m last (pc f)) g := by
  have heffect := (hact.turn (hpc f)).effect
  obtain ⟨a, hlast, hat, hsched⟩ := h
  have hown : x.own g = some a := by
    have hpcg := hpc g
    rcases hat with hat | hat | ⟨_, hat, -⟩ <;> rw [hat] at hpcg
    · exact hpcg.1
    · exact hpcg.own
    · exact hpcg.own
  have hcall : (m'.waiter a).call = (m.waiter a).call :=
    heffect.call a ((hgood.live_iff a).mpr (hgood.own_live g a hown))
  refine ⟨a, ?_, ?_, ?_⟩
  · rw [hcall]
    exact subset_lastWaiters m last (pc f) hlast
  · rcases eq_or_ne g f with rfl | hne
    · rw [Function.update_self]
      exact check_act hact hat hhead hhead'
    · rw [Function.update_of_ne hne]
      rcases hat with hat | hat | ⟨q, hat, hq⟩
      · exact .inl hat
      · exact .inr (.inl hat)
      · exact .inr (.inr ⟨q, hat, hhead'.trans (hhead.symm.trans hq)⟩)
  · rw [hcall]
    rcases hsched with ⟨f', a', hf'⟩ | hmem
    · rcases eq_or_ne f' f with rfl | hne
      · have hpcf := hpc f'
        rw [hf'] at hact hpcf
        exact .inr (schedule_act hgood hpcf hact hown).2
      · exact .inl ⟨f', a', by rw [Function.update_of_ne hne]; exact hf'⟩
    · exact .inr (heffect.scheduled _ hmem)

/-- The fiber that leaves the list behind is about to schedule the last waiter of its batch. -/
theorem responsible_of_release {a w : Addr} {oldHead : Word} (hgood : Good m x) (hpc : ∀ f, Assertion f m x (pc f))
    (hold : pc f = .releaseCas a w oldHead) (hhead : m.head = oldHead) (hwaiter : (m'.waiter w).call = (m.waiter w).call) :
    ∃ g, Responsible m' (Function.update pc f (.schedule a w none)) (lastWaiters m last (pc f)) g := by
  have hpcf := hpc f
  rw [hold] at hpcf
  have hwaiting : (x.state w).Waiting := by
    rw [hpcf.2.2.1.state]
    trivial
  obtain ⟨g, -, hown, -⟩ := hgood.waiting w hwaiting
  have hg := (hpc g).suspended_of_waiting hown hwaiting
  have hne : g ≠ f := by
    rintro rfl
    cases hg.symm.trans hold
  refine ⟨g, w, ?_, .inl (by rw [Function.update_of_ne hne]; exact hg), .inl ⟨f, a, Function.update_self ..⟩⟩
  rw [hwaiter, hold, lastWaiters, if_pos hhead]
  exact List.mem_append_right _ (List.mem_singleton_self _)

theorem Progress.responsible_act (h : Progress m pc last) (hgood : Good m x) (hpc : ∀ f, Assertion f m x (pc f))
    (hact : Act f m (pc f) m' pc') (p : Addr) (hhead' : m'.head = .released p) :
    ∃ g, Responsible m' (Function.update pc f pc') (lastWaiters m last (pc f)) g := by
  have hturn := hact.turn (hpc f)
  cases hturn.head with
  | keep hsame _ =>
    have hhead : m.head = .released p := hsame.symm.trans hhead'
    obtain ⟨g, hg⟩ := h.responsible p hhead
    exact ⟨g, hg.act hgood hpc hact hhead hhead'⟩
  | take hnew _ _ => cases hnew.symm.trans hhead'
  | push _ hnew _ _ _ => cases hnew.symm.trans hhead'
  | @release a w oldHead hold hhead _ _ hnew =>
    obtain rfl := hnew
    apply responsible_of_release hgood hpc hold hhead
    have hpcf := hpc f
    rw [hold] at hpcf
    refine hturn.effect.call w ((hgood.live_iff w).mpr ?_)
    rw [hpcf.2.2.1.state]
    exact nofun
  | leave _ hnew => cases hnew.symm.trans hhead'

theorem progress_of_reachable {s : Logic.Conf Fib (Mem Fib) Pc × List Nat} (h : (recordedSystem Fib).Reachable s) :
    Progress s.1.mem s.1.pc s.2 := by
  apply h.invariant
  · rintro s ⟨hmem, hidle, -⟩
    refine ⟨fun hbusy => ?_, fun f a b hf => ?_, fun p hp => ?_, fun f a hf => ?_⟩
    · rw [hmem] at hbusy
      exact hbusy.elim
    · cases (hidle f).symm.trans hf
    · rw [hmem] at hp
      cases hp
    · cases (hidle f).symm.trans hf
  · rintro ⟨c, last⟩ _ hreach hprogress ⟨f, m', pc', hact, rfl⟩
    obtain ⟨x, hgood, hpc⟩ := good_of_reachable (reachable_of_recorded hreach)
    exact ⟨hprogress.owner_act (hact.turn (hpc f)), hprogress.awake_act hpc hact, hprogress.responsible_act hgood hpc hact,
      hprogress.reached_act hgood hpc hact⟩

/-- For any number of fibers and any interleaving: as long as there is a released list in `waiters_head_`,
there is a fiber that was the last waiter of a finished batch, is about to be scheduled or has been
scheduled, and has not finished its check of `waiters_head_`. When all scheduled fibers have run and no
`Combine` is executing, `waiters_head_` is null and no fiber is suspended in the strand. -/
theorem no_stranded_batch (c : Logic.Conf Fib (Mem Fib) Pc) (last : List Nat)
    (h : (recordedSystem Fib).Reachable (c, last)) :
    (∀ p, c.mem.head = .released p → ∃ g, Responsible c.mem c.pc last g) ∧
      (Quiet c.mem c.pc → c.mem.head = .null ∧ ∀ f, (c.pc f).Outside) := by
  have hprogress := progress_of_reachable h
  obtain ⟨x, hgood, hpc⟩ := good_of_reachable (reachable_of_recorded h)
  exact ⟨hprogress.responsible, hprogress.quiet hgood hpc⟩

end Runs

/-- The fiber 0 runs the critical section of the fiber 1 and leaves the fiber 2 in the list. -/
theorem no_stranded_batch_three : ∃ (c : Logic.Conf (Fin 3) (Mem (Fin 3)) Pc) (last : List Nat),
    (recordedSystem (Fin 3)).Reachable (c, last) ∧ c.mem.head = .released 2 ∧ ∃ g, Responsible c.mem c.pc last g := by
  have h₀ : (recordedSystem (Fin 3)).Reachable (⟨.new, fun _ => .idle⟩, []) := .init ⟨rfl, fun _ => rfl, rfl⟩
  have h₁ := recorded_combine h₀ 0 0 trivial rfl
  have h₂ := recorded_step h₁ 0
  have h₃ := recorded_step h₂ 0
  have h₄ := recorded_combine h₃ 1 1 trivial rfl
  have h₅ := recorded_step h₄ 1
  have h₆ := recorded_step h₅ 1
  have h₇ := recorded_step h₆ 1
  have h₈ := recorded_step h₇ 0
  have h₉ := recorded_step h₈ 0
  have h₁₀ := recorded_step h₉ 0
  have h₁₁ := recorded_combine h₁₀ 2 2 trivial rfl
  have h₁₂ := recorded_step h₁₁ 2
  have h₁₃ := recorded_step h₁₂ 2
  have h₁₄ := recorded_step h₁₃ 2
  have h₁₅ := recorded_step h₁₄ 0
  have h₁₆ := recorded_step h₁₅ 0
  have h₁₇ := recorded_step h₁₆ 0
  have h₁₈ := recorded_step h₁₇ 0
  exact ⟨_, _, h₁₈, rfl, (no_stranded_batch _ _ h₁₈).1 2 rfl⟩

end CppConcur.Fiber.Strand
