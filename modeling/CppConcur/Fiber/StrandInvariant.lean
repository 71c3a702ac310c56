import CppConcur.Fiber.Strand
import Mathlib.Data.List.Nodup

/-!
# What a strand keeps

A waiter is private to its fiber until it is pushed, then it is in the list of `waiters_head_`, then in the
batch of one fiber, then the one that fiber is working on, and when its fiber has been scheduled it is private
again. `Aux` tracks this for each waiter, and which fiber owns the strand. The word says whether there is an
owner and where the list starts; only the owner has a batch.
-/

namespace CppConcur.Fiber.Strand

variable {Fib : Type*}

/-- Where a waiter is. -/
inductive State (Fib : Type*) where
  | free
  | own
  | listed
  | held (f : Fib)
  | current (f : Fib)
  | woken

/-- A waiter whose fiber is suspended and has not been scheduled. -/
def State.Waiting : State Fib → Prop
  | .listed | .held _ | .current _ => True
  | _ => False

/-- The auxiliary value of the proof. -/
structure Aux (Fib : Type*) where
  holder : Option Fib
  list : List Addr
  /-- The rest of the batch of a fiber. -/
  held : Fib → List Addr
  state : Addr → State Fib
  /-- The waiter of the call a fiber is in. -/
  own : Fib → Option Addr

/-- The waiters of a list are linked, and the last one has no successor. -/
def Chained (waiter : Addr → Waiter Fib) : List Addr → Prop
  | [] => True
  | a :: rest => (waiter a).next = rest.head? ∧ Chained waiter rest

/-- What `waiters_head_` says. -/
def WordOk (x : Aux Fib) : Word → Prop
  | .null => x.holder = none ∧ x.list = []
  | .dummy => x.holder ≠ none ∧ x.list = []
  | .busy a => x.holder ≠ none ∧ x.list.head? = some a
  | .released a => x.holder = none ∧ x.list.head? = some a

/-- The invariant of the memory. -/
structure Good (m : Mem Fib) (x : Aux Fib) : Prop where
  word : WordOk x m.head
  list_nodup : x.list.Nodup
  mem_list : ∀ a, a ∈ x.list ↔ x.state a = .listed
  list_chained : Chained m.waiter x.list
  held_nodup : ∀ f, (x.held f).Nodup
  mem_held : ∀ f a, a ∈ x.held f ↔ x.state a = .held f
  held_chained : ∀ f, Chained m.waiter (x.held f)
  held_holder : ∀ f, x.held f ≠ [] → x.holder = some f
  live_iff : ∀ a, m.live a = true ↔ x.state a ≠ .free
  own_live : ∀ f a, x.own f = some a → x.state a ≠ .free
  own_inj : ∀ f g a, x.own f = some a → x.own g = some a → f = g
  waiting : ∀ a, (x.state a).Waiting → ∃ f, (m.waiter a).fiber = some f ∧ x.own f = some a ∧ m.ready f = false
  unscheduled : ∀ a, (x.state a).Waiting → (m.waiter a).call ∉ m.scheduled
  unstarted : ∀ a, x.state a = .listed ∨ (∃ f, x.state a = .held f) → (m.waiter a).call ∉ m.started
  woken : ∀ a, x.state a = .woken → (m.waiter a).call ∈ m.finished
  call_lt : ∀ a, x.state a ≠ .free → (m.waiter a).call < m.calls
  call_inj : ∀ a b, x.state a ≠ .free → x.state b ≠ .free → (m.waiter a).call = (m.waiter b).call → a = b
  started_lt : ∀ c ∈ m.started, c < m.calls
  started_nodup : m.started.Nodup
  finished_started : ∀ c ∈ m.finished, c ∈ m.started
  scheduled_lt : ∀ c ∈ m.scheduled, c < m.calls
  scheduled_nodup : m.scheduled.Nodup
  scheduled_ok : ∀ c ∈ m.scheduled, c ∈ m.finished ∨ c ∈ m.owners
  fault : m.fault = false

/-! ### What a fiber knows -/

/-- The waiter of a fiber that has not been pushed yet, and whose critical section has not begun. -/
structure Fresh (m : Mem Fib) (x : Aux Fib) (f : Fib) (a : Addr) : Prop where
  own : x.own f = some a
  state : x.state a = .own
  ready : m.ready f = false
  fiber : (m.waiter a).fiber = some f
  unstarted : (m.waiter a).call ∉ m.started
  unscheduled : (m.waiter a).call ∉ m.scheduled

/-- The waiter of a fiber whose critical section has been executed. -/
structure Done (m : Mem Fib) (x : Aux Fib) (f : Fib) (a : Addr) : Prop where
  own : x.own f = some a
  state : x.state a = .own ∨ x.state a = .woken
  ready : m.ready f = false
  finished : (m.waiter a).call ∈ m.finished

/-- The waiter a batch runner is working on. -/
structure Current (m : Mem Fib) (x : Aux Fib) (f : Fib) (w : Addr) : Prop where
  state : x.state w = .current f
  started : (m.waiter w).call ∈ m.started

/-- The fiber owns the strand, and this is the head of its batch. -/
def Holds (x : Aux Fib) (f : Fib) (batch : Option Addr) : Prop := x.holder = some f ∧ (x.held f).head? = batch

/-- What the owner can have read of `waiters_head_`. -/
def Word.Busy : Word → Prop
  | .dummy | .busy _ => True
  | _ => False

/-- What a fiber knows at each step of `Combine`. -/
def Assertion (f : Fib) (m : Mem Fib) (x : Aux Fib) : Pc → Prop
  | .idle => x.own f = none ∧ m.ready f = false
  | .tryLoad a | .tryCas a | .awaitLoad a => Fresh m x f a
  | .runOwn a batch => x.own f = some a ∧ x.state a = .own ∧ m.ready f = false ∧ Holds x f batch ∧
      (m.waiter a).call ∈ m.started
  | .takeLoad a => Done m x f a ∧ Holds x f none
  | .takeCas a batchHead => Done m x f a ∧ Holds x f none ∧ batchHead.Busy
  | .next a w => Done m x f a ∧ Holds x f (some w)
  | .run a w rest => Done m x f a ∧ Holds x f rest ∧ Current m x f w
  | .releaseLoad a w => Done m x f a ∧ Holds x f none ∧ Current m x f w ∧ (m.waiter w).call ∈ m.finished
  | .releaseCas a w oldHead => Done m x f a ∧ Holds x f none ∧ Current m x f w ∧
      (m.waiter w).call ∈ m.finished ∧ oldHead.Busy
  | .schedule a w rest => Done m x f a ∧ Current m x f w ∧ (m.waiter w).call ∈ m.finished ∧
      ∀ w', rest = some w' → Holds x f rest
  | .awaitCas a oldHead => Fresh m x f a ∧ (oldHead = .dummy → (m.waiter a).next = none) ∧
      ∀ p, oldHead = .busy p → (m.waiter a).next = some p
  | .awaitSchedule a batch => Fresh m x f a ∧ Holds x f batch ∧ (m.waiter a).call ∈ m.owners
  | .suspended a none => x.own f = some a ∧ ((x.state a).Waiting ∨ x.state a = .woken ∧ m.ready f = true)
  | .suspended a (some batch) => x.own f = some a ∧ x.state a = .own ∧ Holds x f batch ∧
      (m.waiter a).call ∉ m.started
  | .endLoad a | .endCas a _ => Done m x f a
  | .ret c => x.own f = none ∧ m.ready f = false ∧ c ∈ m.finished

/-! ### How an action of another fiber changes the memory -/

/-- What stays the same about the histories of a call. -/
def SameCall (m m' : Mem Fib) (a : Addr) : Prop :=
  (m'.waiter a).call = (m.waiter a).call ∧ ((m'.waiter a).call ∈ m'.started ↔ (m.waiter a).call ∈ m.started) ∧
    ((m'.waiter a).call ∈ m'.scheduled ↔ (m.waiter a).call ∈ m.scheduled)

/-- What a fiber may rely on when other fibers act. -/
structure Evolves (f : Fib) (m : Mem Fib) (x : Aux Fib) (m' : Mem Fib) (x' : Aux Fib) : Prop where
  own : x'.own f = x.own f
  ready : x.own f = none → m'.ready f = m.ready f
  mine : ∀ a, x.own f = some a → x.state a = .own →
    x'.state a = .own ∧ m'.waiter a = m.waiter a ∧ m'.ready f = m.ready f ∧ SameCall m m' a
  woken : ∀ a, x.own f = some a → x.state a = .woken →
    x'.state a = .woken ∧ m'.ready f = m.ready f ∧ (m'.waiter a).call = (m.waiter a).call
  waiting : ∀ a, x.own f = some a → (x.state a).Waiting →
    (x'.state a).Waiting ∨ x'.state a = .woken ∧ m'.ready f = true
  current : ∀ w, x.state w = .current f → x'.state w = .current f ∧ SameCall m m' w
  finished : ∀ c ∈ m.finished, c ∈ m'.finished
  owners : ∀ c ∈ m.owners, c ∈ m'.owners
  holder : x.holder = some f → x'.holder = some f
  held : x'.held f = x.held f

section Stable

variable {f : Fib} {m m' : Mem Fib} {x x' : Aux Fib}

theorem Fresh.stable (h : Evolves f m x m' x') {a : Addr} (hfresh : Fresh m x f a) : Fresh m' x' f a := by
  obtain ⟨hstate, hwaiter, hready, -, hstarted, hscheduled⟩ := h.mine a hfresh.own hfresh.state
  refine ⟨h.own.trans hfresh.own, hstate, hready.trans hfresh.ready, ?_, ?_, ?_⟩
  · rw [hwaiter]
    exact hfresh.fiber
  · rw [hstarted]
    exact hfresh.unstarted
  · rw [hscheduled]
    exact hfresh.unscheduled

theorem Done.stable (h : Evolves f m x m' x') {a : Addr} (hdone : Done m x f a) : Done m' x' f a := by
  have hown := h.own.trans hdone.own
  rcases hdone.state with hstate | hstate
  · obtain ⟨hstate', hwaiter, hready, -⟩ := h.mine a hdone.own hstate
    refine ⟨hown, .inl hstate', hready.trans hdone.ready, h.finished _ ?_⟩
    rw [hwaiter]
    exact hdone.finished
  · obtain ⟨hstate', hready, hcall⟩ := h.woken a hdone.own hstate
    refine ⟨hown, .inr hstate', hready.trans hdone.ready, h.finished _ ?_⟩
    rw [hcall]
    exact hdone.finished

theorem Current.stable (h : Evolves f m x m' x') {w : Addr} (hcurrent : Current m x f w) : Current m' x' f w := by
  obtain ⟨hstate, -, hstarted, -⟩ := h.current w hcurrent.state
  exact ⟨hstate, hstarted.mpr hcurrent.started⟩

theorem Evolves.finished_current (h : Evolves f m x m' x') {w : Addr} (hcurrent : Current m x f w)
    (hfinished : (m.waiter w).call ∈ m.finished) : (m'.waiter w).call ∈ m'.finished := by
  obtain ⟨-, hcall, -⟩ := h.current w hcurrent.state
  rw [hcall]
  exact h.finished _ hfinished

theorem Holds.stable (h : Evolves f m x m' x') {batch : Option Addr} (hholds : Holds x f batch) : Holds x' f batch := by
  refine ⟨h.holder hholds.1, ?_⟩
  rw [h.held]
  exact hholds.2

/-- No action of another fiber interferes with what a fiber knows. -/
theorem Assertion.stable (h : Evolves f m x m' x') {pc : Pc} (hpc : Assertion f m x pc) : Assertion f m' x' pc := by
  cases pc with
  | idle => exact ⟨h.own.trans hpc.1, (h.ready hpc.1).trans hpc.2⟩
  | tryLoad a => exact Fresh.stable h hpc
  | tryCas a => exact Fresh.stable h hpc
  | awaitLoad a => exact Fresh.stable h hpc
  | runOwn a batch =>
    obtain ⟨hown, hstate, hready, hholds, hstarted⟩ := hpc
    obtain ⟨hstate', -, hready', -, hstarted', -⟩ := h.mine a hown hstate
    exact ⟨h.own.trans hown, hstate', hready'.trans hready, hholds.stable h, hstarted'.mpr hstarted⟩
  | takeLoad a => exact ⟨hpc.1.stable h, hpc.2.stable h⟩
  | takeCas a batchHead => exact ⟨hpc.1.stable h, hpc.2.1.stable h, hpc.2.2⟩
  | next a w => exact ⟨hpc.1.stable h, hpc.2.stable h⟩
  | run a w rest => exact ⟨hpc.1.stable h, hpc.2.1.stable h, hpc.2.2.stable h⟩
  | releaseLoad a w =>
    obtain ⟨hdone, hholds, hcurrent, hfinished⟩ := hpc
    exact ⟨hdone.stable h, hholds.stable h, hcurrent.stable h, h.finished_current hcurrent hfinished⟩
  | releaseCas a w oldHead =>
    obtain ⟨hdone, hholds, hcurrent, hfinished, hbusy⟩ := hpc
    exact ⟨hdone.stable h, hholds.stable h, hcurrent.stable h, h.finished_current hcurrent hfinished, hbusy⟩
  | schedule a w rest =>
    obtain ⟨hdone, hcurrent, hfinished, hholds⟩ := hpc
    exact ⟨hdone.stable h, hcurrent.stable h, h.finished_current hcurrent hfinished,
      fun w' hw' => (hholds w' hw').stable h⟩
  | awaitCas a oldHead =>
    obtain ⟨hfresh, hdummy, hbusy⟩ := hpc
    obtain ⟨-, hwaiter, -⟩ := h.mine a hfresh.own hfresh.state
    exact ⟨hfresh.stable h, by rw [hwaiter]; exact hdummy, by rw [hwaiter]; exact hbusy⟩
  | awaitSchedule a batch =>
    obtain ⟨hfresh, hholds, howner⟩ := hpc
    obtain ⟨-, hwaiter, -⟩ := h.mine a hfresh.own hfresh.state
    exact ⟨hfresh.stable h, hholds.stable h, by rw [hwaiter]; exact h.owners _ howner⟩
  | suspended a owner =>
    cases owner with
    | none =>
      obtain ⟨hown, hstate⟩ := hpc
      refine ⟨h.own.trans hown, ?_⟩
      rcases hstate with hstate | ⟨hstate, hready⟩
      · exact h.waiting a hown hstate
      · obtain ⟨hstate', hready', -⟩ := h.woken a hown hstate
        exact .inr ⟨hstate', hready'.trans hready⟩
    | some batch =>
      obtain ⟨hown, hstate, hholds, hstarted⟩ := hpc
      obtain ⟨hstate', -, -, -, hstarted', -⟩ := h.mine a hown hstate
      exact ⟨h.own.trans hown, hstate', hholds.stable h, fun hmem => hstarted (hstarted'.mp hmem)⟩
  | endLoad a => exact Done.stable h hpc
  | endCas a p => exact Done.stable h hpc
  | ret c => exact ⟨h.own.trans hpc.1, (h.ready hpc.1).trans hpc.2.1, h.finished c hpc.2.2⟩

end Stable

end CppConcur.Fiber.Strand
