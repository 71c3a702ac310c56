import CppConcur.Fiber.StrandInvariant

/-!
# The steps of a strand

The changes that steps are made of: of the word and the owner, of the place of a waiter, and of the
histories. Each keeps the invariant and interferes with no other fiber.
-/

namespace CppConcur.Fiber.Strand

variable {Fib : Type*} {f u : Fib} {m : Mem Fib} {x : Aux Fib}

/-- What a step of the fiber `f` has to keep. -/
def Keeps (f : Fib) (m : Mem Fib) (x : Aux Fib) (next : Mem Fib × Pc) : Prop :=
  ∃ x', Good next.1 x' ∧ Assertion f next.1 x' next.2 ∧ ∀ u, u ≠ f → Evolves u m x next.1 x'

theorem SameCall.refl (m : Mem Fib) (a : Addr) : SameCall m m a := ⟨rfl, Iff.rfl, Iff.rfl⟩

theorem SameCall.trans {m₁ m₂ m₃ : Mem Fib} {a : Addr} (h : SameCall m₁ m₂ a) (h' : SameCall m₂ m₃ a) : SameCall m₁ m₃ a :=
  ⟨h'.1.trans h.1, h'.2.1.trans h.2.1, h'.2.2.trans h.2.2⟩

theorem Evolves.refl (u : Fib) (m : Mem Fib) (x : Aux Fib) : Evolves u m x m x where
  own := rfl
  ready := fun _ => rfl
  mine := fun a _ hstate => ⟨hstate, rfl, rfl, .refl m a⟩
  woken := fun _ _ hstate => ⟨hstate, rfl, rfl⟩
  waiting := fun _ _ hstate => .inl hstate
  current := fun w hstate => ⟨hstate, .refl m w⟩
  finished := fun _ hc => hc
  owners := fun _ hc => hc
  holder := fun h => h
  held := rfl

theorem Evolves.trans {m₁ m₂ m₃ : Mem Fib} {x₁ x₂ x₃ : Aux Fib} (h : Evolves u m₁ x₁ m₂ x₂) (h' : Evolves u m₂ x₂ m₃ x₃) :
    Evolves u m₁ x₁ m₃ x₃ where
  own := h'.own.trans h.own
  ready := fun hnone => (h'.ready (h.own.trans hnone)).trans (h.ready hnone)
  mine := fun a hown hstate => by
    obtain ⟨hstate₂, hwaiter₂, hready₂, hcall₂⟩ := h.mine a hown hstate
    obtain ⟨hstate₃, hwaiter₃, hready₃, hcall₃⟩ := h'.mine a (h.own.trans hown) hstate₂
    exact ⟨hstate₃, hwaiter₃.trans hwaiter₂, hready₃.trans hready₂, hcall₂.trans hcall₃⟩
  woken := fun a hown hstate => by
    obtain ⟨hstate₂, hready₂, hcall₂⟩ := h.woken a hown hstate
    obtain ⟨hstate₃, hready₃, hcall₃⟩ := h'.woken a (h.own.trans hown) hstate₂
    exact ⟨hstate₃, hready₃.trans hready₂, hcall₃.trans hcall₂⟩
  waiting := fun a hown hstate => by
    rcases h.waiting a hown hstate with hstate₂ | ⟨hstate₂, hready₂⟩
    · exact h'.waiting a (h.own.trans hown) hstate₂
    · obtain ⟨hstate₃, hready₃, -⟩ := h'.woken a (h.own.trans hown) hstate₂
      exact .inr ⟨hstate₃, hready₃.trans hready₂⟩
  current := fun w hstate => by
    obtain ⟨hstate₂, hcall₂⟩ := h.current w hstate
    obtain ⟨hstate₃, hcall₃⟩ := h'.current w hstate₂
    exact ⟨hstate₃, hcall₂.trans hcall₃⟩
  finished := fun c hc => h'.finished c (h.finished c hc)
  owners := fun c hc => h'.owners c (h.owners c hc)
  holder := fun hholder => h'.holder (h.holder hholder)
  held := h'.held.trans h.held

/-- A step that changes nothing but the private state of the fiber. -/
theorem keeps_of_read (hgood : Good m x) {pc : Pc} (hpc : Assertion f m x pc) : Keeps f m x (m, pc) :=
  ⟨x, hgood, hpc, fun u _ => .refl u m x⟩

theorem Chained.congr {waiter waiter' : Addr → Waiter Fib} {list : List Addr} (hchained : Chained waiter list)
    (h : ∀ a ∈ list, (waiter' a).next = (waiter a).next) : Chained waiter' list := by
  induction list with
  | nil => trivial
  | cons a rest ih =>
    obtain ⟨hnext, hrest⟩ := hchained
    refine ⟨(h a List.mem_cons_self).trans hnext, ih hrest fun b hb => h b (List.mem_cons_of_mem a hb)⟩

theorem touch_eq {w : Addr} (h : m.Accessible w) : m.touch w = m := by
  simp only [Mem.touch, h, decide_true, Bool.not_true, Bool.or_false]

theorem Good.held_other (hgood : Good m x) {g : Fib} (hholder : x.holder ≠ some g) : x.held g = [] := by
  by_contra hne
  exact hholder (hgood.held_holder g hne)

/-! ### The word and the owner -/

theorem head_good (hgood : Good m x) (w : Word) (holder : Option Fib) (hword : WordOk { x with holder := holder } w)
    (hheld : ∀ g, x.held g ≠ [] → holder = some g) : Good (m.setHead w) { x with holder := holder } :=
  { hgood with
    word := hword
    held_holder := hheld }

theorem head_evolves (w : Word) (holder : Option Fib) (hholder : x.holder = some u → holder = some u) :
    Evolves u m x (m.setHead w) { x with holder := holder } :=
  { Evolves.refl u m x with holder := hholder }

/-- The state of a waiter after a fiber has taken the whole list. -/
def State.take (f : Fib) : State Fib → State Fib
  | .listed => .held f
  | s => s

/-- The fiber takes the list as its batch. -/
def Aux.take [DecidableEq Fib] (x : Aux Fib) (f : Fib) : Aux Fib :=
  { x with
    holder := some f
    list := []
    held := Function.update x.held f x.list
    state := fun a => (x.state a).take f }

theorem State.take_waiting {s : State Fib} (h : s.Waiting) : (s.take f).Waiting := by
  cases s <;> trivial

theorem State.waiting_of_take {s : State Fib} (h : (s.take f).Waiting) : s.Waiting := by
  cases s <;> trivial

theorem State.take_ne_free {s : State Fib} : s.take f ≠ .free ↔ s ≠ .free := by
  cases s <;> simp [State.take]

theorem State.take_woken {s : State Fib} : s.take f = .woken ↔ s = .woken := by
  cases s <;> simp [State.take]

section Decidable

variable [DecidableEq Fib]

theorem take_good (hgood : Good m x) (hfree : x.holder = none ∨ x.holder = some f) (hheld : x.held f = []) :
    Good (m.setHead .dummy) (x.take f) := by
  have hother : ∀ g, g ≠ f → x.held g = [] := by
    intro g hg
    refine hgood.held_other ?_
    rcases hfree with hholder | hholder
    · rw [hholder]
      exact nofun
    · rw [hholder]
      exact fun heq => hg (Option.some.inj heq).symm
  refine { hgood with
    word := ⟨nofun, rfl⟩
    list_nodup := List.nodup_nil
    mem_list := fun a => ?_
    list_chained := trivial
    held_nodup := fun g => ?_
    mem_held := fun g a => ?_
    held_chained := fun g => ?_
    held_holder := fun g hg => ?_
    live_iff := fun a => (hgood.live_iff a).trans State.take_ne_free.symm
    own_live := fun g a hown => State.take_ne_free.mpr (hgood.own_live g a hown)
    waiting := fun a ha => hgood.waiting a (State.waiting_of_take ha)
    unscheduled := fun a ha => hgood.unscheduled a (State.waiting_of_take ha)
    unstarted := fun a ha => ?_
    woken := fun a ha => hgood.woken a (State.take_woken.mp ha)
    call_lt := fun a ha => hgood.call_lt a (State.take_ne_free.mp ha)
    call_inj := fun a b ha hb => hgood.call_inj a b (State.take_ne_free.mp ha) (State.take_ne_free.mp hb) }
  · simp only [Aux.take, List.not_mem_nil, false_iff]
    cases x.state a <;> simp [State.take]
  · simp only [Aux.take]
    by_cases hg : g = f
    · subst hg
      rw [Function.update_self]
      exact hgood.list_nodup
    · rw [Function.update_of_ne hg]
      exact hgood.held_nodup g
  · simp only [Aux.take]
    by_cases hg : g = f
    · subst hg
      have hnot : x.state a ≠ .held g := by
        intro hstate
        have := (hgood.mem_held g a).mpr hstate
        rw [hheld] at this
        exact absurd this List.not_mem_nil
      rw [Function.update_self, hgood.mem_list]
      cases hs : x.state a <;> simp_all [State.take]
    · rw [Function.update_of_ne hg, hgood.mem_held]
      cases hs : x.state a <;> simp_all [State.take]
      exact fun heq => hg heq.symm
  · simp only [Aux.take]
    by_cases hg : g = f
    · subst hg
      rw [Function.update_self]
      exact hgood.list_chained
    · rw [Function.update_of_ne hg]
      exact hgood.held_chained g
  · simp only [Aux.take] at hg ⊢
    by_cases hgf : g = f
    · rw [hgf]
    · rw [Function.update_of_ne hgf] at hg
      exact absurd (hother g hgf) hg
  · refine hgood.unstarted a ?_
    simp only [Aux.take] at ha
    cases hs : x.state a with
    | listed => exact .inl rfl
    | held g => exact .inr ⟨g, rfl⟩
    | _ => simp [hs, State.take] at ha

theorem take_evolves (hu : u ≠ f) (hfree : x.holder = none ∨ x.holder = some f) :
    Evolves u m x (m.setHead .dummy) (x.take f) where
  own := rfl
  ready := fun _ => rfl
  mine := fun a _ hstate => ⟨by simp only [Aux.take, hstate, State.take], rfl, rfl, .refl m a⟩
  woken := fun _ _ hstate => ⟨State.take_woken.mpr hstate, rfl, rfl⟩
  waiting := fun _ _ hstate => .inl (State.take_waiting hstate)
  current := fun w hstate => ⟨by simp only [Aux.take, hstate, State.take], .refl m w⟩
  finished := fun _ hc => hc
  owners := fun _ hc => hc
  holder := fun hholder => by
    rcases hfree with hfree | hfree
    · rw [hfree] at hholder
      exact absurd hholder nofun
    · rw [hfree] at hholder
      exact absurd (Option.some.inj hholder).symm hu
  held := Function.update_of_ne hu ..

end Decidable

/-! ### The histories -/

/-- A waiter that the fiber itself works on: its own one, or the current one of its batch. -/
def WorksOn (x : Aux Fib) (f : Fib) (b : Addr) : Prop := x.own f = some b ∧ x.state b = .own ∨ x.state b = .current f

theorem WorksOn.ne_free {b : Addr} (h : WorksOn x f b) : x.state b ≠ .free := by
  rcases h with ⟨-, hb⟩ | hb
  · rw [hb]
    exact nofun
  · rw [hb]
    exact nofun

theorem WorksOn.ne_mine (hgood : Good m x) {a b : Addr} (h : WorksOn x f b) (hu : u ≠ f) (hown : x.own u = some a)
    (hstate : x.state a = .own) : a ≠ b := by
  rintro rfl
  rcases h with ⟨hown', -⟩ | hb
  · exact hu (hgood.own_inj u f a hown hown')
  · rw [hstate] at hb
    exact absurd hb nofun

theorem WorksOn.ne_current {w b : Addr} (h : WorksOn x f b) (hu : u ≠ f) (hstate : x.state w = .current u) : w ≠ b := by
  rintro rfl
  rcases h with ⟨-, hb⟩ | hb
  · rw [hstate] at hb
    exact absurd hb nofun
  · rw [hstate] at hb
    exact hu (State.current.inj hb)

theorem Good.call_ne (hgood : Good m x) {a b : Addr} (ha : x.state a ≠ .free) (hb : x.state b ≠ .free) (hne : a ≠ b) :
    (m.waiter a).call ≠ (m.waiter b).call := fun heq => hne (hgood.call_inj a b ha hb heq)

theorem start_good (hgood : Good m x) {b : Addr} (hb : WorksOn x f b) (hnot : (m.waiter b).call ∉ m.started) :
    Good (m.start b) x := by
  refine { hgood with
    unstarted := fun a ha => ?_
    started_lt := fun c hc => ?_
    started_nodup := ?_
    finished_started := fun c hc => List.mem_append_left _ (hgood.finished_started c hc) }
  · have hne : a ≠ b := by
      rintro rfl
      rcases hb with ⟨-, hb⟩ | hb
      · rcases ha with ha | ⟨g, ha⟩ <;> exact absurd (hb.symm.trans ha) nofun
      · rcases ha with ha | ⟨g, ha⟩ <;> exact absurd (hb.symm.trans ha) nofun
    have hfree : x.state a ≠ .free := by
      rcases ha with ha | ⟨g, ha⟩ <;> (rw [ha]; exact nofun)
    simp only [Mem.start, List.mem_append, List.mem_singleton, not_or]
    exact ⟨hgood.unstarted a ha, hgood.call_ne hfree hb.ne_free hne⟩
  · simp only [Mem.start, List.mem_append, List.mem_singleton] at hc
    rcases hc with hc | rfl
    · exact hgood.started_lt c hc
    · exact hgood.call_lt b hb.ne_free
  · simp only [Mem.start]
    exact List.nodup_append.mpr ⟨hgood.started_nodup, List.nodup_singleton _, fun c hc d hd heq =>
      hnot ((List.mem_singleton.mp hd) ▸ heq ▸ hc)⟩

theorem start_evolves (hgood : Good m x) {b : Addr} (hb : WorksOn x f b) (hu : u ≠ f) : Evolves u m x (m.start b) x := by
  have hsame : ∀ a, x.state a ≠ .free → a ≠ b → SameCall m (m.start b) a := by
    intro a ha hne
    refine ⟨rfl, ?_, Iff.rfl⟩
    simp only [Mem.start, List.mem_append, List.mem_singleton]
    exact or_iff_left (hgood.call_ne ha hb.ne_free hne)
  exact { Evolves.refl u m x with
    mine := fun a hown hstate =>
      ⟨hstate, rfl, rfl, hsame a (by rw [hstate]; exact nofun) (hb.ne_mine hgood hu hown hstate)⟩
    current := fun w hstate => ⟨hstate, hsame w (by rw [hstate]; exact nofun) (hb.ne_current hu hstate)⟩ }

theorem finish_good (hgood : Good m x) {b : Addr} (hstarted : (m.waiter b).call ∈ m.started) : Good (m.finish b) x := by
  refine { hgood with
    woken := fun a ha => List.mem_append_left _ (hgood.woken a ha)
    finished_started := fun c hc => ?_
    scheduled_ok := fun c hc => (hgood.scheduled_ok c hc).imp_left (List.mem_append_left _) }
  simp only [Mem.finish, List.mem_append, List.mem_singleton] at hc
  rcases hc with hc | rfl
  · exact hgood.finished_started c hc
  · exact hstarted

theorem finish_evolves (u : Fib) (m : Mem Fib) (x : Aux Fib) (b : Addr) : Evolves u m x (m.finish b) x :=
  { Evolves.refl u m x with finished := fun _ hc => List.mem_append_left _ hc }

theorem owners_good (hgood : Good m x) (c : Nat) : Good { m with owners := m.owners ++ [c] } x :=
  { hgood with scheduled_ok := fun c' hc' => (hgood.scheduled_ok c' hc').imp_right (List.mem_append_left _) }

theorem owners_evolves (u : Fib) (m : Mem Fib) (x : Aux Fib) (c : Nat) :
    Evolves u m x { m with owners := m.owners ++ [c] } x :=
  { Evolves.refl u m x with owners := fun _ hc => List.mem_append_left _ hc }

/-! ### The place of a waiter -/

section Places

variable [DecidableEq Fib]

/-- The fiber starts to work on the first waiter of its batch. -/
def Aux.pick (x : Aux Fib) (f : Fib) (w : Addr) (rest : List Addr) : Aux Fib :=
  { x with
    held := Function.update x.held f rest
    state := Function.update x.state w (.current f) }

theorem pick_good (hgood : Good m x) {w : Addr} {rest : List Addr} (hheld : x.held f = w :: rest) :
    Good m (x.pick f w rest) := by
  have hstate : x.state w = .held f := (hgood.mem_held f w).mp (by rw [hheld]; exact List.mem_cons_self)
  have hwaiting : ∀ a, ((x.pick f w rest).state a).Waiting → (x.state a).Waiting := by
    intro a ha
    simp only [Aux.pick] at ha
    by_cases haw : a = w
    · subst haw
      rw [hstate]
      trivial
    · rwa [Function.update_of_ne haw] at ha
  have hfree : ∀ a, (x.pick f w rest).state a ≠ .free ↔ x.state a ≠ .free := by
    intro a
    simp only [Aux.pick]
    by_cases haw : a = w
    · subst haw
      rw [Function.update_self, hstate]
      simp
    · rw [Function.update_of_ne haw]
  have hnodup := hgood.held_nodup f
  have hchained := hgood.held_chained f
  rw [hheld] at hnodup hchained
  refine { hgood with
    mem_list := fun a => ?_
    held_nodup := fun g => ?_
    mem_held := fun g a => ?_
    held_chained := fun g => ?_
    held_holder := fun g hg => ?_
    live_iff := fun a => (hgood.live_iff a).trans (hfree a).symm
    own_live := fun g a hown => (hfree a).mpr (hgood.own_live g a hown)
    waiting := fun a ha => hgood.waiting a (hwaiting a ha)
    unscheduled := fun a ha => hgood.unscheduled a (hwaiting a ha)
    unstarted := fun a ha => ?_
    woken := fun a ha => ?_
    call_lt := fun a ha => hgood.call_lt a ((hfree a).mp ha)
    call_inj := fun a b ha hb => hgood.call_inj a b ((hfree a).mp ha) ((hfree b).mp hb) }
  · simp only [Aux.pick]
    by_cases haw : a = w
    · subst haw
      rw [Function.update_self, hgood.mem_list, hstate]
      simp
    · rw [Function.update_of_ne haw]
      exact hgood.mem_list a
  · simp only [Aux.pick]
    by_cases hg : g = f
    · subst hg
      rw [Function.update_self]
      exact (List.nodup_cons.mp hnodup).2
    · rw [Function.update_of_ne hg]
      exact hgood.held_nodup g
  · simp only [Aux.pick]
    by_cases haw : a = w
    · subst haw
      rw [Function.update_self]
      by_cases hg : g = f
      · subst hg
        rw [Function.update_self]
        simp [(List.nodup_cons.mp hnodup).1]
      · rw [Function.update_of_ne hg, hgood.mem_held, hstate]
        simpa using fun heq => hg heq.symm
    · rw [Function.update_of_ne haw]
      by_cases hg : g = f
      · subst hg
        rw [Function.update_self, ← hgood.mem_held, hheld, List.mem_cons]
        simp [haw]
      · rw [Function.update_of_ne hg]
        exact hgood.mem_held g a
  · simp only [Aux.pick]
    by_cases hg : g = f
    · subst hg
      rw [Function.update_self]
      exact hchained.2
    · rw [Function.update_of_ne hg]
      exact hgood.held_chained g
  · simp only [Aux.pick] at hg ⊢
    by_cases hgf : g = f
    · subst hgf
      exact hgood.held_holder g (by rw [hheld]; exact nofun)
    · rw [Function.update_of_ne hgf] at hg
      exact hgood.held_holder g hg
  · simp only [Aux.pick] at ha
    by_cases haw : a = w
    · subst haw
      rw [Function.update_self] at ha
      simp at ha
    · rw [Function.update_of_ne haw] at ha
      exact hgood.unstarted a ha
  · simp only [Aux.pick] at ha
    by_cases haw : a = w
    · subst haw
      rw [Function.update_self] at ha
      exact absurd ha nofun
    · rw [Function.update_of_ne haw] at ha
      exact hgood.woken a ha

theorem pick_evolves (hgood : Good m x) {w : Addr} {rest : List Addr} (hheld : x.held f = w :: rest) (hu : u ≠ f) :
    Evolves u m x m (x.pick f w rest) := by
  have hstate : x.state w = .held f := (hgood.mem_held f w).mp (by rw [hheld]; exact List.mem_cons_self)
  have hkeep : ∀ a s, x.state a = s → s ≠ .held f → (x.pick f w rest).state a = s := by
    intro a s ha hs
    have haw : a ≠ w := by
      rintro rfl
      exact hs (ha.symm.trans hstate)
    exact (Function.update_of_ne haw ..).trans ha
  exact { Evolves.refl u m x with
    mine := fun a _ ha => ⟨hkeep a _ ha nofun, rfl, rfl, .refl m a⟩
    woken := fun a _ ha => ⟨hkeep a _ ha nofun, rfl, rfl⟩
    waiting := fun a _ ha => by
      refine .inl ?_
      by_cases haw : a = w
      · subst haw
        simp only [Aux.pick, Function.update_self]
        trivial
      · simp only [Aux.pick, ne_eq, haw, not_false_eq_true, Function.update_of_ne]
        exact ha
    current := fun w' ha => ⟨hkeep w' _ ha nofun, .refl m w'⟩
    held := Function.update_of_ne hu .. }

omit [DecidableEq Fib] in
/-- Change the state of one waiter, from and to states outside the list and the batches. -/
theorem state_good (hgood : Good m x) {a : Addr} {s : State Fib} (hold : x.state a = .own ∨ (x.state a = .current f))
    (hnew : s = .own ∨ s = .woken ∧ (m.waiter a).call ∈ m.finished) :
    Good m { x with state := Function.update x.state a s } := by
  have hfree : ∀ b, Function.update x.state a s b ≠ .free ↔ x.state b ≠ .free := by
    intro b
    by_cases hb : b = a
    · subst hb
      rw [Function.update_self]
      rcases hold with hold | hold <;> rcases hnew with hnew | ⟨hnew, -⟩ <;> simp [hold, hnew]
    · rw [Function.update_of_ne hb]
  have hplace : ∀ b s', s' = .listed ∨ (∃ g, s' = .held g) → (Function.update x.state a s b = s' ↔ x.state b = s') := by
    intro b s' hs'
    by_cases hb : b = a
    · subst hb
      rw [Function.update_self]
      rcases hold with hold | hold <;> rcases hnew with hnew | ⟨hnew, -⟩ <;> rcases hs' with rfl | ⟨g, rfl⟩ <;>
        simp [hold, hnew]
    · rw [Function.update_of_ne hb]
  have hwaiting : ∀ b, (Function.update x.state a s b).Waiting → (x.state b).Waiting := by
    intro b hb
    by_cases hba : b = a
    · subst hba
      rw [Function.update_self] at hb
      rcases hnew with hnew | ⟨hnew, -⟩ <;> (rw [hnew] at hb; exact hb.elim)
    · rwa [Function.update_of_ne hba] at hb
  exact { hgood with
    mem_list := fun b => (hgood.mem_list b).trans (hplace b _ (.inl rfl)).symm
    mem_held := fun g b => (hgood.mem_held g b).trans (hplace b _ (.inr ⟨g, rfl⟩)).symm
    live_iff := fun b => (hgood.live_iff b).trans (hfree b).symm
    own_live := fun g b hown => (hfree b).mpr (hgood.own_live g b hown)
    waiting := fun b hb => hgood.waiting b (hwaiting b hb)
    unscheduled := fun b hb => hgood.unscheduled b (hwaiting b hb)
    unstarted := fun b hb => hgood.unstarted b (hb.imp (hplace b _ (.inl rfl)).mp
      fun ⟨g, hg⟩ => ⟨g, (hplace b _ (.inr ⟨g, rfl⟩)).mp hg⟩)
    woken := fun b hb => by
      by_cases hba : b = a
      · subst hba
        simp only [Function.update_self] at hb
        rcases hnew with hnew | ⟨-, hfinished⟩
        · exact absurd (hnew.symm.trans hb) nofun
        · exact hfinished
      · simp only [ne_eq, hba, not_false_eq_true, Function.update_of_ne] at hb
        exact hgood.woken b hb
    call_lt := fun b hb => hgood.call_lt b ((hfree b).mp hb)
    call_inj := fun b c hb hc => hgood.call_inj b c ((hfree b).mp hb) ((hfree c).mp hc) }

omit [DecidableEq Fib] in
/-- Writing the link or the handle of a waiter that is neither in the list nor in a batch. -/
theorem waiter_good (hgood : Good m x) {a : Addr} (hstate : ¬ (x.state a).Waiting) (n : Waiter Fib)
    (hcall : n.call = (m.waiter a).call) : Good { m with waiter := Function.update m.waiter a n } x := by
  have hcalls : ∀ b, (Function.update m.waiter a n b).call = (m.waiter b).call := by
    intro b
    by_cases hb : b = a
    · subst hb
      rw [Function.update_self]
      exact hcall
    · rw [Function.update_of_ne hb]
  have hsame : ∀ b, (x.state b).Waiting → Function.update m.waiter a n b = m.waiter b := by
    intro b hb
    refine Function.update_of_ne ?_ ..
    rintro rfl
    exact hstate hb
  refine { hgood with
    list_chained := hgood.list_chained.congr fun b hb => ?_
    held_chained := fun g => (hgood.held_chained g).congr fun b hb => ?_
    waiting := fun b hb => by
      simp only [hsame b hb]
      exact hgood.waiting b hb
    unscheduled := fun b hb => by
      simp only [hcalls]
      exact hgood.unscheduled b hb
    unstarted := fun b hb => by
      simp only [hcalls]
      exact hgood.unstarted b hb
    woken := fun b hb => by
      simp only [hcalls]
      exact hgood.woken b hb
    call_lt := fun b hb => by
      simp only [hcalls]
      exact hgood.call_lt b hb
    call_inj := fun b c hb hc => by
      simp only [hcalls]
      exact hgood.call_inj b c hb hc }
  · simp only [hsame b (by rw [(hgood.mem_list b).mp hb]; trivial)]
  · simp only [hsame b (by rw [(hgood.mem_held g b).mp hb]; trivial)]

omit [DecidableEq Fib] in
theorem prepare_good (hgood : Good m x) {a : Addr} (hstate : x.state a = .own) (w : Word) : Good (m.prepare a w) x := by
  have hnot : ¬ (x.state a).Waiting := by
    rw [hstate]
    exact id
  cases w with
  | dummy => exact waiter_good hgood hnot _ rfl
  | busy p => exact waiter_good hgood hnot _ rfl
  | _ => exact hgood

omit [DecidableEq Fib] in
/-- A write to a waiter that the fiber works on, which keeps its call. -/
theorem waiter_evolves (hgood : Good m x) {b : Addr} (hb : WorksOn x f b) (n : Waiter Fib)
    (hcall : n.call = (m.waiter b).call) (hu : u ≠ f) :
    Evolves u m x { m with waiter := Function.update m.waiter b n } x := by
  have hsame : ∀ a, a ≠ b → Function.update m.waiter b n a = m.waiter a := fun a ha => Function.update_of_ne ha ..
  have hcalls : ∀ a, (Function.update m.waiter b n a).call = (m.waiter a).call := by
    intro a
    by_cases ha : a = b
    · subst ha
      rw [Function.update_self]
      exact hcall
    · rw [hsame a ha]
  have hsameCall : ∀ a, SameCall m { m with waiter := Function.update m.waiter b n } a := by
    intro a
    refine ⟨hcalls a, ?_, ?_⟩ <;> simp only [hcalls]
  exact { Evolves.refl u m x with
    mine := fun a hown hstate => ⟨hstate, hsame a (hb.ne_mine hgood hu hown hstate), rfl, hsameCall a⟩
    woken := fun a _ hstate => ⟨hstate, rfl, hcalls a⟩
    current := fun w hstate => ⟨hstate, hsameCall w⟩ }

omit [DecidableEq Fib] in
theorem prepare_evolves (hgood : Good m x) {a : Addr} (ha : WorksOn x f a) (w : Word) (hu : u ≠ f) :
    Evolves u m x (m.prepare a w) x := by
  cases w with
  | dummy => exact waiter_evolves hgood ha _ rfl hu
  | busy p => exact waiter_evolves hgood ha _ rfl hu
  | _ => exact .refl u m x

/-- The fiber pushes its waiter. -/
def Aux.push (x : Aux Fib) (a : Addr) : Aux Fib :=
  { x with
    list := a :: x.list
    state := Function.update x.state a .listed }

omit [DecidableEq Fib] in
theorem push_good (hgood : Good m x) {a : Addr} (hfresh : Fresh m x f a) (hholder : x.holder ≠ none)
    (hnext : (m.waiter a).next = x.list.head?) : Good (m.setHead (.busy a)) (x.push a) := by
  have hstate := hfresh.state
  have hfree : ∀ b, (x.push a).state b ≠ .free ↔ x.state b ≠ .free := by
    intro b
    simp only [Aux.push]
    by_cases hb : b = a
    · subst hb
      rw [Function.update_self, hstate]
      simp
    · rw [Function.update_of_ne hb]
  have hother : ∀ b, b ≠ a → (x.push a).state b = x.state b := fun b hb => Function.update_of_ne hb ..
  have hself : (x.push a).state a = .listed := Function.update_self ..
  refine { hgood with
    word := ⟨hholder, rfl⟩
    list_nodup := ?_
    mem_list := fun b => ?_
    list_chained := ⟨hnext, hgood.list_chained⟩
    mem_held := fun g b => ?_
    live_iff := fun b => (hgood.live_iff b).trans (hfree b).symm
    own_live := fun g b hown => (hfree b).mpr (hgood.own_live g b hown)
    waiting := fun b hb => ?_
    unscheduled := fun b hb => ?_
    unstarted := fun b hb => ?_
    woken := fun b hb => ?_
    call_lt := fun b hb => hgood.call_lt b ((hfree b).mp hb)
    call_inj := fun b c hb hc => hgood.call_inj b c ((hfree b).mp hb) ((hfree c).mp hc) }
  · refine List.nodup_cons.mpr ⟨?_, hgood.list_nodup⟩
    rw [hgood.mem_list, hstate]
    exact nofun
  · by_cases hb : b = a
    · subst hb
      rw [hself]
      simp [Aux.push]
    · rw [hother b hb, ← hgood.mem_list]
      simp [Aux.push, hb]
  · by_cases hb : b = a
    · subst hb
      rw [hself]
      have : ¬ b ∈ x.held g := by
        rw [hgood.mem_held, hstate]
        exact nofun
      simp [Aux.push, this]
    · rw [hother b hb]
      exact hgood.mem_held g b
  · by_cases hb' : b = a
    · subst hb'
      exact ⟨f, hfresh.fiber, hfresh.own, hfresh.ready⟩
    · rw [hother b hb'] at hb
      exact hgood.waiting b hb
  · by_cases hb' : b = a
    · subst hb'
      exact hfresh.unscheduled
    · rw [hother b hb'] at hb
      exact hgood.unscheduled b hb
  · by_cases hb' : b = a
    · subst hb'
      exact hfresh.unstarted
    · rw [hother b hb'] at hb
      exact hgood.unstarted b hb
  · by_cases hb' : b = a
    · subst hb'
      rw [hself] at hb
      exact absurd hb nofun
    · rw [hother b hb'] at hb
      exact hgood.woken b hb

omit [DecidableEq Fib] in
/-- Only the state of a waiter that the fiber works on changes. -/
theorem state_evolves (hgood : Good m x) {b : Addr} (hb : WorksOn x f b) (s : State Fib)
    (hwaiting : (x.state b).Waiting → s.Waiting) (hu : u ≠ f) :
    Evolves u m x m { x with state := Function.update x.state b s } := by
  have hkeep : ∀ a, a ≠ b → Function.update x.state b s a = x.state a := fun a ha => Function.update_of_ne ha ..
  exact { Evolves.refl u m x with
    mine := fun a hown hstate =>
      ⟨(hkeep a (hb.ne_mine hgood hu hown hstate)).trans hstate, rfl, rfl, .refl m a⟩
    woken := fun a _ hstate => by
      have hne : a ≠ b := by
        rintro rfl
        rcases hb with ⟨-, hb⟩ | hb <;> exact absurd (hb.symm.trans hstate) nofun
      exact ⟨(hkeep a hne).trans hstate, rfl, rfl⟩
    waiting := fun a _ hstate => by
      refine .inl ?_
      by_cases hab : a = b
      · subst hab
        simp only [Function.update_self]
        exact hwaiting hstate
      · simp only [hkeep a hab]
        exact hstate
    current := fun w hstate => ⟨(hkeep w (hb.ne_current hu hstate)).trans hstate, .refl m w⟩ }

omit [DecidableEq Fib] in
theorem push_evolves (hgood : Good m x) {a : Addr} (hfresh : Fresh m x f a) (hu : u ≠ f) :
    Evolves u m x (m.setHead (.busy a)) (x.push a) := by
  have hstate := state_evolves hgood (.inl ⟨hfresh.own, hfresh.state⟩) .listed (fun _ => trivial) hu
  exact { hstate with held := rfl }

/-! ### The scheduling of a fiber -/

theorem schedule_eq {w : Addr} {g : Fib} (hfiber : (m.waiter w).fiber = some g) : m.schedule w =
    { m with
      ready := Function.update m.ready g true
      waiter := Function.update m.waiter w { m.waiter w with fiber := none }
      scheduled := m.scheduled ++ [(m.waiter w).call] } := by
  simp only [Mem.schedule, hfiber]

theorem schedule_good (hgood : Good m x) {w : Addr} {g : Fib} (hfiber : (m.waiter w).fiber = some g)
    (hown : x.own g = some w) (hstate : ¬ (x.state w).Waiting) (hnot : (m.waiter w).call ∉ m.scheduled)
    (hok : (m.waiter w).call ∈ m.finished ∨ (m.waiter w).call ∈ m.owners) : Good (m.schedule w) x := by
  have hgood' := waiter_good hgood hstate { m.waiter w with fiber := none } rfl
  have hfree := hgood.own_live g w hown
  rw [schedule_eq hfiber]
  refine { hgood' with
    waiting := fun a ha => ?_
    unscheduled := fun a ha => ?_
    scheduled_lt := fun c hc => ?_
    scheduled_nodup := ?_
    scheduled_ok := fun c hc => ?_ }
  · obtain ⟨h, hfiber', hown', hready⟩ := hgood'.waiting a ha
    refine ⟨h, hfiber', hown', ?_⟩
    have hne : h ≠ g := by
      rintro rfl
      rw [hown] at hown'
      exact hstate ((Option.some.inj hown') ▸ ha)
    simp only [ne_eq, hne, not_false_eq_true, Function.update_of_ne]
    exact hready
  · have hne : a ≠ w := by
      rintro rfl
      exact hstate ha
    simp only [ne_eq, hne, not_false_eq_true, Function.update_of_ne, List.mem_append, List.mem_singleton, not_or]
    refine ⟨hgood.unscheduled a ha, hgood.call_ne ?_ hfree hne⟩
    intro hfree'
    rw [hfree'] at ha
    exact ha
  · rcases List.mem_append.mp hc with hc | hc
    · exact hgood.scheduled_lt c hc
    · rw [List.mem_singleton.mp hc]
      exact hgood.call_lt w hfree
  · exact List.nodup_append.mpr ⟨hgood.scheduled_nodup, List.nodup_singleton _, fun c hc d hd heq =>
      hnot ((List.mem_singleton.mp hd) ▸ heq ▸ hc)⟩
  · rcases List.mem_append.mp hc with hc | hc
    · exact hgood.scheduled_ok c hc
    · rw [List.mem_singleton.mp hc]
      exact hok

/-- What another fiber sees of the scheduling of a waiter that is not its own. -/
theorem schedule_evolves (hgood : Good m x) {w : Addr} {g : Fib} (hfiber : (m.waiter w).fiber = some g)
    (hw : WorksOn x f w) (hug : u ≠ g) (hu : u ≠ f) : Evolves u m x (m.schedule w) x := by
  have hwaiter := waiter_evolves hgood hw { m.waiter w with fiber := none } rfl hu
  have hsame : ∀ a, x.state a ≠ .free → a ≠ w → SameCall m (m.schedule w) a := by
    intro a ha hne
    rw [schedule_eq hfiber]
    refine ⟨by simp only [ne_eq, hne, not_false_eq_true, Function.update_of_ne], ?_, ?_⟩
    · simp only [ne_eq, hne, not_false_eq_true, Function.update_of_ne]
    · simp only [ne_eq, hne, not_false_eq_true, Function.update_of_ne, List.mem_append, List.mem_singleton]
      exact or_iff_left (hgood.call_ne ha hw.ne_free hne)
  have hready : (m.schedule w).ready u = m.ready u := by
    rw [schedule_eq hfiber]
    exact Function.update_of_ne hug ..
  have hwaiters : (m.schedule w).waiter = Function.update m.waiter w { m.waiter w with fiber := none } := by
    rw [schedule_eq hfiber]
  refine {
    own := rfl
    ready := fun _ => hready
    mine := fun a hown hstate => ?_
    woken := fun a hown hstate => ?_
    waiting := fun a _ hstate => .inl hstate
    current := fun w' hstate => ⟨hstate, hsame w' (by rw [hstate]; exact nofun) (hw.ne_current hu hstate)⟩
    finished := fun c hc => by rw [schedule_eq hfiber]; exact hc
    owners := fun c hc => by rw [schedule_eq hfiber]; exact hc
    holder := fun h => h
    held := rfl }
  · have hne := hw.ne_mine hgood hu hown hstate
    refine ⟨hstate, ?_, hready, hsame a (by rw [hstate]; exact nofun) hne⟩
    rw [hwaiters]
    exact Function.update_of_ne hne ..
  · refine ⟨hstate, hready, ?_⟩
    rw [hwaiters]
    exact (hwaiter.woken a hown hstate).2.2

/-- The fiber of the waiter that a batch runner has worked on is scheduled. -/
def Aux.wake (x : Aux Fib) (w : Addr) : Aux Fib := { x with state := Function.update x.state w .woken }

theorem wake_good (hgood : Good m x) {w : Addr} (hstate : x.state w = .current f)
    (hfinished : (m.waiter w).call ∈ m.finished) : Good (m.schedule w) (x.wake w) := by
  have hwaiting : (x.state w).Waiting := by
    rw [hstate]
    trivial
  obtain ⟨g, hfiber, hown, -⟩ := hgood.waiting w hwaiting
  refine schedule_good (state_good hgood (.inr hstate) (.inr ⟨rfl, hfinished⟩)) hfiber hown ?_
    (hgood.unscheduled w hwaiting) (.inl hfinished)
  simp only [Function.update_self]
  exact id

theorem wake_evolves (hgood : Good m x) {w : Addr} (hstate : x.state w = .current f) (hu : u ≠ f) :
    Evolves u m x (m.schedule w) (x.wake w) := by
  have hw : WorksOn x f w := .inr hstate
  obtain ⟨g, hfiber, hown, -⟩ := hgood.waiting w (by rw [hstate]; trivial)
  have hkeep : ∀ a, a ≠ w → (x.wake w).state a = x.state a := fun a ha => Function.update_of_ne ha ..
  by_cases hug : u = g
  · subst hug
    have hsame : ∀ a, x.own u = some a → a = w := fun a ha => Option.some.inj (ha.symm.trans hown)
    refine {
      own := rfl
      ready := fun hnone => absurd (hnone.symm.trans hown) nofun
      mine := fun a ha hstate' => ?_
      woken := fun a ha hstate' => ?_
      waiting := fun a ha _ => ?_
      current := fun w' hstate' => ?_
      finished := fun c hc => by rw [schedule_eq hfiber]; exact hc
      owners := fun c hc => by rw [schedule_eq hfiber]; exact hc
      holder := fun h => h
      held := rfl }
    · rw [hsame a ha, hstate] at hstate'
      exact absurd hstate' nofun
    · rw [hsame a ha, hstate] at hstate'
      exact absurd hstate' nofun
    · rw [hsame a ha]
      refine .inr ⟨Function.update_self .., ?_⟩
      rw [schedule_eq hfiber]
      exact Function.update_self ..
    · have hne := hw.ne_current hu hstate'
      refine ⟨(hkeep w' hne).trans hstate', ?_⟩
      rw [schedule_eq hfiber]
      refine ⟨by simp only [ne_eq, hne, not_false_eq_true, Function.update_of_ne], ?_, ?_⟩
      · simp only [ne_eq, hne, not_false_eq_true, Function.update_of_ne]
      · simp only [ne_eq, hne, not_false_eq_true, Function.update_of_ne, List.mem_append, List.mem_singleton]
        exact or_iff_left (hgood.call_ne (by rw [hstate']; exact nofun) hw.ne_free hne)
  · have hevolves := schedule_evolves hgood hfiber hw hug hu
    have hother : ∀ a, x.own u = some a → a ≠ w := by
      rintro a ha rfl
      exact hug (hgood.own_inj u g a ha hown)
    exact { hevolves with
      mine := fun a ha hstate' => by
        obtain ⟨-, hrest⟩ := hevolves.mine a ha hstate'
        exact ⟨(hkeep a (hother a ha)).trans hstate', hrest⟩
      woken := fun a ha hstate' => by
        obtain ⟨-, hrest⟩ := hevolves.woken a ha hstate'
        exact ⟨(hkeep a (hother a ha)).trans hstate', hrest⟩
      waiting := fun a ha hstate' => by
        refine .inl ?_
        rw [hkeep a (hother a ha)]
        exact hstate'
      current := fun w' hstate' => by
        obtain ⟨-, hrest⟩ := hevolves.current w' hstate'
        exact ⟨(hkeep w' (hw.ne_current hu hstate')).trans hstate', hrest⟩ }

theorem resume_good (hgood : Good m x) (f : Fib) : Good { m with ready := Function.update m.ready f false } x :=
  { hgood with
    waiting := fun a ha => by
      obtain ⟨g, hfiber, hown, hready⟩ := hgood.waiting a ha
      refine ⟨g, hfiber, hown, ?_⟩
      by_cases hg : g = f
      · subst hg
        exact Function.update_self ..
      · exact (Function.update_of_ne hg ..).trans hready }

theorem resume_evolves (m : Mem Fib) (x : Aux Fib) (hu : u ≠ f) :
    Evolves u m x { m with ready := Function.update m.ready f false } x := by
  have hready : Function.update m.ready f false u = m.ready u := Function.update_of_ne hu ..
  exact { Evolves.refl u m x with
    ready := fun _ => hready
    mine := fun a _ hstate => ⟨hstate, rfl, hready, .refl m a⟩
    woken := fun _ _ hstate => ⟨hstate, hready, rfl⟩
    waiting := fun _ _ hstate => .inl hstate }

/-! ### The start and the end of a call -/

/-- The waiter of a fiber is destroyed. -/
def Aux.leave (x : Aux Fib) (f : Fib) (a : Addr) : Aux Fib :=
  { x with
    state := Function.update x.state a .free
    own := Function.update x.own f none }

theorem leave_good (hgood : Good m x) {a : Addr} (hdone : Done m x f a) : Good (m.leave a) (x.leave f a) := by
  have hself : (x.leave f a).state a = .free := Function.update_self ..
  have hother : ∀ b, b ≠ a → (x.leave f a).state b = x.state b := fun b hb => Function.update_of_ne hb ..
  have hplace : ∀ b s, s = .listed ∨ (∃ g, s = .held g) → ((x.leave f a).state b = s ↔ x.state b = s) := by
    intro b s hs
    by_cases hb : b = a
    · subst hb
      rw [hself]
      rcases hdone.state with hstate | hstate <;> rcases hs with rfl | ⟨g, rfl⟩ <;> simp [hstate]
    · rw [hother b hb]
  have hwaiting : ∀ b, ((x.leave f a).state b).Waiting → b ≠ a ∧ (x.state b).Waiting := by
    intro b hb
    have hne : b ≠ a := by
      rintro rfl
      rw [hself] at hb
      exact hb
    rw [hother b hne] at hb
    exact ⟨hne, hb⟩
  have hfree : ∀ b, (x.leave f a).state b ≠ .free → b ≠ a ∧ x.state b ≠ .free := by
    intro b hb
    have hne : b ≠ a := by
      rintro rfl
      exact hb hself
    rw [hother b hne] at hb
    exact ⟨hne, hb⟩
  have hown : ∀ g b, (x.leave f a).own g = some b → b ≠ a ∧ x.own g = some b := by
    intro g b hg
    simp only [Aux.leave] at hg
    by_cases hgf : g = f
    · subst hgf
      rw [Function.update_self] at hg
      exact absurd hg nofun
    · rw [Function.update_of_ne hgf] at hg
      refine ⟨?_, hg⟩
      rintro rfl
      exact hgf (hgood.own_inj g f b hg hdone.own)
  refine { hgood with
    mem_list := fun b => (hgood.mem_list b).trans (hplace b _ (.inl rfl)).symm
    mem_held := fun g b => (hgood.mem_held g b).trans (hplace b _ (.inr ⟨g, rfl⟩)).symm
    live_iff := fun b => ?_
    own_live := fun g b hg => ?_
    own_inj := fun g h b hg hh => hgood.own_inj g h b (hown g b hg).2 (hown h b hh).2
    waiting := fun b hb => ?_
    unscheduled := fun b hb => hgood.unscheduled b (hwaiting b hb).2
    unstarted := fun b hb => hgood.unstarted b (hb.imp (hplace b _ (.inl rfl)).mp
      fun ⟨g, hg⟩ => ⟨g, (hplace b _ (.inr ⟨g, rfl⟩)).mp hg⟩)
    woken := fun b hb => ?_
    call_lt := fun b hb => hgood.call_lt b (hfree b hb).2
    call_inj := fun b c hb hc => hgood.call_inj b c (hfree b hb).2 (hfree c hc).2 }
  · simp only [Mem.leave]
    by_cases hb : b = a
    · subst hb
      rw [Function.update_self, hself]
      simp
    · rw [Function.update_of_ne hb, hother b hb]
      exact hgood.live_iff b
  · obtain ⟨hne, hg'⟩ := hown g b hg
    rw [hother b hne]
    exact hgood.own_live g b hg'
  · obtain ⟨hne, hb'⟩ := hwaiting b hb
    obtain ⟨g, hfiber, hg, hready⟩ := hgood.waiting b hb'
    have hgf : g ≠ f := by
      rintro rfl
      exact hne (Option.some.inj (hg.symm.trans hdone.own))
    exact ⟨g, hfiber, (Function.update_of_ne hgf ..).trans hg, hready⟩
  · have hne : b ≠ a := by
      rintro rfl
      rw [hself] at hb
      exact absurd hb nofun
    rw [hother b hne] at hb
    exact hgood.woken b hb

theorem leave_evolves (hgood : Good m x) {a : Addr} (hdone : Done m x f a) (hu : u ≠ f) :
    Evolves u m x (m.leave a) (x.leave f a) := by
  have hother : ∀ b, b ≠ a → (x.leave f a).state b = x.state b := fun b hb => Function.update_of_ne hb ..
  have hne : ∀ b, x.own u = some b → b ≠ a := by
    rintro b hb rfl
    exact hu (hgood.own_inj u f b hb hdone.own)
  exact { Evolves.refl u m x with
    own := Function.update_of_ne hu ..
    mine := fun b hb hstate => ⟨(hother b (hne b hb)).trans hstate, rfl, rfl, .refl m b⟩
    woken := fun b hb hstate => ⟨(hother b (hne b hb)).trans hstate, rfl, rfl⟩
    waiting := fun b hb hstate => by
      refine .inl ?_
      rw [hother b (hne b hb)]
      exact hstate
    current := fun w hstate => by
      have hwa : w ≠ a := by
        rintro rfl
        rcases hdone.state with h | h <;> exact absurd (h.symm.trans hstate) nofun
      exact ⟨(hother w hwa).trans hstate, .refl m w⟩ }

theorem ret_keeps (hgood : Good m x) {a : Addr} (hdone : Done m x f a) : Keeps f m x (ret m a) := by
  refine ⟨x.leave f a, leave_good hgood hdone, ⟨Function.update_self .., hdone.ready, hdone.finished⟩, fun u hu => ?_⟩
  exact leave_evolves hgood hdone hu

/-- A new waiter. -/
def Aux.combine (x : Aux Fib) (f : Fib) (a : Addr) : Aux Fib :=
  { x with
    state := Function.update x.state a .own
    own := Function.update x.own f (some a) }

theorem combine_good (hgood : Good m x) {a : Addr} (hfree : m.live a = false) (hnone : x.own f = none) :
    Good (m.combine f a) (x.combine f a) := by
  have hstate : x.state a = .free := by
    by_contra hne
    rw [(hgood.live_iff a).mpr hne] at hfree
    exact absurd hfree (by decide)
  have hself : (x.combine f a).state a = .own := Function.update_self ..
  have hother : ∀ b, b ≠ a → (x.combine f a).state b = x.state b := fun b hb => Function.update_of_ne hb ..
  have hwaiter : ∀ b, b ≠ a → (m.combine f a).waiter b = m.waiter b := fun b hb => Function.update_of_ne hb ..
  have hcall : ((m.combine f a).waiter a).call = m.calls := by simp [Mem.combine]
  have hplace : ∀ b s, s ≠ .own → s ≠ .free → (x.combine f a).state b = s → b ≠ a ∧ x.state b = s := by
    intro b s hs hs' hb
    have hne : b ≠ a := by
      rintro rfl
      exact hs (hb.symm.trans hself)
    exact ⟨hne, (hother b hne).symm.trans hb⟩
  have hback : ∀ b s, s ≠ .free → x.state b = s → b ≠ a ∧ (x.combine f a).state b = s := by
    intro b s hs hb
    have hne : b ≠ a := by
      rintro rfl
      exact hs (hb.symm.trans hstate)
    exact ⟨hne, (hother b hne).trans hb⟩
  have hwaiting : ∀ b, ((x.combine f a).state b).Waiting → b ≠ a ∧ (x.state b).Waiting := by
    intro b hb
    have hne : b ≠ a := by
      rintro rfl
      rw [hself] at hb
      exact hb
    rw [hother b hne] at hb
    exact ⟨hne, hb⟩
  have hold : ∀ b, b ≠ a → (x.combine f a).state b ≠ .free → x.state b ≠ .free := by
    intro b hb
    rw [hother b hb]
    exact id
  refine { hgood with
    mem_list := fun b => ?_
    list_chained := hgood.list_chained.congr fun b hb => ?_
    mem_held := fun g b => ?_
    held_chained := fun g => (hgood.held_chained g).congr fun b hb => ?_
    live_iff := fun b => ?_
    own_live := fun g b hg => ?_
    own_inj := fun g h b hg hh => ?_
    waiting := fun b hb => ?_
    unscheduled := fun b hb => ?_
    unstarted := fun b hb => ?_
    woken := fun b hb => ?_
    call_lt := fun b hb => ?_
    call_inj := fun b c hb hc heq => ?_
    started_lt := fun c hc => Nat.lt_succ_of_lt (hgood.started_lt c hc)
    scheduled_lt := fun c hc => Nat.lt_succ_of_lt (hgood.scheduled_lt c hc) }
  · exact (hgood.mem_list b).trans
      ⟨fun hb => (hback b .listed nofun hb).2, fun hb => (hplace b .listed nofun nofun hb).2⟩
  · rw [hwaiter b (hback b .listed nofun ((hgood.mem_list b).mp hb)).1]
  · exact (hgood.mem_held g b).trans
      ⟨fun hb => (hback b (.held g) nofun hb).2, fun hb => (hplace b (.held g) nofun nofun hb).2⟩
  · rw [hwaiter b (hback b (.held g) nofun ((hgood.mem_held g b).mp hb)).1]
  · by_cases hb : b = a
    · subst hb
      rw [hself]
      simp [Mem.combine]
    · rw [hother b hb]
      simp only [Mem.combine, ne_eq, hb, not_false_eq_true, Function.update_of_ne]
      exact hgood.live_iff b
  · by_cases hb : b = a
    · subst hb
      rw [hself]
      exact nofun
    · rw [hother b hb]
      simp only [Aux.combine] at hg
      by_cases hgf : g = f
      · subst hgf
        rw [Function.update_self] at hg
        exact absurd (Option.some.inj hg).symm hb
      · rw [Function.update_of_ne hgf] at hg
        exact hgood.own_live g b hg
  · simp only [Aux.combine] at hg hh
    have hlive : ∀ k, x.own k = some a → False := fun k hk => hgood.own_live k a hk hstate
    by_cases hgf : g = f
    · by_cases hhf : h = f
      · exact hgf.trans hhf.symm
      · subst hgf
        rw [Function.update_self] at hg
        rw [Function.update_of_ne hhf, ← Option.some.inj hg] at hh
        exact (hlive h hh).elim
    · rw [Function.update_of_ne hgf] at hg
      by_cases hhf : h = f
      · subst hhf
        rw [Function.update_self] at hh
        rw [← Option.some.inj hh] at hg
        exact (hlive g hg).elim
      · rw [Function.update_of_ne hhf] at hh
        exact hgood.own_inj g h b hg hh
  · obtain ⟨hne, hb'⟩ := hwaiting b hb
    obtain ⟨g, hfiber, hown, hready⟩ := hgood.waiting b hb'
    have hgf : g ≠ f := by
      rintro rfl
      exact absurd (hnone.symm.trans hown) nofun
    exact ⟨g, by rw [hwaiter b hne]; exact hfiber, (Function.update_of_ne hgf ..).trans hown, hready⟩
  · obtain ⟨hne, hb'⟩ := hwaiting b hb
    rw [hwaiter b hne]
    exact hgood.unscheduled b hb'
  · have hne : b ≠ a := by
      rintro rfl
      rcases hb with hb | ⟨g, hb⟩ <;> exact absurd (hself.symm.trans hb) nofun
    rw [hwaiter b hne]
    rw [hother b hne] at hb
    exact hgood.unstarted b hb
  · obtain ⟨hne, hb'⟩ := hplace b .woken nofun nofun hb
    rw [hwaiter b hne]
    exact hgood.woken b hb'
  · by_cases hba : b = a
    · subst hba
      rw [hcall]
      exact Nat.lt_succ_self _
    · rw [hwaiter b hba]
      exact Nat.lt_succ_of_lt (hgood.call_lt b (hold b hba hb))
  · by_cases hba : b = a
    · by_cases hca : c = a
      · exact hba.trans hca.symm
      · subst hba
        rw [hcall, hwaiter c hca] at heq
        have := hgood.call_lt c (hold c hca hc)
        omega
    · by_cases hca : c = a
      · subst hca
        rw [hcall, hwaiter b hba] at heq
        have := hgood.call_lt b (hold b hba hb)
        omega
      · rw [hwaiter b hba, hwaiter c hca] at heq
        exact hgood.call_inj b c (hold b hba hb) (hold c hca hc) heq

theorem combine_evolves (hgood : Good m x) {a : Addr} (hfree : m.live a = false) (hu : u ≠ f) :
    Evolves u m x (m.combine f a) (x.combine f a) := by
  have hne : ∀ b, x.state b ≠ .free → b ≠ a := by
    rintro b hb rfl
    rw [(hgood.live_iff b).mpr hb] at hfree
    exact absurd hfree (by decide)
  have hother : ∀ b, x.state b ≠ .free → (x.combine f a).state b = x.state b := fun b hb => Function.update_of_ne (hne b hb) ..
  have hwaiter : ∀ b, x.state b ≠ .free → (m.combine f a).waiter b = m.waiter b := fun b hb =>
    Function.update_of_ne (hne b hb) ..
  have hsame : ∀ b, x.state b ≠ .free → SameCall m (m.combine f a) b := by
    intro b hb
    refine ⟨by rw [hwaiter b hb], ?_, ?_⟩ <;> (rw [hwaiter b hb]; exact Iff.rfl)
  refine { Evolves.refl u m x with
    own := Function.update_of_ne hu ..
    mine := fun b _ hstate => ?_
    woken := fun b _ hstate => ?_
    waiting := fun b _ hstate => ?_
    current := fun w hstate => ?_ }
  · have hb : x.state b ≠ .free := by rw [hstate]; exact nofun
    exact ⟨(hother b hb).trans hstate, hwaiter b hb, rfl, hsame b hb⟩
  · have hb : x.state b ≠ .free := by rw [hstate]; exact nofun
    exact ⟨(hother b hb).trans hstate, rfl, (hsame b hb).1⟩
  · have hb : x.state b ≠ .free := by
      intro heq
      rw [heq] at hstate
      exact hstate
    rw [hother b hb]
    exact .inl hstate
  · have hw : x.state w ≠ .free := by rw [hstate]; exact nofun
    exact ⟨(hother w hw).trans hstate, hsame w hw⟩

end Places

end CppConcur.Fiber.Strand
