import CppConcur.Logic.Code
import CppConcur.Logic.Linearizable
import CppConcur.Logic.Transition
import Mathlib.Data.Set.Lattice
import Mathlib.Order.CompletePartialOrder

/-!
# Objects with a spinlock

The steps of `thread::SpinLock`, and of any object whose methods do their work between `lock()` and `unlock()` of one such
lock. The work is code over cells, so threads are interleaved at single loads and stores, inside the lock and outside. A
caller hands some cells over with a call and gets some back with its return; nobody else writes to them in between. What
lies outside, that is the memory of the clients, may be written by anybody at any time.

If the code of each method, run alone, turns one state of the object into the next as a sequential object does, then the
object is linearizable: a call takes effect when it unlocks. `log` is not part of the source: it has the calls, the
unlocking steps as commits, and the returns. Neither is `outside`, the cells that are in no call and not in the object.
-/

namespace CppConcur.Thread.SpinLock

open Logic Linearizable

variable {Tid Cell Op Res V : Type} {Val : Cell → Type}

/-- The methods of an object: what a call does before it takes the lock, with the lock, and after it has released it. -/
structure Object (Tid Op Res : Type) (Cell : Type) (Val : Cell → Type) where
  before : Tid → Op → Code Cell Val Unit
  inside : Tid → Op → Code Cell Val Res
  after : Tid → Op → Code Cell Val Unit
  /-- what a caller keeps to -/
  allowed : Op → Prop
  /-- the cells that a caller hands over -/
  given : Tid → Op → Set Cell
  /-- the cells that a caller gets back -/
  back : Tid → Op → Res → Set Cell

/-- `locked_` and the cells, and what is not part of the source. -/
structure Mem (Tid Op Res : Type) (Cell : Type) (Val : Cell → Type) where
  locked : Bool
  cell : (c : Cell) → Val c
  outside : Set Cell
  calls : Tid → Nat
  log : List (Event (Tid × Nat) Op Res)

/-- Where a thread is in a call, with the code that is left. -/
inductive Pc (Op Res : Type) (Cell : Type) (Val : Cell → Type)
  | idle
  | before (op : Op) (b : Code Cell Val Unit)
  /-- `locked_.exchange(true)` is next -/
  | exchange (op : Op)
  /-- `locked_.load()` is next -/
  | spin (op : Op)
  | inside (op : Op) (b : Code Cell Val Res)
  | after (op : Op) (r : Res) (b : Code Cell Val Unit)

/-- The thread holds the lock. -/
def Pc.Inside : Pc Op Res Cell Val → Prop
  | inside _ _ => True
  | _ => False

/-- The thread has dereferenced a null pointer or failed an assertion. -/
def Pc.Stuck : Pc Op Res Cell Val → Prop
  | before _ .stuck => True
  | inside _ .stuck => True
  | after _ _ .stuck => True
  | _ => False

section Steps

variable [DecidableEq Tid] [DecidableEq Cell]

/-- The actions of a thread. -/
inductive Act (M : Object Tid Op Res Cell Val) (t : Tid) (m : Mem Tid Op Res Cell Val) :
    Pc Op Res Cell Val → Mem Tid Op Res Cell Val → Pc Op Res Cell Val → Prop
  | client {c : Cell} {v : Val c} (hout : c ∈ m.outside) :
      Act M t m .idle { m with cell := Function.update m.cell c v } .idle
  | call {op : Op} (hallowed : M.allowed op) (hgiven : M.given t op ⊆ m.outside) :
      Act M t m .idle
        { m with outside := m.outside \ M.given t op, log := m.log ++ [.call (t, m.calls t) op] }
        (.before op (M.before t op))
  | before {op : Op} {b b' : Code Cell Val Unit} {cell' : (c : Cell) → Val c} (hstep : b.step m.cell = some (cell', b')) :
      Act M t m (.before op b) { m with cell := cell' } (.before op b')
  -- `Lock`
  | lock {op : Op} : Act M t m (.before op (.ret ())) m (.exchange op)
  | exchange {op : Op} :
      Act M t m (.exchange op) { m with locked := true } (if m.locked then .spin op else .inside op (M.inside t op))
  | spin {op : Op} : Act M t m (.spin op) m (if m.locked then .spin op else .exchange op)
  | inside {op : Op} {b b' : Code Cell Val Res} {cell' : (c : Cell) → Val c} (hstep : b.step m.cell = some (cell', b')) :
      Act M t m (.inside op b) { m with cell := cell' } (.inside op b')
  -- `Unlock`
  | unlock {op : Op} {r : Res} :
      Act M t m (.inside op (.ret r)) { m with locked := false, log := m.log ++ [.commit ⟨(t, m.calls t), op, r⟩] }
        (.after op r (M.after t op))
  | after {op : Op} {r : Res} {b b' : Code Cell Val Unit} {cell' : (c : Cell) → Val c}
      (hstep : b.step m.cell = some (cell', b')) : Act M t m (.after op r b) { m with cell := cell' } (.after op r b')
  | ret {op : Op} {r : Res} :
      Act M t m (.after op r (.ret ()))
        { m with
          outside := m.outside ∪ M.back t op r
          calls := Function.update m.calls t (m.calls t + 1)
          log := m.log ++ [.ret (t, m.calls t) r] } .idle

/-- Any number of threads that use the object, from a memory in which the object has been constructed: its cells are not
outside. -/
def system (M : Object Tid Op Res Cell Val) (constructed : ((c : Cell) → Val c) → Prop) (outside : Set Cell) :
    System (Conf Tid (Mem Tid Op Res Cell Val) (Pc Op Res Cell Val)) :=
  Program.system (Act M) fun c =>
    (c.mem.locked = false ∧ constructed c.mem.cell ∧ c.mem.outside = outside ∧ c.mem.log = []) ∧ ∀ t, c.pc t = .idle

/-! ### A thread that is not disturbed -/

variable {M : Object Tid Op Res Cell Val} {constructed : ((c : Cell) → Val c) → Prop} {outside : Set Cell}
  {pc : Tid → Pc Op Res Cell Val} {m : Mem Tid Op Res Cell Val} {t : Tid} {op : Op} {r : Res}

theorem reachable_act {pc₁ pc₂ : Pc Op Res Cell Val} {m' : Mem Tid Op Res Cell Val}
    (h : (system M constructed outside).Reachable ⟨m, Function.update pc t pc₁⟩) (hact : Act M t m pc₁ m' pc₂) :
    (system M constructed outside).Reachable ⟨m', Function.update pc t pc₂⟩ := by
  refine .step h ⟨t, m', pc₂, ?_, ?_⟩
  · show Act M t m (Function.update pc t pc₁ t) m' pc₂
    rwa [Function.update_self]
  · rw [Function.update_idem]

/-- The code of a call is run to its end, in one of the three places of a call. -/
theorem reachable_code {α : Type} (place : Code Cell Val α → Pc Op Res Cell Val) {b : Code Cell Val α} {a : α}
    {cell' : (c : Cell) → Val c}
    (hplace : ∀ (m : Mem Tid Op Res Cell Val) b b' cell', b.step m.cell = some (cell', b') →
      Act M t m (place b) { m with cell := cell' } (place b'))
    (h : (system M constructed outside).Reachable ⟨m, Function.update pc t (place b)⟩)
    (hrun : b.run m.cell = some (cell', a)) :
    (system M constructed outside).Reachable ⟨{ m with cell := cell' }, Function.update pc t (place (.ret a))⟩ := by
  induction b generalizing m with
  | ret a' =>
    cases hrun
    exact h
  | read c k ih => exact ih _ (reachable_act h (hplace m (.read c k) _ _ rfl)) hrun
  | write c v k ih =>
    have hwritten := reachable_act h (hplace m (.write c v k) k (Function.update m.cell c v) rfl)
    have hrest := ih hwritten hrun
    exact hrest
  | stuck => cases hrun

/-- A whole call. -/
theorem solo (t : Tid) (op : Op) {cell₁ cell₂ cell₃ : (c : Cell) → Val c} (h : (system M constructed outside).Reachable ⟨m, pc⟩)
    (hidle : pc t = .idle) (hlocked : m.locked = false) (hallowed : M.allowed op) (hgiven : M.given t op ⊆ m.outside)
    (hbefore : (M.before t op).run m.cell = some (cell₁, ())) (hinside : (M.inside t op).run cell₁ = some (cell₂, r))
    (hafter : (M.after t op).run cell₂ = some (cell₃, ())) :
    (system M constructed outside).Reachable
      ⟨⟨false, cell₃, m.outside \ M.given t op ∪ M.back t op r, Function.update m.calls t (m.calls t + 1),
        m.log ++ [.call (t, m.calls t) op, .commit ⟨(t, m.calls t), op, r⟩, .ret (t, m.calls t) r]⟩, pc⟩ := by
  have hpc : Function.update pc t .idle = pc := by rw [← hidle, Function.update_eq_self]
  rw [← hpc] at h ⊢
  have hcalled := reachable_act h (.call hallowed hgiven)
  have hready := reachable_code (.before op) (fun _ _ _ _ => .before) hcalled hbefore
  have hexchange := reachable_act (reachable_act hready .lock) .exchange
  rw [if_neg (by simp [hlocked])] at hexchange
  have hdone := reachable_code (.inside op) (fun _ _ _ _ => .inside) hexchange hinside
  have hunlocked := reachable_act hdone .unlock
  have hleft := reachable_code (.after op r) (fun _ _ _ _ => .after) hunlocked hafter
  have hret := reachable_act hleft .ret
  simpa using hret

end Steps

/-! ### Methods that are right when they run alone -/

/-- How a sequential object is kept in cells, and that each method does what the sequential object does. -/
structure Lawful [DecidableEq Cell] (M : Object Tid Op Res Cell Val) (S : Spec V Op Res) where
  /-- the cells of the object -/
  own : V → Set Cell
  inv : V → ((c : Cell) → Val c) → Prop
  /-- what the code before the lock has prepared -/
  ready : Tid → Op → ((c : Cell) → Val c) → Prop
  inv_congr : ∀ v m m', (∀ c ∈ own v, m' c = m c) → inv v m → inv v m'
  ready_congr : ∀ t op m m', (∀ c ∈ M.given t op, m' c = m c) → ready t op m → ready t op m'
  before_spec : ∀ t op m, M.allowed op → (M.before t op).wp (M.given t op) (fun _ => ready t op) m
  /-- with the lock the method has the cells of the object; it leaves the cells `K` to the caller -/
  inside_spec : ∀ t op v m, M.allowed op → inv v m → ready t op m → Disjoint (own v) (M.given t op) →
    (M.inside t op).wp (own v ∪ M.given t op) (fun r m' => ∃ v' K, S.next v op r v' ∧ inv v' m' ∧
      Disjoint (own v') K ∧ own v' ∪ K = own v ∪ M.given t op ∧ M.back t op r ⊆ K ∧
      (M.after t op).wp K (fun _ _ => True) m') m

namespace Lawful

variable [DecidableEq Tid] [DecidableEq Cell] {M : Object Tid Op Res Cell Val} {S : Spec V Op Res} (L : Lawful M S)

/-- What holds when a method is about to unlock an object that was in the state `v` when it locked it. -/
def Post (t : Tid) (op : Op) (v : V) (r : Res) (m : (c : Cell) → Val c) : Prop :=
  ∃ v' K, S.next v op r v' ∧ L.inv v' m ∧ Disjoint (L.own v') K ∧ L.own v' ∪ K = L.own v ∪ M.given t op ∧
    M.back t op r ⊆ K ∧ (M.after t op).wp K (fun _ _ => True) m

/-- The auxiliary value of the proof: the state of the object as of the last unlocking, the thread that holds the lock, and
the cells of the call that each thread is in. -/
structure Aux (Tid Cell V : Type) where
  value : V
  holder : Option Tid
  foot : Tid → Set Cell

/-- The invariant of the memory. -/
structure Good (m : Mem Tid Op Res Cell Val) (x : Aux Tid Cell V) : Prop where
  locked : m.locked = true ↔ x.holder ≠ none
  free : x.holder = none → L.inv x.value m.cell
  own_foot : ∀ t, Disjoint (L.own x.value) (x.foot t)
  own_outside : Disjoint (L.own x.value) m.outside
  foot_foot : ∀ t u, t ≠ u → Disjoint (x.foot t) (x.foot u)
  foot_outside : ∀ t, Disjoint (x.foot t) m.outside
  legal : Legal S m.log x.value
  later : ∀ t n, m.calls t < n → status m.log (t, n) = .absent

/-- What a thread knows. -/
def Assertion (t : Tid) (m : Mem Tid Op Res Cell Val) (x : Aux Tid Cell V) : Pc Op Res Cell Val → Prop
  | .idle => x.holder ≠ some t ∧ x.foot t = ∅ ∧ status m.log (t, m.calls t) = .absent
  | .before op b => x.holder ≠ some t ∧ x.foot t = M.given t op ∧ status m.log (t, m.calls t) = .called op ∧
      M.allowed op ∧ b.wp (M.given t op) (fun _ => L.ready t op) m.cell
  | .exchange op | .spin op => x.holder ≠ some t ∧ x.foot t = M.given t op ∧
      status m.log (t, m.calls t) = .called op ∧ M.allowed op ∧ L.ready t op m.cell
  | .inside op b => x.holder = some t ∧ x.foot t = M.given t op ∧ status m.log (t, m.calls t) = .called op ∧
      b.wp (L.own x.value ∪ M.given t op) (L.Post t op x.value) m.cell
  | .after op r b => x.holder ≠ some t ∧ status m.log (t, m.calls t) = .committed op r ∧ M.back t op r ⊆ x.foot t ∧
      b.wp (x.foot t) (fun _ _ => True) m.cell

variable {L} {t u : Tid} {m m' : Mem Tid Op Res Cell Val} {x x' : Aux Tid Cell V}

omit [DecidableEq Tid] in
theorem Post.congr {op : Op} {v : V} {r : Res} {cell cell' : (c : Cell) → Val c} (h : L.Post t op v r cell)
    (hsame : ∀ c ∈ L.own v ∪ M.given t op, cell' c = cell c) : L.Post t op v r cell' := by
  obtain ⟨v', K, hnext, hinv, hdisj, hcells, hback, hafter⟩ := h
  rw [← hcells] at hsame
  refine ⟨v', K, hnext, L.inv_congr v' _ _ (fun c hc => hsame c (.inl hc)) hinv, hdisj, hcells, hback, ?_⟩
  exact hafter.congr (fun c hc => hsame c (.inr hc)) fun _ _ _ _ => id

/-- What a thread may rely on when others act. -/
structure Evolves (L : Lawful M S) (u : Tid) (m : Mem Tid Op Res Cell Val) (x : Aux Tid Cell V)
    (m' : Mem Tid Op Res Cell Val) (x' : Aux Tid Cell V) : Prop where
  holder : x'.holder = some u ↔ x.holder = some u
  foot : x'.foot u = x.foot u
  cells : ∀ c ∈ x.foot u, m'.cell c = m.cell c
  held : x.holder = some u → x'.value = x.value ∧ ∀ c ∈ L.own x.value, m'.cell c = m.cell c
  calls : m'.calls u = m.calls u
  status : status m'.log (u, m.calls u) = status m.log (u, m.calls u)

theorem Assertion.stable (h : L.Evolves u m x m' x') {pc : Pc Op Res Cell Val} (hpc : L.Assertion u m x pc) :
    L.Assertion u m' x' pc := by
  have hholder : x.holder ≠ some u → x'.holder ≠ some u := mt h.holder.mp
  have hstatus : status m'.log (u, m'.calls u) = status m.log (u, m.calls u) := by
    rw [h.calls]
    exact h.status
  cases pc with
  | idle => exact ⟨hholder hpc.1, h.foot.trans hpc.2.1, hstatus.trans hpc.2.2⟩
  | before op b =>
    obtain ⟨hfree, hfoot, hcalled, hallowed, hcode⟩ := hpc
    refine ⟨hholder hfree, h.foot.trans hfoot, hstatus.trans hcalled, hallowed, ?_⟩
    exact hcode.congr (fun c hc => h.cells c (hfoot ▸ hc)) fun _ m₁ m₂ hsame => L.ready_congr u op m₁ m₂ hsame
  | exchange op | spin op =>
    obtain ⟨hfree, hfoot, hcalled, hallowed, hready⟩ := hpc
    refine ⟨hholder hfree, h.foot.trans hfoot, hstatus.trans hcalled, hallowed, ?_⟩
    exact L.ready_congr u op _ _ (fun c hc => h.cells c (hfoot ▸ hc)) hready
  | inside op b =>
    obtain ⟨hheld, hfoot, hcalled, hcode⟩ := hpc
    obtain ⟨hvalue, hcells⟩ := h.held hheld
    refine ⟨h.holder.mpr hheld, h.foot.trans hfoot, hstatus.trans hcalled, ?_⟩
    rw [hvalue]
    refine hcode.congr (fun c hc => ?_) fun _ _ _ hsame hpost => hpost.congr hsame
    exact hc.elim (hcells c) fun hgiven => h.cells c (hfoot ▸ hgiven)
  | after op r b =>
    obtain ⟨hfree, hcommitted, hback, hcode⟩ := hpc
    refine ⟨hholder hfree, hstatus.trans hcommitted, h.foot ▸ hback, ?_⟩
    rw [h.foot]
    exact hcode.congr h.cells fun _ _ _ _ => id

/-! ### The actions -/

/-- Code of `t` has written to cells that are its own. -/
theorem Good.write (h : L.Good m x) {W : Set Cell} {cell' : (c : Cell) → Val c} (hsame : ∀ c ∉ W, cell' c = m.cell c)
    (hfoot : ∀ u, u ≠ t → Disjoint W (x.foot u)) (hown : x.holder ≠ some t → Disjoint W (L.own x.value)) :
    L.Good { m with cell := cell' } x ∧ ∀ u, u ≠ t → L.Evolves u m x { m with cell := cell' } x := by
  have hkept : ∀ {A : Set Cell}, Disjoint W A → ∀ c ∈ A, cell' c = m.cell c :=
    fun hdisj c hc => hsame c fun hW => Set.disjoint_left.mp hdisj hW hc
  refine ⟨{ h with free := fun hfree => ?_ }, fun u hu => ⟨Iff.rfl, rfl, hkept (hfoot u hu), fun hheld => ⟨rfl, ?_⟩, rfl, rfl⟩⟩
  · have hnot : x.holder ≠ some t := by simp [hfree]
    exact L.inv_congr _ _ _ (hkept (hown hnot)) (h.free hfree)
  · have hnot : x.holder ≠ some t := by simpa [hheld] using hu
    exact hkept (hown hnot)

/-- The status of the calls of other threads does not change with an event of `t`. -/
theorem status_other {log : List (Event (Tid × Nat) Op Res)} {e : Event (Tid × Nat) Op Res} {n k : Nat}
    (he : e.id = (t, k)) (hu : u ≠ t) : status (log ++ [e]) (u, n) = status log (u, n) := by
  apply status_of_ne
  rw [he]
  exact fun heq => hu (congrArg Prod.fst heq).symm

/-- Nothing of the calls to come is in the log. -/
theorem Good.later_snoc (h : L.Good m x) {e : Event (Tid × Nat) Op Res} (he : e.id = (t, m.calls t)) :
    ∀ u n, m.calls u < n → status (m.log ++ [e]) (u, n) = .absent := by
  intro u n hn
  rw [status_of_ne, h.later u n hn]
  rw [he]
  rintro heq
  cases heq
  exact absurd hn (lt_irrefl _)

/-- The cells of the object, of the call of `t` and of the outside are dealt out anew among the three. -/
theorem Good.deal (h : L.Good m x) {own F out : Set Cell} (hcells : ∀ A, Disjoint (L.own x.value) A → Disjoint (x.foot t) A →
      Disjoint m.outside A → Disjoint own A ∧ Disjoint F A ∧ Disjoint out A)
    (hown : Disjoint own F) (hout : Disjoint own out) (hfoot : Disjoint F out) :
    (∀ u, Disjoint own (Function.update x.foot t F u)) ∧ Disjoint own out ∧
      (∀ u w, u ≠ w → Disjoint (Function.update x.foot t F u) (Function.update x.foot t F w)) ∧
      ∀ u, Disjoint (Function.update x.foot t F u) out := by
  have hother (u : Tid) (hu : u ≠ t) := hcells _ (h.own_foot u) (h.foot_foot t u hu.symm) (h.foot_outside u).symm
  refine ⟨fun u => ?_, hout, fun u w huw => ?_, fun u => ?_⟩
  · by_cases hu : u = t
    · simpa [hu] using hown
    · simpa [hu] using (hother u hu).1
  · by_cases hu : u = t
    · subst hu
      simpa [huw.symm] using (hother w huw.symm).2.1
    · by_cases hw : w = t
      · subst hw
        simpa [hu] using (hother u hu).2.1.symm
      · simpa [hu, hw] using h.foot_foot u w huw
  · by_cases hu : u = t
    · simpa [hu] using hfoot
    · simpa [hu] using (hother u hu).2.2.symm

theorem call_kept (h : L.Good m x) {op : Op} (hpc : L.Assertion t m x .idle) (hallowed : M.allowed op)
    (hgiven : M.given t op ⊆ m.outside) :
    let m' := { m with outside := m.outside \ M.given t op, log := m.log ++ [.call (t, m.calls t) op] }
    ∃ x', L.Good m' x' ∧ L.Assertion t m' x' (.before op (M.before t op)) ∧ ∀ u, u ≠ t → L.Evolves u m x m' x' := by
  intro m'
  obtain ⟨hfree, hfoot, habsent⟩ := hpc
  refine ⟨{ x with foot := Function.update x.foot t (M.given t op) }, ?_, ?_, fun u hu => ?_⟩
  · obtain ⟨hown, hout, hfeet, hfoot⟩ := h.deal (t := t)
      (fun A hown _ hout => ⟨hown, hout.mono_left hgiven, hout.mono_left Set.sdiff_subset⟩)
      (h.own_outside.mono_right hgiven) (h.own_outside.mono_right Set.sdiff_subset) Set.disjoint_sdiff_right
    exact ⟨h.locked, h.free, hown, hout, hfeet, hfoot, h.legal.snoc (.call habsent), h.later_snoc rfl⟩
  · exact ⟨hfree, by simp, status_call_self, hallowed, L.before_spec t op m.cell hallowed⟩
  · exact ⟨Iff.rfl, by simp [hu], fun _ _ => rfl, fun _ => ⟨rfl, fun _ _ => rfl⟩, rfl, status_other rfl hu⟩

theorem Good.holder_of_unlocked (h : L.Good m x) (hlocked : m.locked = false) : x.holder = none := by
  by_contra hne
  rw [h.locked.mpr hne] at hlocked
  cases hlocked

theorem acquire_kept (h : L.Good m x) {op : Op} (hpc : L.Assertion t m x (.exchange op)) (hlocked : m.locked = false) :
    ∃ x', L.Good { m with locked := true } x' ∧ L.Assertion t { m with locked := true } x' (.inside op (M.inside t op)) ∧
      ∀ u, u ≠ t → L.Evolves u m x { m with locked := true } x' := by
  obtain ⟨_, hfoot, hcalled, hallowed, hready⟩ := hpc
  have hnone := h.holder_of_unlocked hlocked
  refine ⟨{ x with holder := some t }, ?_, ⟨rfl, hfoot, hcalled, ?_⟩, fun u hu => ?_⟩
  · exact { h with locked := by simp, free := by simp }
  · exact L.inside_spec t op x.value m.cell hallowed (h.free hnone) hready (hfoot ▸ h.own_foot t)
  · refine ⟨by simp [hnone, hu.symm], rfl, fun _ _ => rfl, fun hheld => ?_, rfl, rfl⟩
    rw [hnone] at hheld
    cases hheld

theorem unlock_kept (h : L.Good m x) {op : Op} {r : Res} (hpc : L.Assertion t m x (.inside op (.ret r))) :
    let m' := { m with locked := false, log := m.log ++ [.commit ⟨(t, m.calls t), op, r⟩] }
    ∃ x', L.Good m' x' ∧ L.Assertion t m' x' (.after op r (M.after t op)) ∧ ∀ u, u ≠ t → L.Evolves u m x m' x' := by
  intro m'
  obtain ⟨hheld, hfoot, hcalled, v', K, hnext, hinv, hdisj, hcells, hback, hafter⟩ := hpc
  refine ⟨⟨v', none, Function.update x.foot t K⟩, ?_, ?_, fun u hu => ?_⟩
  · have hall : ∀ A, Disjoint (L.own x.value) A → Disjoint (x.foot t) A → Disjoint (L.own v') A ∧ Disjoint K A := by
      intro A hown hgiven
      rw [← Set.disjoint_union_left, hcells, ← hfoot]
      exact Set.disjoint_union_left.mpr ⟨hown, hgiven⟩
    obtain ⟨hout, hfoot⟩ := hall _ h.own_outside (h.foot_outside t)
    obtain ⟨hown, hout, hfeet, hfoot⟩ := h.deal (fun A hown hfoot hout => and_assoc.mp ⟨hall A hown hfoot, hout⟩) hdisj hout hfoot
    exact ⟨by simp [m'], fun _ => hinv, hown, hout, hfeet, hfoot, h.legal.snoc (.commit hcalled hnext), h.later_snoc rfl⟩
  · exact ⟨by simp, status_commit_self, by simpa using hback, by simpa using hafter⟩
  · refine ⟨by simp [hheld, hu.symm], by simp [hu], fun _ _ => rfl, fun hheld' => ?_, rfl, status_other rfl hu⟩
    rw [hheld] at hheld'
    exact absurd (Option.some.inj hheld').symm hu

theorem ret_kept (h : L.Good m x) {op : Op} {r : Res} (hpc : L.Assertion t m x (.after op r (.ret ()))) :
    let m' := { m with
      outside := m.outside ∪ M.back t op r
      calls := Function.update m.calls t (m.calls t + 1)
      log := m.log ++ [.ret (t, m.calls t) r] }
    ∃ x', L.Good m' x' ∧ L.Assertion t m' x' .idle ∧ ∀ u, u ≠ t → L.Evolves u m x m' x' := by
  intro m'
  obtain ⟨hfree, hcommitted, hback, _⟩ := hpc
  refine ⟨{ x with foot := Function.update x.foot t ∅ }, ?_, ⟨hfree, by simp, ?_⟩, fun u hu => ?_⟩
  · obtain ⟨hown, hout, hfeet, hfoot⟩ := h.deal (t := t)
      (fun A hown hfoot hout => ⟨hown, Set.empty_disjoint A, Set.disjoint_union_left.mpr ⟨hout, hfoot.mono_left hback⟩⟩)
      (Set.disjoint_empty _) (Set.disjoint_union_right.mpr ⟨h.own_outside, (h.own_foot t).mono_right hback⟩) (Set.empty_disjoint _)
    refine ⟨h.locked, h.free, hown, hout, hfeet, hfoot, h.legal.snoc (.ret hcommitted), ?_⟩
    · intro u n hn
      refine h.later_snoc rfl u n (lt_of_le_of_lt ?_ hn)
      by_cases hu : u = t
      · subst hu
        simp [m']
      · simp [m', hu]
  · have hnext : m.calls t < m'.calls t := by simp [m']
    exact h.later_snoc rfl t _ hnext
  · exact ⟨Iff.rfl, by simp [hu], fun _ _ => rfl, fun _ => ⟨rfl, fun _ _ => rfl⟩, by simp [m', hu], status_other rfl hu⟩

theorem action_kept {pc pc' : Pc Op Res Cell Val} (h : L.Good m x) (hpc : L.Assertion t m x pc)
    (hact : Act M t m pc m' pc') :
    ∃ x', L.Good m' x' ∧ L.Assertion t m' x' pc' ∧ ∀ u, u ≠ t → L.Evolves u m x m' x' := by
  have hsame : ∀ u, u ≠ t → L.Evolves u m x m x :=
    fun u _ => ⟨Iff.rfl, rfl, fun _ _ => rfl, fun _ => ⟨rfl, fun _ _ => rfl⟩, rfl, rfl⟩
  cases hact with
  | @client c v hout =>
    have hwrite : ∀ d ∉ ({c} : Set Cell), Function.update m.cell c v d = m.cell d :=
      fun d hd => Function.update_of_ne hd _ _
    have hoff : ∀ {A : Set Cell}, Disjoint A m.outside → Disjoint {c} A :=
      fun hA => Set.disjoint_singleton_left.mpr fun hc => Set.disjoint_left.mp hA hc hout
    obtain ⟨hgood, hothers⟩ := h.write (t := t) hwrite (fun u _ => hoff (h.foot_outside u)) fun _ => hoff h.own_outside
    exact ⟨x, hgood, hpc, hothers⟩
  | call hallowed hgiven => exact call_kept h hpc hallowed hgiven
  | before hstep =>
    obtain ⟨hfree, hfoot, hcalled, hallowed, hcode⟩ := hpc
    obtain ⟨hcode', hwrite⟩ := hcode.step hstep
    obtain ⟨hgood, hothers⟩ := h.write (t := t) hwrite (fun u hu => hfoot ▸ h.foot_foot t u (Ne.symm hu))
      fun _ => (hfoot ▸ h.own_foot t).symm
    exact ⟨x, hgood, ⟨hfree, hfoot, hcalled, hallowed, hcode'⟩, hothers⟩
  | lock => exact ⟨x, h, hpc, hsame⟩
  | exchange =>
    cases hlocked : m.locked with
    | true =>
      have hm : { m with locked := true } = m := by rw [← hlocked]
      rw [hm]
      exact ⟨x, h, hpc, hsame⟩
    | false => exact acquire_kept h hpc hlocked
  | spin =>
    cases m.locked with
    | true => exact ⟨x, h, hpc, hsame⟩
    | false => exact ⟨x, h, hpc, hsame⟩
  | inside hstep =>
    obtain ⟨hheld, hfoot, hcalled, hcode⟩ := hpc
    obtain ⟨hcode', hwrite⟩ := hcode.step hstep
    obtain ⟨hgood, hothers⟩ := h.write (t := t) hwrite
      (fun u hu => Set.disjoint_union_left.mpr ⟨h.own_foot u, hfoot ▸ h.foot_foot t u (Ne.symm hu)⟩)
      fun hnot => absurd hheld hnot
    exact ⟨x, hgood, ⟨hheld, hfoot, hcalled, hcode'⟩, hothers⟩
  | unlock => exact unlock_kept h hpc
  | after hstep =>
    obtain ⟨hfree, hcommitted, hback, hcode⟩ := hpc
    obtain ⟨hcode', hwrite⟩ := hcode.step hstep
    obtain ⟨hgood, hothers⟩ := h.write (t := t) hwrite (fun u hu => h.foot_foot t u (Ne.symm hu))
      fun _ => (h.own_foot t).symm
    exact ⟨x, hgood, ⟨hfree, hcommitted, hback, hcode'⟩, hothers⟩
  | ret => exact ret_kept h hpc

/-- The invariant in every run. -/
theorem good_of_reachable {v : V} {constructed : ((c : Cell) → Val c) → Prop} {outside : Set Cell} (hv : v = S.init)
    (hconstructed : ∀ cell, constructed cell → L.inv v cell) (houtside : Disjoint (L.own v) outside)
    {c : Conf Tid (Mem Tid Op Res Cell Val) (Pc Op Res Cell Val)} (h : (system M constructed outside).Reachable c) :
    ∃ x, L.Good c.mem x ∧ ∀ t, L.Assertion t c.mem x (c.pc t) := by
  subst hv
  refine Program.outline L.Good L.Assertion ?_ ?_ h
  · rintro c ⟨⟨hlocked, hcell, hout, hlog⟩, hpc⟩
    refine ⟨⟨S.init, none, fun _ => ∅⟩, ?_, fun t => ?_⟩
    · refine ⟨by simp [hlocked], fun _ => hconstructed _ hcell, by simp, by simpa [hout] using houtside, by simp, by simp, ?_, ?_⟩
      · rw [hlog]
        exact .nil
      · intro t n _
        rw [hlog]
        rfl
    · rw [hpc t]
      refine ⟨by simp, rfl, ?_⟩
      rw [hlog]
      rfl
  · intro t m x pc m' pc' hgood hpc hact
    obtain ⟨x', hgood', hpc', hothers⟩ := action_kept hgood hpc hact
    exact ⟨x', hgood', hpc', fun u hu k hk => hk.stable (hothers u hu)⟩

/-! ### What the invariant says -/

theorem Good.inv_of_unlocked (h : L.Good m x) (hlocked : m.locked = false) : L.inv x.value m.cell :=
  h.free (h.holder_of_unlocked hlocked)

theorem Assertion.holder {pc : Pc Op Res Cell Val} (h : L.Assertion t m x pc) (hpc : pc.Inside) : x.holder = some t := by
  cases pc with
  | inside op b => exact h.1
  | _ => exact hpc.elim

theorem Assertion.not_stuck {pc : Pc Op Res Cell Val} (h : L.Assertion t m x pc) : ¬ pc.Stuck := by
  intro hstuck
  cases pc with
  | before op b =>
    cases b with
    | stuck => exact h.2.2.2.2
    | _ => exact hstuck
  | inside op b | after op r b =>
    cases b with
    | stuck => exact h.2.2.2
    | _ => exact hstuck
  | _ => exact hstuck

end Lawful

end CppConcur.Thread.SpinLock
