import CppConcur.LockFree.SharedPtrCell
import Mathlib.Data.Fintype.Basic

/-!
# The operations on an `AtomicSharedPtr` take effect one after the other

Every step keeps the record good: the log is that of an atomic cell which holds the pointer of the cell,
and what the log says about the operation of a thread is where the thread is. The commits of the log are
then the order of the operations.
-/

namespace CppConcur.LockFree.SharedPtr

open Logic.Linearizable

variable {Tid Cell Handle : Type*}

/-! ### The record -/

namespace Record

variable {g g₁ g₂ : Record Tid Handle} {v w : Option Addr} {t : Tid} {a : Active Handle} {c : Cell}

/-- The log is that of an atomic cell that holds `v`, and the operations have names of their own. -/
structure Good (g : Record Tid Handle) (v : Option Addr) : Prop where
  legal : Legal ptrCell g.log v
  fresh : ∀ i, g.next ≤ i → status g.log i = .absent
  ids : ∀ t a, g.active t = some a → a.id < g.next
  inj : ∀ t u a b, g.active t = some a → g.active u = some b → a.id = b.id → t = u

/-- Nothing has changed for the operations of the other threads. -/
def Frame (g g' : Record Tid Handle) (t : Tid) : Prop :=
  ∀ u, u ≠ t → g'.active u = g.active u ∧ ∀ b, g.active u = some b → status g'.log b.id = status g.log b.id

theorem Frame.refl (g : Record Tid Handle) (t : Tid) : g.Frame g t := fun _ _ => ⟨rfl, fun _ _ => rfl⟩

theorem Frame.trans (h₁ : g.Frame g₁ t) (h₂ : g₁.Frame g₂ t) : g.Frame g₂ t := by
  intro u hu
  refine ⟨(h₂ u hu).1.trans (h₁ u hu).1, fun b hb => ?_⟩
  rw [(h₂ u hu).2 b ((h₁ u hu).1.trans hb), (h₁ u hu).2 b hb]

/-- What the record says about a thread is where the thread is. -/
def Own (g : Record Tid Handle) (c : Cell) (t : Tid) (pc : Pc Cell Handle) : Prop :=
  match g.active t with
  | some a => pc.Tied c (status g.log a.id) a
  | none => pc.Outside c

/-- The same before the returns of the step are recorded. -/
def Due (g : Record Tid Handle) (c : Cell) (t : Tid) (next : Mem Cell Handle × Pc Cell Handle) : Prop :=
  match g.active t with
  | some a => Settled c (status g.log a.id) a next
  | none => next.2.Outside c

theorem own_some (h : g.active t = some a) {pc : Pc Cell Handle} :
    g.Own c t pc ↔ pc.Tied c (status g.log a.id) a := by
  rw [Own, h]

theorem own_none (h : g.active t = none) {pc : Pc Cell Handle} : g.Own c t pc ↔ pc.Outside c := by
  rw [Own, h]

theorem due_some (h : g.active t = some a) {next : Mem Cell Handle × Pc Cell Handle} :
    g.Due c t next ↔ Settled c (status g.log a.id) a next := by
  rw [Due, h]

theorem due_none (h : g.active t = none) {next : Mem Cell Handle × Pc Cell Handle} :
    g.Due c t next ↔ next.2.Outside c := by
  rw [Due, h]

theorem Own.due {next : Mem Cell Handle × Pc Cell Handle} (h : g.Own c t next.2) : g.Due c t next := by
  cases hactive : g.active t with
  | none => exact (due_none hactive).mpr ((own_none hactive).mp h)
  | some a => exact (due_some hactive).mpr ((own_some hactive).mp h).settled

/-! #### Calls, commits and returns -/

/-- An event about the operation of a thread does not concern the other threads. -/
theorem Good.frame_snoc (h : g.Good v) (hactive : g.active t = some a) {e : Event Nat Op Res} (he : e.id = a.id)
    {u : Tid} (hu : u ≠ t) {b : Active Handle} (hb : g.active u = some b) :
    status (g.log ++ [e]) b.id = status g.log b.id := by
  apply status_of_ne
  rw [he]
  exact fun hid => hu (h.inj u t b a hb hactive hid.symm)

theorem Good.fresh_snoc (h : g.Good v) (hactive : g.active t = some a) {e : Event Nat Op Res} (he : e.id = a.id)
    (i : Nat) (hi : g.next ≤ i) : status (g.log ++ [e]) i = .absent := by
  have hlt := h.ids t a hactive
  rw [status_of_ne (by omega)]
  exact h.fresh i hi

theorem commit_eq (h : g.active t = some a) (r : Res) :
    g.commit t r = { g with log := g.log ++ [.commit ⟨a.id, a.op, r⟩] } := by
  rw [commit, h]

theorem Good.commit (h : g.Good v) (hactive : g.active t = some a) (hst : status g.log a.id = .called a.op) {r : Res}
    (hstep : PtrStep v a.op r w) : (g.commit t r).Good w := by
  rw [commit_eq hactive]
  exact ⟨h.legal.snoc (.commit hst hstep), h.fresh_snoc hactive rfl, h.ids, h.inj⟩

theorem Good.commit_frame (h : g.Good v) (hactive : g.active t = some a) (r : Res) : g.Frame (g.commit t r) t := by
  rw [commit_eq hactive]
  exact fun u hu => ⟨rfl, fun b hb => h.frame_snoc hactive rfl hu hb⟩

theorem commit_due (hactive : g.active t = some a) {r : Res} {next : Mem Cell Handle × Pc Cell Handle}
    (h : Settled c (.committed a.op r) a next) : (g.commit t r).Due c t next := by
  rw [commit_eq hactive]
  refine (due_some (a := a) ?_).mpr ?_
  · exact hactive
  show Settled c (status (g.log ++ [.commit ⟨a.id, a.op, r⟩]) a.id) a next
  rw [status_commit_self (x := ⟨a.id, a.op, r⟩)]
  exact h

variable [DecidableEq Tid]

theorem Good.call (h : g.Good v) (op : Op) (dest : Dest Handle) : (g.call t op dest).Good v where
  legal := h.legal.snoc (.call (h.fresh _ le_rfl))
  fresh i hi := by
    have hlt : g.next < i := hi
    have hkeep : status (g.log ++ [.call g.next op]) i = status g.log i := status_of_ne (show g.next ≠ i by omega)
    exact hkeep.trans (h.fresh i (by omega))
  ids u b hb := by
    rcases eq_or_ne u t with rfl | hu
    · have hself : (g.call u op dest).active u = some ⟨g.next, op, dest⟩ := Function.update_self ..
      obtain rfl := Option.some.inj (hself.symm.trans hb)
      exact Nat.lt_succ_self _
    · have hold : (g.call t op dest).active u = g.active u := Function.update_of_ne hu ..
      exact Nat.lt_succ_of_lt (h.ids u b (hold.symm.trans hb))
  inj u u' b b' hb hb' hid := by
    have hself : (g.call t op dest).active t = some ⟨g.next, op, dest⟩ := Function.update_self ..
    have hold (x : Tid) (hx : x ≠ t) : (g.call t op dest).active x = g.active x := Function.update_of_ne hx ..
    by_cases hu : u = t <;> by_cases hu' : u' = t
    · rw [hu, hu']
    · subst hu
      have hlt := h.ids u' b' ((hold u' hu').symm.trans hb')
      obtain rfl := Option.some.inj (hself.symm.trans hb)
      exact absurd hid (Nat.ne_of_gt hlt)
    · subst hu'
      have hlt := h.ids u b ((hold u hu).symm.trans hb)
      obtain rfl := Option.some.inj (hself.symm.trans hb')
      exact absurd hid (Nat.ne_of_lt hlt)
    · exact h.inj u u' b b' ((hold u hu).symm.trans hb) ((hold u' hu').symm.trans hb') hid

theorem Good.call_frame (h : g.Good v) (op : Op) (dest : Dest Handle) : g.Frame (g.call t op dest) t := by
  intro u hu
  refine ⟨Function.update_of_ne hu _ _, fun b hb => ?_⟩
  have hlt := h.ids u b hb
  exact status_of_ne (show g.next ≠ b.id by omega)

theorem call_own {op : Op} {dest : Dest Handle} {pc : Pc Cell Handle}
    (h : pc.Tied c (.called op) ⟨g.next, op, dest⟩) : (g.call t op dest).Own c t pc := by
  rw [own_some (a := ⟨g.next, op, dest⟩) (Function.update_self ..)]
  show pc.Tied c (status (g.log ++ [.call g.next op]) g.next) _
  rw [status_call_self]
  exact h

theorem fail_active (h : g.active t = some a) (expected : Handle) :
    (g.fail t expected).active t = some { a with dest := .failed expected } := by
  rw [fail, h]
  exact Function.update_self ..

theorem fail_frame (expected : Handle) : g.Frame (g.fail t expected) t :=
  fun _ hu => ⟨Function.update_of_ne hu _ _, fun _ _ => rfl⟩

theorem Good.fail (h : g.Good v) (expected : Handle) : (g.fail t expected).Good v := by
  have hold (u : Tid) (b : Active Handle) (hb : (g.fail t expected).active u = some b) :
      ∃ b', g.active u = some b' ∧ b'.id = b.id := by
    rcases eq_or_ne u t with rfl | hu
    · cases hactive : g.active u with
      | none =>
        rw [Record.fail, hactive] at hb
        cases (Function.update_self ..).symm.trans hb
      | some a =>
        obtain rfl := Option.some.inj ((fail_active hactive expected).symm.trans hb)
        exact ⟨a, rfl, rfl⟩
    · exact ⟨b, (fail_frame expected u hu).1.symm.trans hb, rfl⟩
  refine ⟨h.legal, h.fresh, fun u b hb => ?_, fun u u' b b' hb hb' hid => ?_⟩
  · obtain ⟨b₁, hb₁, hid⟩ := hold u b hb
    rw [← hid]
    exact h.ids u b₁ hb₁
  · obtain ⟨b₁, hb₁, hid₁⟩ := hold u b hb
    obtain ⟨b₂, hb₂, hid₂⟩ := hold u' b' hb'
    exact h.inj u u' b₁ b₂ hb₁ hb₂ (by rw [hid₁, hid, hid₂])

/-- The record of a step in which nothing but the operation of `t` is concerned. -/
structure Kept (g g' : Record Tid Handle) (c : Cell) (t : Tid) (m' : Mem Cell Handle) (pc' : Pc Cell Handle) : Prop where
  good : g'.Good (m'.cell c).rawPtr
  frame : g.Frame g' t
  own : g'.Own c t pc'

/-- Recording the return. -/
theorem Good.ret {m' : Mem Cell Handle} {pc' : Pc Cell Handle} (h : g₁.Good (m'.cell c).rawPtr) (hframe : g.Frame g₁ t)
    (hdue : g₁.Due c t (m', pc')) : g.Kept (g₁.ret t m' pc') c t m' pc' := by
  cases hactive : g₁.active t with
  | none =>
    have heq : g₁.ret t m' pc' = g₁ := by rw [Record.ret, hactive]
    rw [heq]
    exact ⟨h, hframe, (own_none hactive).mpr ((due_none hactive).mp hdue)⟩
  | some a =>
    have hsettled := (due_some hactive).mp hdue
    cases hbody : pc'.inBody with
    | true =>
      have heq : g₁.ret t m' pc' = g₁ := by
        rw [Record.ret, hactive]
        exact if_pos hbody
      rw [Settled, if_pos hbody] at hsettled
      rw [heq]
      exact ⟨h, hframe, (own_some hactive).mpr hsettled⟩
    | false =>
      have heq : g₁.ret t m' pc' =
          { g₁ with
            log := g₁.log ++ [.ret a.id (a.dest.result m')]
            active := Function.update g₁.active t none } := by
        rw [Record.ret, hactive]
        exact if_neg (by simp [hbody])
      rw [Settled, if_neg (by simp [hbody])] at hsettled
      have hold (u : Tid) (b : Active Handle) (hb : Function.update g₁.active t none u = some b) :
          g₁.active u = some b := by
        rcases eq_or_ne u t with rfl | hu
        · cases (Function.update_self ..).symm.trans hb
        · exact (Function.update_of_ne hu ..).symm.trans hb
      rw [heq]
      refine ⟨⟨h.legal.snoc (.ret hsettled), h.fresh_snoc hactive rfl, fun u b hb => h.ids u b (hold u b hb),
        fun u u' b b' hb hb' => h.inj u u' b b' (hold u b hb) (hold u' b' hb')⟩, ?_, ?_⟩
      · exact hframe.trans fun u hu => ⟨Function.update_of_ne hu _ _, fun b hb => h.frame_snoc hactive rfl hu hb⟩
      · exact (own_none (Function.update_self ..)).mpr (Pc.outside_of_inBody hbody c)

end Record

/-! ### The steps -/

section Steps

open Record

variable {g : Record Tid Handle} {m : Mem Cell Handle} {t : Tid} {c c' : Cell} {pc : Pc Cell Handle}

/-- A step that is recorded as it should be, up to the return. -/
structure Recording (c : Cell) (t : Tid) (g g' : Record Tid Handle) (next : Mem Cell Handle × Pc Cell Handle) : Prop where
  good : g'.Good (next.1.cell c).rawPtr
  frame : g.Frame g' t
  due : g'.Due c t next

/-- A step that leaves the pointer of the cell and the record alone. -/
theorem recording_of_keep {next : Mem Cell Handle × Pc Cell Handle} (hgood : g.Good (m.cell c).rawPtr) (hown : g.Own c t pc)
    (hcell : (next.1.cell c).rawPtr = (m.cell c).rawPtr) (htied : ∀ st a, pc.Tied c st a → Settled c st a next)
    (hout : pc.Outside c → next.2.Outside c) : Recording c t g g next := by
  refine ⟨hcell ▸ hgood, .refl g t, ?_⟩
  cases hactive : g.active t with
  | none => exact (due_none hactive).mpr (hout ((own_none hactive).mp hown))
  | some a => exact (due_some hactive).mpr (htied _ a ((own_some hactive).mp hown))

/-- A thread at the cell is in a recorded operation. -/
theorem exists_active (hown : g.Own c t pc) (hout : ¬ pc.Outside c) :
    ∃ a, g.active t = some a ∧ pc.Tied c (status g.log a.id) a := by
  cases hactive : g.active t with
  | none => exact absurd ((own_none hactive).mp hown) hout
  | some a => exact ⟨a, rfl, (own_some hactive).mp hown⟩

theorem LoadTo.Tied.ptrStep {a : Active Handle} {dest : LoadTo Handle} (h : dest.Tied a) (v : Option Addr) :
    PtrStep v a.op (dest.answer v) v := by
  cases dest with
  | handle h' =>
    rw [h.1]
    exact .load v
  | expected expected desired =>
    obtain ⟨⟨p, q, hop⟩, -⟩ := h
    rw [hop]
    exact .fail v p q

variable [DecidableEq Cell]

theorem setCell_of_ne (hc : c' ≠ c) (p : StampedPtr Addr) : (m.setCell c' p).cell c = m.cell c :=
  Function.update_of_ne hc.symm _ _

theorem setCell_self (p : StampedPtr Addr) : (m.setCell c p).cell c = p := Function.update_self ..

variable [DecidableEq Handle]

theorem incCas_cell (old : StampedPtr Addr) (dest : LoadTo Handle) (choice : Choice) (c : Cell) :
    ((step m choice (.incCas c' old dest)).1.cell c).rawPtr = (m.cell c).rawPtr := by
  have hset (h : m.cell c' = old) :
      ((m.setCell c' ⟨old.rawPtr, old.stamp + 1⟩).cell c).rawPtr = (m.cell c).rawPtr := by
    rcases eq_or_ne c' c with rfl | hc
    · rw [setCell_self, h]
    · rw [setCell_of_ne hc]
  simp only [step]
  split
  next h =>
    split
    · rw [tryUpdateTransient_cell, hset h.1]
    · rw [loaded_cell, hset h.1]
  · rfl

theorem flushCas_cell (b : Addr) (stamp : Nat) (dest : LoadTo Handle) (choice : Choice) (c : Cell) :
    ((step m choice (.flushCas c' b stamp dest)).1.cell c).rawPtr = (m.cell c).rawPtr := by
  simp only [step]
  split
  next h =>
    rcases eq_or_ne c' c with rfl | hc
    · rw [setCell_self, h.1]
    · rw [setCell_of_ne hc]
  · rfl

theorem flushCas_recording {b : Addr} {stamp : Nat} {dest : LoadTo Handle} (hgood : g.Good (m.cell c).rawPtr)
    (hown : g.Own c t (.flushCas c' b stamp dest)) (choice : Choice) :
    Recording c t g g (step m choice (.flushCas c' b stamp dest)) := by
  apply recording_of_keep hgood hown (flushCas_cell b stamp dest choice c)
  · rintro st a ⟨rfl, hdest⟩
    simp only [step]
    split
    all_goals
      apply Pc.Tied.settled
      exact hdest
  · intro _
    simp only [step]
    split <;> trivial

theorem addCas_recording {b : Addr} {add old : SplitCount} {k : Cont Cell Handle} (hgood : g.Good (m.cell c).rawPtr)
    (hown : g.Own c t (.addCas b add old k)) (choice : Choice) :
    Recording c t g g (step m choice (.addCas b add old k)) := by
  apply recording_of_keep hgood hown
  · simp only [step]
    split
    · rw [resume_cell]
      rfl
    · rfl
  · intro st a htied
    simp only [step]
    split
    · exact resume_settled htied
    · apply Pc.Tied.settled
      exact htied
  · intro hout
    simp only [step]
    split
    · exact resume_outside hout
    · exact hout

variable [DecidableEq Tid]

theorem incCas_recording {old : StampedPtr Addr} {dest : LoadTo Handle} (hgood : g.Good (m.cell c).rawPtr)
    (hown : g.Own c t (.incCas c' old dest)) (choice : Choice) :
    Recording c t g (g.onStep c m t choice (.incCas c' old dest)) (step m choice (.incCas c' old dest)) := by
  have hcell : ((step m choice (.incCas c' old dest)).1.cell c).rawPtr = (m.cell c).rawPtr := incCas_cell old dest choice c
  by_cases hcas : c' = c ∧ m.cell c' = old ∧ choice.spurious = false
  · obtain ⟨rfl, h⟩ := hcas
    obtain ⟨a, hactive, -, hdest, hst⟩ := exists_active hown (fun hout => hout rfl)
    have hrec : g.onStep c' m t choice (.incCas c' old dest) = g.commit t (dest.answer old.rawPtr) := if_pos ⟨rfl, h⟩
    rw [hrec]
    have hstep : PtrStep (m.cell c').rawPtr a.op (dest.answer old.rawPtr)
        ((step m choice (.incCas c' old dest)).1.cell c').rawPtr := by
      rw [hcell, h.1]
      exact hdest.ptrStep old.rawPtr
    refine ⟨hgood.commit hactive hst hstep, hgood.commit_frame hactive _, commit_due hactive ?_⟩
    simp only [step, if_pos h]
    split
    · exact tryUpdateTransient_settled hdest rfl
    · exact loaded_settled hdest rfl
  · have hrec : g.onStep c m t choice (.incCas c' old dest) = g := if_neg hcas
    rw [hrec]
    apply recording_of_keep hgood hown hcell
    · rintro st a ⟨rfl, hdest, hst⟩
      have hfail : ¬ (m.cell c' = old ∧ choice.spurious = false) := fun h => hcas ⟨rfl, h⟩
      simp only [step, if_neg hfail]
      apply Pc.Tied.settled
      exact ⟨rfl, hdest, hst⟩
    · intro hc
      simp only [step]
      split
      · split
        · exact tryUpdateTransient_outside hc _ dest
        · exact loaded_outside _ dest
      · exact hc

theorem exchange_recording {target : Option Handle} {p : Option Addr} (hgood : g.Good (m.cell c).rawPtr)
    (hown : g.Own c t (.exchange c' target p)) (choice : Choice) :
    Recording c t g (g.onStep c m t choice (.exchange c' target p)) (step m choice (.exchange c' target p)) := by
  rcases eq_or_ne c' c with rfl | hc
  · obtain ⟨a, hactive, -, hop, hdest, hst⟩ := exists_active hown (fun hout => hout rfl)
    have hrec : g.onStep c' m t choice (.exchange c' target p) = g.commit t .stored := if_pos rfl
    rw [hrec]
    have hstep : PtrStep (m.cell c').rawPtr a.op .stored ((step m choice (.exchange c' target p)).1.cell c').rawPtr := by
      rw [step, cleanupStampedBlock_cell, setCell_self, hop]
      exact .store _ p
    refine ⟨hgood.commit hactive hst hstep, hgood.commit_frame hactive _, commit_due hactive ?_⟩
    apply cleanupStampedBlock_settled
    cases target with
    | none | some => exact .inl ⟨hdest, rfl⟩
  · have hrec : g.onStep c m t choice (.exchange c' target p) = g := if_neg hc
    rw [hrec]
    apply recording_of_keep hgood hown
    · rw [step, cleanupStampedBlock_cell, setCell_of_ne hc]
    · exact fun _ _ htied => absurd htied.1 hc
    · exact fun _ => cleanupStampedBlock_outside _ _

theorem casLoad_recording {expected desired : Handle} (hgood : g.Good (m.cell c).rawPtr)
    (hown : g.Own c t (.casLoad c' expected desired)) (choice : Choice) :
    Recording c t g (g.onStep c m t choice (.casLoad c' expected desired)) (step m choice (.casLoad c' expected desired)) := by
  have hcell : (step m choice (.casLoad c' expected desired)).1 = m := by
    simp only [step]
    split <;> rfl
  rcases eq_or_ne c' c with rfl | hc
  · have hrec : g.onStep c' m t choice (.casLoad c' expected desired) =
        g.call t (.compareExchange ((m.handle expected).getD none) ((m.handle desired).getD none)) .exchange := if_pos rfl
    have hne : expected ≠ desired := by
      cases hactive : g.active t with
      | none => exact (own_none hactive).mp hown
      | some a => exact ((own_some hactive).mp hown).elim
    rw [hrec]
    refine ⟨?_, hgood.call_frame _ _, ?_⟩
    · rw [hcell]
      exact hgood.call _ _
    · apply Own.due
      apply call_own
      simp only [step]
      split
      next b hb => exact ⟨rfl, by rw [hb]; rfl, rfl, hne, rfl⟩
      next hb =>
        refine ⟨rfl, ?_, rfl, hne, rfl⟩
        match hd : m.handle desired with
        | none | some none => rfl
        | some (some b) => exact absurd hd (hb b)
  · have hrec : g.onStep c m t choice (.casLoad c' expected desired) = g := if_neg hc
    rw [hrec]
    apply recording_of_keep hgood hown
    · rw [hcell]
    · exact fun _ _ htied => htied.elim
    · intro _
      simp only [step]
      split
      all_goals exact hc

theorem cas_recording {expected desired : Handle} {p : Option Addr} {old : StampedPtr Addr}
    (hgood : g.Good (m.cell c).rawPtr)
    (hown : g.Own c t (.cas c' expected desired p old)) (choice : Choice) :
    Recording c t g (g.onStep c m t choice (.cas c' expected desired p old))
      (step m choice (.cas c' expected desired p old)) := by
  by_cases hcas : m.cell c' = old ∧ choice.spurious = false
  · have hnext : step m choice (.cas c' expected desired p old) =
        cleanupStampedBlock (m.setCell c' ⟨p, 0⟩) old (.drop desired) := if_pos hcas
    rw [hnext]
    rcases eq_or_ne c' c with rfl | hc
    · obtain ⟨a, hactive, -, hop, hdest, -, hst⟩ := exists_active hown (fun hout => hout rfl)
      have hrec : g.onStep c' m t choice (.cas c' expected desired p old) = g.commit t .exchanged :=
        (if_pos rfl).trans (if_pos hcas)
      rw [hrec]
      have hstep : PtrStep (m.cell c').rawPtr a.op .exchanged p := by
        rw [hop, hcas.1]
        exact .exchange old.rawPtr p
      refine ⟨?_, hgood.commit_frame hactive _, commit_due hactive ?_⟩
      · rw [cleanupStampedBlock_cell, setCell_self]
        exact hgood.commit hactive hst hstep
      · exact cleanupStampedBlock_settled (.inr ⟨hdest, rfl⟩)
    · have hrec : g.onStep c m t choice (.cas c' expected desired p old) = g := if_neg hc
      rw [hrec]
      apply recording_of_keep hgood hown
      · rw [cleanupStampedBlock_cell, setCell_of_ne hc]
      · exact fun _ _ htied => absurd htied.1 hc
      · exact fun _ => cleanupStampedBlock_outside _ _
  · have hcell : (step m choice (.cas c' expected desired p old)).1 = m := by
      simp only [step, if_neg hcas]
      split <;> rfl
    rcases eq_or_ne c' c with rfl | hc
    · obtain ⟨a, hactive, -, hop, -, hne, hst⟩ := exists_active hown (fun hout => hout rfl)
      have hrec : g.onStep c' m t choice (.cas c' expected desired p old) = g.fail t expected :=
        (if_pos rfl).trans (if_neg hcas)
      rw [hrec]
      refine ⟨?_, fail_frame expected, ?_⟩
      · rw [hcell]
        exact hgood.fail expected
      · rw [due_some (fail_active hactive expected)]
        simp only [step, if_neg hcas]
        split
        all_goals
          apply Pc.Tied.settled
          exact ⟨rfl, ⟨⟨_, _, hop⟩, rfl, hne⟩, hst⟩
    · have hrec : g.onStep c m t choice (.cas c' expected desired p old) = g := if_neg hc
      rw [hrec]
      apply recording_of_keep hgood hown
      · rw [hcell]
      · exact fun _ _ htied => absurd htied.1 hc
      · intro _
        simp only [step, if_neg hcas]
        split
        all_goals exact hc

theorem step_recording (hgood : g.Good (m.cell c).rawPtr) (hown : g.Own c t pc) (choice : Choice) :
    Recording c t g (g.onStep c m t choice pc) (step m choice pc) := by
  cases pc with
  | idle => exact recording_of_keep hgood hown rfl (fun _ _ htied => htied.elim) fun _ => trivial
  | make h => exact recording_of_keep hgood hown rfl (fun _ _ htied => htied.elim) fun _ => trivial
  | addLoad b add k => exact recording_of_keep hgood hown rfl (fun st a htied => Pc.Tied.settled htied) id
  | addCas b add old k => exact addCas_recording hgood hown choice
  | delete b rest =>
    apply recording_of_keep hgood hown
    · rw [step, finish_cell]
      rfl
    · exact fun st a htied => finish_settled htied
    · exact fun _ => finish_outside rest
  | incLoad c' dest => exact recording_of_keep hgood hown rfl (fun st a htied => Pc.Tied.settled htied) id
  | incCas c' old dest => exact incCas_recording hgood hown choice
  | flushCas c' b stamp dest => exact flushCas_recording hgood hown choice
  | exchange c' target p => exact exchange_recording hgood hown choice
  | casLoad c' expected desired => exact casLoad_recording hgood hown choice
  | cas c' expected desired p old => exact cas_recording hgood hown choice

theorem call_kept {s : Logic.Conf Tid (Mem Cell Handle) (Pc Cell Handle)} {op : Call Cell Handle}
    (hgood : g.Good (s.mem.cell c).rawPtr) (hown : g.Own c t (s.pc t)) (hallowed : Allowed s t op) :
    g.Kept (g.onCall c s.mem t op) c t (call s.mem op).1 (call s.mem op).2 := by
  have hnone : g.active t = none := by
    rw [hallowed.idle] at hown
    cases hactive : g.active t with
    | none => rfl
    | some a => exact ((own_some hactive).mp hown).elim
  have hkeep (hout : (call s.mem op).2.Outside c) : g.Kept g c t (call s.mem op).1 (call s.mem op).2 := by
    refine ⟨?_, .refl g t, (own_none hnone).mpr hout⟩
    rw [call_cell]
    exact hgood
  have hcall {op' : Op} {dest : Dest Handle} (htied : (call s.mem op).2.Tied c (.called op') ⟨g.next, op', dest⟩) :
      g.Kept (g.call t op' dest) c t (call s.mem op).1 (call s.mem op).2 := by
    refine ⟨?_, hgood.call_frame op' dest, call_own htied⟩
    rw [call_cell]
    exact hgood.call op' dest
  cases op with
  | construct | makeShared | move => exact hkeep trivial
  | copy h source =>
    apply hkeep
    simp only [call]
    split <;> trivial
  | reset h => exact hkeep (resetHandle_outside h .ret)
  | destroy h => exact hkeep (Pc.outside_of_inBody (dropHandle_inBody h) c)
  | load c' h =>
    rcases eq_or_ne c' c with rfl | hc
    · have hrec : g.onCall c' s.mem t (.load c' h) = g.call t .load (.load h) := if_pos rfl
      rw [hrec]
      exact hcall ⟨rfl, ⟨rfl, rfl⟩, rfl⟩
    · have hrec : g.onCall c s.mem t (.load c' h) = g := if_neg hc
      rw [hrec]
      exact hkeep hc
  | store c' target =>
    rcases eq_or_ne c' c with rfl | hc
    · have hrec : g.onCall c' s.mem t (.store c' target) = g.call t (.store ((s.mem.handle target).getD none)) .store :=
        if_pos rfl
      rw [hrec]
      apply hcall
      simp only [call]
      split
      next b hb => exact ⟨rfl, by rw [hb]; rfl, rfl, rfl⟩
      next hb =>
        refine ⟨rfl, ?_, rfl, rfl⟩
        rcases hd : s.mem.handle target with _ | _ | b
        · rfl
        · rfl
        · exact absurd hd (hb b)
    · have hrec : g.onCall c s.mem t (.store c' target) = g := if_neg hc
      rw [hrec]
      apply hkeep
      simp only [call]
      split <;> exact hc
  | destroyCell c' =>
    rcases eq_or_ne c' c with rfl | hc
    · have hrec : g.onCall c' s.mem t (.destroyCell c') = g.call t (.store none) .store := if_pos rfl
      rw [hrec]
      exact hcall ⟨rfl, rfl, rfl, rfl⟩
    · have hrec : g.onCall c s.mem t (.destroyCell c') = g := if_neg hc
      rw [hrec]
      exact hkeep hc
  | compareExchangeWeak c' expected desired => exact hkeep hallowed.ready.1

/-! ### The runs -/

/-- The log is that of an atomic cell which holds the pointer of `c`, and says of every thread where it is. -/
structure Recorded (c : Cell) (s : Logic.Conf Tid (Mem Cell Handle) (Pc Cell Handle)) (g : Record Tid Handle) : Prop where
  good : g.Good (s.mem.cell c).rawPtr
  own : ∀ t, g.Own c t (s.pc t)

omit [DecidableEq Cell] [DecidableEq Handle] in
theorem Recorded.update {s : Logic.Conf Tid (Mem Cell Handle) (Pc Cell Handle)} {g' : Record Tid Handle}
    {m' : Mem Cell Handle} {pc' : Pc Cell Handle} (h : Recorded c s g) (hkept : g.Kept g' c t m' pc') :
    Recorded c ⟨m', Function.update s.pc t pc'⟩ g' := by
  refine ⟨hkept.good, fun u => ?_⟩
  show g'.Own c u (Function.update s.pc t pc' u)
  rcases eq_or_ne u t with rfl | hu
  · rw [Function.update_self]
    exact hkept.own
  · rw [Function.update_of_ne hu]
    obtain ⟨hactive, hstatus⟩ := hkept.frame u hu
    have hold := h.own u
    cases hu' : g.active u with
    | none => exact (own_none (hactive.trans hu')).mpr ((own_none hu').mp hold)
    | some b =>
      rw [own_some (hactive.trans hu'), hstatus b hu']
      exact (own_some hu').mp hold

theorem recorded_of_reachable {x : Logic.Conf Tid (Mem Cell Handle) (Pc Cell Handle) × Record Tid Handle}
    (h : (recordedSystem Tid Handle c).Reachable x) : Recorded c x.1 x.2 := by
  apply h.invariant
  · rintro x rfl
    exact ⟨⟨.nil, fun _ _ => rfl, fun _ _ h => (nomatch h), fun _ _ _ _ h => (nomatch h)⟩, fun _ => trivial⟩
  · rintro ⟨s, g⟩ ⟨s', g'⟩ _ hrecorded ⟨t, m', pc', hact, hs'⟩
    obtain rfl : s' = _ := hs'
    apply hrecorded.update
    cases hact with
    | call op hallowed => exact call_kept hrecorded.good (hrecorded.own t) hallowed
    | step choice halloc hstamp =>
      have hrec := step_recording hrecorded.good (hrecorded.own t) choice
      exact hrec.good.ret hrec.frame hrec.due

/-- For any number of threads and any operations on any number of cells, the commits are an order of the
operations on the cell `c` that an atomic cell of pointers could have taken one after the other, and at
every moment they lead to the pointer that is in the cell. They explain the calls and the returns,
consistent with real time, and every operation that has returned has committed between its call and its
return. The steps that increment or flush a stamp change no pointer. -/
theorem linearizable (c : Cell) (s : Logic.Conf Tid (Mem Cell Handle) (Pc Cell Handle)) (g : Record Tid Handle)
    (h : (recordedSystem Tid Handle c).Reachable (s, g)) :
    Explains (commits g.log) g.log ∧ ptrCell.Run (commits g.log) (s.mem.cell c).rawPtr ∧
      (∀ i r, .ret i r ∈ g.log → ∃ op, [.call i op, .commit ⟨i, op, r⟩, .ret i r].Sublist g.log) ∧
      ∀ t choice c', ((∃ c₁ old dest, s.pc t = .incCas c₁ old dest) ∨ ∃ c₁ b stamp dest, s.pc t = .flushCas c₁ b stamp dest) →
        ((step s.mem choice (s.pc t)).1.cell c').rawPtr = (s.mem.cell c').rawPtr := by
  have hlegal := (recorded_of_reachable h).good.legal
  refine ⟨hlegal.explains, hlegal.run, fun i r => hlegal.sublist_of_ret, fun t choice c' hpc => ?_⟩
  obtain ⟨c₁, old, dest, hpc⟩ | ⟨c₁, b, stamp, dest, hpc⟩ := hpc
  · rw [hpc]
    exact incCas_cell old dest choice c'
  · rw [hpc]
    exact flushCas_cell b stamp dest choice c'

end Steps

/-- A block is made, stored and loaded again. -/
theorem linearizable_store_load : ∃ (s : Logic.Conf Unit (Mem Unit Bool) (Pc Unit Bool)) (g : Record Unit Bool),
    (recordedSystem Unit Bool ()).Reachable (s, g) ∧ g.log.getLast? = some (.ret 1 (.value (some 0))) ∧
      commits g.log = [⟨0, .store (some 0), .stored⟩, ⟨1, .load, .value (some 0)⟩] ∧ Explains (commits g.log) g.log ∧
      ptrCell.Run (commits g.log) (s.mem.cell ()).rawPtr ∧ (s.mem.cell ()).rawPtr = some 0 := by
  have hinit : (recordedSystem Unit Bool ()).Reachable (⟨.new, fun _ => .idle⟩, ⟨[], 0, fun _ => none⟩) := .init rfl
  have hmake := reachable_act (t := ()) hinit (.call (.makeShared false) ⟨rfl, rfl, fun _ _ _ => ⟨id, id⟩, nofun⟩)
  have halloc := reachable_act (t := ()) hmake (.step ⟨false, 0⟩ (fun _ _ => rfl) (by decide))
  have hload := reachable_act (t := ()) halloc (.step ⟨false, 0⟩ nofun (by decide))
  have hmade := reachable_act (t := ()) hload (.step ⟨false, 0⟩ nofun (by decide))
  have hstore := reachable_act (t := ()) hmade (.call (.store () false) ⟨rfl, nofun, fun _ _ _ => ⟨id, id⟩, nofun⟩)
  have hstrong := reachable_act (t := ()) hstore (.step ⟨false, 0⟩ nofun (by decide))
  have hadded := reachable_act (t := ()) hstrong (.step ⟨false, 0⟩ nofun (by decide))
  have hexchange := reachable_act (t := ()) hadded (.step ⟨false, 0⟩ nofun (by decide))
  have hdrop := reachable_act (t := ()) hexchange (.step ⟨false, 0⟩ nofun (by decide))
  have hdropped := reachable_act (t := ()) hdrop (.step ⟨false, 0⟩ nofun (by decide))
  have hcall := reachable_act (t := ()) hdropped (.call (.load () true) ⟨rfl, rfl, fun _ _ _ => ⟨id, id⟩, nofun⟩)
  have hinc := reachable_act (t := ()) hcall (.step ⟨false, 0⟩ nofun (by decide))
  have hloaded := reachable_act (t := ()) hinc (.step ⟨false, 0⟩ nofun (by decide))
  obtain ⟨hexplains, hrun, -, -⟩ := linearizable () _ _ hloaded
  exact ⟨_, _, hloaded, rfl, rfl, hexplains, hrun, rfl⟩

end CppConcur.LockFree.SharedPtr
