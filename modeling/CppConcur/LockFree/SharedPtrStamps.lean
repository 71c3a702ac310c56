import CppConcur.LockFree.SharedPtrLinearizable

/-!
# The stamps of an `AtomicSharedPtr`

A cell is one packed word in which the stamp has 16 bits. Here nothing is assumed about the stamps: a
stamped pointer is packed when it is written, and when it is compared with the cell. That makes a
difference in two places, for the stamp that `FetchIncrement` writes and for the stamp that
`TryUpdateTransient` expects; every other stamp is 0 or has been loaded from a cell.

A `Load` that sees the stamp pass 10000 tries to flush it, once. If another `Load` of the cell increments
the stamp in between, the flush fails, and two threads that overtake each other in turn take the stamp all
the way to `2^16`. If no flush is overtaken, the stamp of a cell that holds a block never passes 10001.
-/

namespace CppConcur.LockFree.SharedPtr

variable {Tid Cell Handle : Type*} [DecidableEq Cell] [DecidableEq Handle]

/-- One atomic step of an operation on packed words. -/
def packedStep (m : Mem Cell Handle) (choice : Choice) : Pc Cell Handle → Mem Cell Handle × Pc Cell Handle
  | .incCas c old dest =>
      if m.cell c = old ∧ choice.spurious = false then
        let incremented : StampedPtr Addr := ⟨old.rawPtr, old.stamp + 1⟩
        if old.stamp + 1 > 10000 then tryUpdateTransient (m.setCell c incremented.pack) c incremented dest
        else loaded (m.setCell c incremented.pack) old.rawPtr dest
      else (m, .incCas c (m.cell c) dest)
  | .flushCas c b stamp dest =>
      if m.cell c = StampedPtr.pack ⟨some b, stamp⟩ ∧ choice.spurious = false then
        (m.setCell c ⟨some b, 0⟩, fetchAddStrong b (-1) (.flushed dest))
      else (m, fetchAddTransientAndStrong b (-stamp) (-1) (.flushed dest))
  | pc => step m choice pc

section System

variable [DecidableEq Tid]

/-- The actions of a thread on packed words, of which the guard admits some. -/
inductive PackedAct (guard : Logic.Conf Tid (Mem Cell Handle) (Pc Cell Handle) → Tid → Choice → Prop)
    (s : Logic.Conf Tid (Mem Cell Handle) (Pc Cell Handle)) (t : Tid) : Mem Cell Handle → Pc Cell Handle → Prop
  | call (op : Call Cell Handle) (hallowed : Allowed s t op) : PackedAct guard s t (call s.mem op).1 (call s.mem op).2
  | step (choice : Choice) (halloc : ∀ h, s.pc t = .make h → s.mem.live choice.addr = false) (hguard : guard s t choice) :
      PackedAct guard s t (packedStep s.mem choice (s.pc t)).1 (packedStep s.mem choice (s.pc t)).2

/-- Any number of threads, cells and handles, on packed words. -/
def packedSystem (guard : Logic.Conf Tid (Mem Cell Handle) (Pc Cell Handle) → Tid → Choice → Prop) :
    Logic.System (Logic.Conf Tid (Mem Cell Handle) (Pc Cell Handle)) where
  init s := s = ⟨.new, fun _ => .idle⟩
  step s s' := ∃ t m' pc', PackedAct guard s t m' pc' ∧ s' = ⟨m', Function.update s.pc t pc'⟩

end System

/-! ### How a step changes a cell -/

/-- A `Load` that has incremented the stamp of the cell `c` past 10000, to `stamp`, and has not yet tried to flush it. -/
def Pc.Flushes (c : Cell) (b : Addr) (stamp : Nat) : Pc Cell Handle → Prop
  | .addLoad b' _ (.flush c' stamp' _) | .addCas b' _ _ (.flush c' stamp' _) | .flushCas c' b' stamp' _ =>
      c' = c ∧ b' = b ∧ stamp' = stamp
  | _ => False

section Steps

variable {m : Mem Cell Handle} {c c' : Cell}

omit [DecidableEq Handle] in
theorem setCell_cell (c' : Cell) (p : StampedPtr Addr) (c : Cell) :
    (m.setCell c' p).cell c = m.cell c ∨ c' = c ∧ (m.setCell c' p).cell c = p := by
  rcases eq_or_ne c' c with rfl | hc
  · exact .inr ⟨rfl, setCell_self p⟩
  · exact .inl (setCell_of_ne hc p)

/-- A step leaves a cell alone, resets its stamp, or increments it. -/
theorem packedStep_cell (choice : Choice) (pc : Pc Cell Handle) (c : Cell) :
    (packedStep m choice pc).1.cell c = m.cell c ∨ ((packedStep m choice pc).1.cell c).stamp = 0 ∨
      ∃ dest, pc = .incCas c (m.cell c) dest ∧ choice.spurious = false ∧
        (packedStep m choice pc).1.cell c = StampedPtr.pack ⟨(m.cell c).rawPtr, (m.cell c).stamp + 1⟩ := by
  cases pc with
  | idle | make | addLoad | incLoad => exact .inl rfl
  | addCas b add old k =>
    left
    simp only [packedStep, step]
    split
    · rw [resume_cell]
      rfl
    · rfl
  | delete b rest =>
    left
    simp only [packedStep, step, finish_cell]
    rfl
  | incCas c' old dest =>
    by_cases h : m.cell c' = old ∧ choice.spurious = false
    · have hcell : (packedStep m choice (.incCas c' old dest)).1.cell =
          (m.setCell c' (StampedPtr.pack ⟨old.rawPtr, old.stamp + 1⟩)).cell := by
        simp only [packedStep, if_pos h]
        split
        · rw [tryUpdateTransient_cell]
        · rw [loaded_cell]
      rw [hcell]
      obtain hsame | ⟨rfl, hset⟩ := setCell_cell (m := m) c' (StampedPtr.pack ⟨old.rawPtr, old.stamp + 1⟩) c
      · exact .inl hsame
      · obtain ⟨rfl, hspurious⟩ := h
        exact .inr (.inr ⟨dest, rfl, hspurious, hset⟩)
    · left
      simp only [packedStep, if_neg h]
  | flushCas c' b stamp dest =>
    simp only [packedStep]
    split
    · obtain hsame | ⟨rfl, hset⟩ := setCell_cell (m := m) c' ⟨some b, 0⟩ c
      · exact .inl hsame
      · exact .inr (.inl (by rw [hset]))
    · exact .inl rfl
  | exchange c' target p =>
    simp only [packedStep, step, cleanupStampedBlock_cell]
    obtain hsame | ⟨rfl, hset⟩ := setCell_cell (m := m) c' ⟨p, 0⟩ c
    · exact .inl hsame
    · exact .inr (.inl (by rw [hset]))
  | casLoad c' expected desired =>
    left
    simp only [packedStep, step]
    split <;> rfl
  | cas c' expected desired p old =>
    simp only [packedStep, step]
    split
    · rw [cleanupStampedBlock_cell]
      obtain hsame | ⟨rfl, hset⟩ := setCell_cell (m := m) c' ⟨p, 0⟩ c
      · exact .inl hsame
      · exact .inr (.inl (by rw [hset]))
    · left
      split <;> rfl

/-- A flush that has found its stamp in the cell goes on until it has reset it. -/
theorem packedStep_flushes {choice : Choice} {pc : Pc Cell Handle} {b : Addr} {stamp : Nat} (h : pc.Flushes c b stamp)
    (hcell : m.cell c = ⟨some b, stamp⟩) (hstamp : stamp < stamps)
    (hspurious : ∀ c b stamp dest, pc = .flushCas c b stamp dest → choice.spurious = false) :
    (packedStep m choice pc).2.Flushes c b stamp ∨ ((packedStep m choice pc).1.cell c).stamp = 0 := by
  match pc, h with
  | .addLoad _ _ (.flush _ _ _), h => exact .inl h
  | .addCas b' add old (.flush c' stamp' dest), h =>
    left
    simp only [packedStep, step]
    split
    · exact h
    · exact h
  | .flushCas c' b' stamp' dest, h =>
    obtain ⟨rfl, rfl, rfl⟩ := h
    right
    have hmatch : m.cell c' = StampedPtr.pack ⟨some b', stamp'⟩ ∧ choice.spurious = false := by
      refine ⟨?_, hspurious _ _ _ _ rfl⟩
      rw [hcell]
      exact (StampedPtr.pack_of_lt hstamp).symm
    simp only [packedStep, if_pos hmatch, setCell_self]

/-- The `Load` that increments a stamp past 10000 is going to flush it. -/
theorem packedStep_flush {choice : Choice} {b : Addr} {dest : LoadTo Handle} (hcell : (m.cell c).rawPtr = some b)
    (hstamp : (m.cell c).stamp + 1 > 10000) (hspurious : choice.spurious = false) :
    (packedStep m choice (.incCas c (m.cell c) dest)).2.Flushes c b ((m.cell c).stamp + 1) := by
  simp only [packedStep, if_pos (And.intro trivial hspurious), if_pos hstamp, tryUpdateTransient, hcell]
  exact ⟨rfl, rfl, rfl⟩

omit [DecidableEq Cell] [DecidableEq Handle] in
theorem Pc.Flushes.not_outside {pc : Pc Cell Handle} {b : Addr} {stamp : Nat} (h : pc.Flushes c b stamp) :
    ¬ pc.Outside c := by
  match pc, h with
  | .addLoad _ _ (.flush _ _ _), ⟨hc, _⟩ | .addCas _ _ _ (.flush _ _ _), ⟨hc, _⟩ | .flushCas _ _ _ _, ⟨hc, _⟩ =>
    exact fun hout => hout hc

omit [DecidableEq Cell] in
theorem call_not_flushes (op : Call Cell Handle) (b : Addr) (stamp : Nat) : ¬ (call m op).2.Flushes c b stamp := by
  cases op with
  | construct | makeShared | move | load | destroyCell | compareExchangeWeak => exact id
  | copy h source =>
    simp only [call]
    split <;> exact id
  | reset h => exact fun hflush => hflush.not_outside (resetHandle_outside h .ret)
  | destroy h => exact fun hflush => hflush.not_outside (Pc.outside_of_inBody (dropHandle_inBody h) c)
  | store c' target =>
    simp only [call]
    split <;> exact id

/-- A flush begins with an increment. -/
theorem flushes_of_packedStep {choice : Choice} {pc : Pc Cell Handle} {b : Addr} {stamp : Nat}
    (h : (packedStep m choice pc).2.Flushes c b stamp) :
    pc.Flushes c b stamp ∨ ∃ dest, pc = .incCas c (m.cell c) dest ∧ choice.spurious = false ∧
      (m.cell c).rawPtr = some b ∧ stamp = (m.cell c).stamp + 1 := by
  cases pc with
  | idle | make | incLoad => exact h.elim
  | addLoad b' add k =>
    cases k with
    | flush => exact .inl h
    | handle | reset | exchange | cleanup | cas | undo | flushed => exact h.elim
  | addCas b' add old k =>
    simp only [packedStep, step] at h
    split at h
    · cases k with
      | handle | exchange | cas | undo => exact h.elim
      | reset _ rest => exact absurd (deleteIfZero_outside b' rest) h.not_outside
      | cleanup rest => exact absurd (deleteIfZero_outside b' rest) h.not_outside
      | flushed dest => exact absurd (loaded_outside (some b') dest) h.not_outside
      | flush => exact .inl h
    · cases k with
      | flush => exact .inl h
      | handle | reset | exchange | cleanup | cas | undo | flushed => exact h.elim
  | delete b' rest => exact absurd (finish_outside rest) h.not_outside
  | incCas c' old dest =>
    simp only [packedStep] at h
    split at h
    next hcas =>
      obtain ⟨rfl, hspurious⟩ := hcas
      split at h
      · simp only [tryUpdateTransient] at h
        split at h
        · exact absurd (loaded_outside none dest) h.not_outside
        next b' hb =>
          obtain ⟨rfl, rfl, rfl⟩ := h
          exact .inr ⟨dest, rfl, hspurious, hb, rfl⟩
      · exact absurd (loaded_outside _ dest) h.not_outside
    · exact h.elim
  | flushCas c' b' stamp' dest =>
    simp only [packedStep] at h
    split at h <;> exact h.elim
  | exchange c' target p => exact absurd (cleanupStampedBlock_outside _ _) h.not_outside
  | casLoad c' expected desired =>
    simp only [packedStep, step] at h
    split at h <;> exact h.elim
  | cas c' expected desired p old =>
    simp only [packedStep, step] at h
    split at h
    · exact absurd (cleanupStampedBlock_outside _ _) h.not_outside
    · split at h <;> exact h.elim

end Steps

/-! ### Flushes that are not overtaken -/

section Calm

variable [DecidableEq Tid] {s : Logic.Conf Tid (Mem Cell Handle) (Pc Cell Handle)} {t : Tid} {choice : Choice}

/-- No stamp is incremented while a `Load` is about to flush the stamp of the cell, and the flush does not
fail spuriously. -/
def Calm (s : Logic.Conf Tid (Mem Cell Handle) (Pc Cell Handle)) (t : Tid) (choice : Choice) : Prop :=
  (∀ c dest, s.pc t = .incCas c (s.mem.cell c) dest → choice.spurious = false → ∀ u b stamp, ¬ (s.pc u).Flushes c b stamp) ∧
    ∀ c b stamp dest, s.pc t = .flushCas c b stamp dest → choice.spurious = false

/-- The stamp of a cell that holds a block is at most 10001, and if it is 10001 there is a flush of it. -/
structure Bounded (s : Logic.Conf Tid (Mem Cell Handle) (Pc Cell Handle)) : Prop where
  le : ∀ c, (s.mem.cell c).rawPtr ≠ none → (s.mem.cell c).stamp ≤ 10001
  flush : ∀ c b, s.mem.cell c = ⟨some b, 10001⟩ → ∃ t, (s.pc t).Flushes c b 10001
  flush_le : ∀ t c b stamp, (s.pc t).Flushes c b stamp → stamp ≤ 10001

omit [DecidableEq Tid] [DecidableEq Cell] [DecidableEq Handle] in
/-- A stamp that is incremented has not passed 10000. -/
theorem Bounded.le_of_inc (h : Bounded s) (hcalm : Calm s t choice) {c : Cell} {dest : LoadTo Handle}
    (hpc : s.pc t = .incCas c (s.mem.cell c) dest) (hspurious : choice.spurious = false)
    (hcell : (s.mem.cell c).rawPtr ≠ none) : (s.mem.cell c).stamp ≤ 10000 := by
  have hle := h.le c hcell
  by_contra hlt
  obtain ⟨b, hb⟩ := Option.ne_none_iff_exists'.mp hcell
  have heq : s.mem.cell c = ⟨some b, 10001⟩ := by
    rw [← hb, show 10001 = (s.mem.cell c).stamp by omega]
  obtain ⟨u, hu⟩ := h.flush c b heq
  exact hcalm.1 c dest hpc hspurious u b 10001 hu

omit [DecidableEq Tid] [DecidableEq Cell] [DecidableEq Handle] in
theorem Bounded.pack_inc (h : Bounded s) (hcalm : Calm s t choice) {c : Cell} {dest : LoadTo Handle}
    (hpc : s.pc t = .incCas c (s.mem.cell c) dest) (hspurious : choice.spurious = false)
    (hcell : (s.mem.cell c).rawPtr ≠ none) :
    StampedPtr.pack ⟨(s.mem.cell c).rawPtr, (s.mem.cell c).stamp + 1⟩ =
      ⟨(s.mem.cell c).rawPtr, (s.mem.cell c).stamp + 1⟩ := by
  have hle := h.le_of_inc hcalm hpc hspurious hcell
  exact StampedPtr.pack_of_lt (Nat.lt_of_le_of_lt (Nat.succ_le_succ hle) (by decide))

omit [DecidableEq Cell] in
theorem Bounded.call (h : Bounded s) (op : Call Cell Handle) (hallowed : Allowed s t op) :
    Bounded ⟨(call s.mem op).1, Function.update s.pc t (call s.mem op).2⟩ := by
  have hpc (u : Tid) (c : Cell) (b : Addr) (stamp : Nat) :
      (Function.update s.pc t (SharedPtr.call s.mem op).2 u).Flushes c b stamp ↔ (s.pc u).Flushes c b stamp := by
    rcases eq_or_ne u t with rfl | hu
    · rw [Function.update_self, hallowed.idle]
      exact iff_of_false (call_not_flushes op b stamp) id
    · rw [Function.update_of_ne hu]
  refine ⟨fun c => ?_, fun c b => ?_, fun u c b stamp hflush => h.flush_le u c b stamp ((hpc u c b stamp).mp hflush)⟩
  · rw [call_cell]
    exact h.le c
  · rw [call_cell]
    intro hcell
    obtain ⟨u, hu⟩ := h.flush c b hcell
    exact ⟨u, (hpc u c b 10001).mpr hu⟩

theorem Bounded.step (h : Bounded s) (hcalm : Calm s t choice) :
    Bounded ⟨(packedStep s.mem choice (s.pc t)).1, Function.update s.pc t (packedStep s.mem choice (s.pc t)).2⟩ := by
  refine ⟨fun c hcell => ?_, fun c b hcell => ?_, fun u c b stamp hflush => ?_⟩
  · rcases packedStep_cell choice (s.pc t) c with hsame | hzero | ⟨dest, hpc, hspurious, hnew⟩
    · rw [hsame] at hcell ⊢
      exact h.le c hcell
    · rw [hzero]
      exact Nat.zero_le _
    · rw [hnew] at hcell ⊢
      have hle := h.le_of_inc hcalm hpc hspurious hcell
      rw [h.pack_inc hcalm hpc hspurious hcell]
      show (s.mem.cell c).stamp + 1 ≤ 10001
      omega
  · rcases packedStep_cell choice (s.pc t) c with hsame | hzero | ⟨dest, hpc, hspurious, hnew⟩
    · have hold : s.mem.cell c = ⟨some b, 10001⟩ := hsame.symm.trans hcell
      obtain ⟨u, hu⟩ := h.flush c b hold
      refine ⟨u, ?_⟩
      rcases eq_or_ne u t with rfl | hne
      · show (Function.update s.pc u _ u).Flushes c b 10001
        rw [Function.update_self]
        refine (packedStep_flushes hu hold (by rw [stamps]; omega) hcalm.2).resolve_right fun hzero => ?_
        rw [hcell] at hzero
        cases hzero
      · show (Function.update s.pc t _ u).Flushes c b 10001
        rw [Function.update_of_ne hne]
        exact hu
    · rw [hcell] at hzero
      cases hzero
    · have hraw : (s.mem.cell c).rawPtr = some b := congrArg StampedPtr.rawPtr (hnew.symm.trans hcell)
      have hstamp : (s.mem.cell c).stamp + 1 = 10001 := by
        rw [h.pack_inc hcalm hpc hspurious (by rw [hraw]; exact Option.some_ne_none b)] at hnew
        exact congrArg StampedPtr.stamp (hnew.symm.trans hcell)
      refine ⟨t, ?_⟩
      show (Function.update s.pc t _ t).Flushes c b 10001
      rw [Function.update_self, hpc, ← hstamp]
      exact packedStep_flush hraw (by omega) hspurious
  · have hflush : (Function.update s.pc t (packedStep s.mem choice (s.pc t)).2 u).Flushes c b stamp := hflush
    rcases eq_or_ne u t with rfl | hne
    · rw [Function.update_self] at hflush
      rcases flushes_of_packedStep hflush with hold | ⟨dest, hpc, hspurious, hraw, rfl⟩
      · exact h.flush_le u c b stamp hold
      · have hle := h.le_of_inc hcalm hpc hspurious (by rw [hraw]; exact Option.some_ne_none b)
        omega
    · rw [Function.update_of_ne hne] at hflush
      exact h.flush_le u c b stamp hflush

theorem bounded_of_reachable (h : (packedSystem Calm).Reachable s) : Bounded s := by
  apply h.invariant
  · rintro s rfl
    exact ⟨fun c hc => absurd rfl hc, fun c b hc => (nomatch hc), fun _ _ _ _ hflush => hflush.elim⟩
  · rintro s s' _ hs ⟨t, m', pc', hact, rfl⟩
    cases hact with
    | call op hallowed => exact hs.call op hallowed
    | step choice halloc hcalm => exact hs.step hcalm

omit [DecidableEq Tid] in
/-- A step that increments the stamp of no null pointer does the same on packed words as if stamps had no limit. -/
theorem Bounded.packedStep_eq (h : Bounded s) (hcalm : Calm s t choice)
    (hnull : ∀ c dest, s.pc t = .incCas c (s.mem.cell c) dest → (s.mem.cell c).rawPtr ≠ none) :
    packedStep s.mem choice (s.pc t) = SharedPtr.step s.mem choice (s.pc t) := by
  match hpc : s.pc t with
  | .incCas c old dest =>
    by_cases hcas : s.mem.cell c = old ∧ choice.spurious = false
    · obtain ⟨rfl, hspurious⟩ := hcas
      have hpack := h.pack_inc hcalm hpc hspurious (hnull c dest hpc)
      simp only [packedStep, SharedPtr.step, hpack]
    · simp only [packedStep, SharedPtr.step, if_neg hcas]
  | .flushCas c b stamp dest =>
    have hle := h.flush_le t c b stamp (by rw [hpc]; exact ⟨rfl, rfl, rfl⟩)
    have hpack : StampedPtr.pack ⟨some b, stamp⟩ = ⟨some b, stamp⟩ :=
      StampedPtr.pack_of_lt (Nat.lt_of_le_of_lt hle (by decide))
    simp only [packedStep, SharedPtr.step, hpack]
  | .idle | .make _ | .addLoad _ _ _ | .addCas _ _ _ _ | .delete _ _ | .incLoad _ _ | .exchange _ _ _ | .casLoad _ _ _
  | .cas _ _ _ _ _ => rfl

/-- In every run in which no flush is overtaken by an increment of the same stamp or fails spuriously, the
stamp of a cell that holds a block is below `2^16 - 1`, and the steps on packed words are the steps on
stamps without a limit. (The stamp of a cell that holds no block may wrap around; nothing is counted
with it.) -/
theorem stamps_fit (s : Logic.Conf Tid (Mem Cell Handle) (Pc Cell Handle)) (h : (packedSystem Calm).Reachable s) :
    (∀ c, (s.mem.cell c).rawPtr ≠ none → (s.mem.cell c).stamp < 2 ^ 16 - 1) ∧
      ∀ t choice, Calm s t choice → (∀ c dest, s.pc t = .incCas c (s.mem.cell c) dest → (s.mem.cell c).rawPtr ≠ none) →
        packedStep s.mem choice (s.pc t) = SharedPtr.step s.mem choice (s.pc t) := by
  have hbounded := bounded_of_reachable h
  refine ⟨fun c hcell => ?_, fun t choice hcalm hnull => hbounded.packedStep_eq hcalm hnull⟩
  exact Nat.lt_of_le_of_lt (hbounded.le c hcell) (by decide)

/-- A block is made, stored and loaded. -/
theorem stamps_fit_load : ∃ s : Logic.Conf Unit (Mem Unit Bool) (Pc Unit Bool),
    (packedSystem Calm).Reachable s ∧ s.mem.cell () = ⟨some 0, 1⟩ ∧ (s.mem.cell ()).stamp < 2 ^ 16 - 1 := by
  have hinit : (packedSystem Calm : Logic.System (Logic.Conf Unit (Mem Unit Bool) (Pc Unit Bool))).Reachable
      ⟨.new, fun _ => .idle⟩ := .init rfl
  have hmake := hinit.step ⟨(), _, _, .call (.makeShared false) ⟨rfl, rfl, fun _ _ _ => ⟨id, id⟩, nofun⟩, rfl⟩
  have halloc := hmake.step ⟨(), _, _, .step ⟨false, 0⟩ (fun _ _ => rfl) ⟨nofun, nofun⟩, rfl⟩
  have hload := halloc.step ⟨(), _, _, .step ⟨false, 0⟩ nofun ⟨nofun, nofun⟩, rfl⟩
  have hmade := hload.step ⟨(), _, _, .step ⟨false, 0⟩ nofun ⟨nofun, nofun⟩, rfl⟩
  have hstore := hmade.step ⟨(), _, _, .call (.store () false) ⟨rfl, nofun, fun _ _ _ => ⟨id, id⟩, nofun⟩, rfl⟩
  have hstrong := hstore.step ⟨(), _, _, .step ⟨false, 0⟩ nofun ⟨nofun, nofun⟩, rfl⟩
  have hadded := hstrong.step ⟨(), _, _, .step ⟨false, 0⟩ nofun ⟨nofun, nofun⟩, rfl⟩
  have hexchange := hadded.step ⟨(), _, _, .step ⟨false, 0⟩ nofun ⟨nofun, nofun⟩, rfl⟩
  have hdrop := hexchange.step ⟨(), _, _, .step ⟨false, 0⟩ nofun ⟨nofun, nofun⟩, rfl⟩
  have hdropped := hdrop.step ⟨(), _, _, .step ⟨false, 0⟩ nofun ⟨nofun, nofun⟩, rfl⟩
  have hcall := hdropped.step ⟨(), _, _, .call (.load () true) ⟨rfl, rfl, fun _ _ _ => ⟨id, id⟩, nofun⟩, rfl⟩
  have hinc := hcall.step ⟨(), _, _, .step ⟨false, 0⟩ nofun ⟨nofun, nofun⟩, rfl⟩
  have hloaded := hinc.step ⟨(), _, _, .step ⟨false, 0⟩ nofun ⟨fun _ _ _ _ _ _ _ => id, nofun⟩, rfl⟩
  exact ⟨_, hloaded, rfl, (stamps_fit _ hloaded).1 () nofun⟩

end Calm

/-! ### Two threads that overtake each other -/

section Race

/-- Two threads, one cell and any number of handles; no step is excluded. -/
def race : Logic.System (Logic.Conf Bool (Mem Unit Nat) (Pc Unit Nat)) := packedSystem fun _ _ _ => True

variable {m m' : Mem Unit Nat} {pc : Bool → Pc Unit Nat} {p p' : Pc Unit Nat} {t u : Bool} {n v : Nat}

omit [DecidableEq Cell] [DecidableEq Handle] in
theorem setCounter_self (m : Mem Cell Handle) (b : Addr) (count : SplitCount) : (m.setCounter b count).counter b = count :=
  Function.update_self ..

omit [DecidableEq Cell] in
theorem setHandle_counter (m : Mem Cell Handle) (h : Handle) (p : Option (Option Addr)) :
    (m.setHandle h p).counter = m.counter := rfl

omit [DecidableEq Cell] in
theorem setHandle_cell (m : Mem Cell Handle) (h : Handle) (p : Option (Option Addr)) : (m.setHandle h p).cell = m.cell := rfl

/-- The thread `t` goes on. -/
theorem race_step (hstep : packedStep m ⟨false, 0⟩ p = (m', p')) (hp : ∀ h, p ≠ .make h) :
    race.step ⟨m, Function.update pc t p⟩ ⟨m', Function.update pc t p'⟩ := by
  have hself : Function.update pc t p t = p := Function.update_self ..
  refine ⟨t, m', p', ?_, ?_⟩
  · have hact : PackedAct (fun _ _ _ => True) (⟨m, Function.update pc t p⟩ : Logic.Conf ..) t
        (packedStep m ⟨false, 0⟩ (Function.update pc t p t)).1 (packedStep m ⟨false, 0⟩ (Function.update pc t p t)).2 :=
      .step ⟨false, 0⟩ (fun h hmake => absurd (hself.symm.trans hmake) (hp h)) trivial
    rw [hself, hstep] at hact
    exact hact
  · rw [Function.update_idem]

theorem race_next (h : race.Reachable ⟨m, Function.update pc t p⟩) (hstep : packedStep m ⟨false, 0⟩ p = (m', p'))
    (hp : ∀ h, p ≠ .make h) : race.Reachable ⟨m', Function.update pc t p'⟩ :=
  h.step (race_step hstep hp)

/-- A `Load`, up to its compare-exchange. -/
theorem race_load (h : race.Reachable ⟨m, pc⟩) (hidle : pc t = .idle) (hn : m.handle n = none)
    (hfree : ∀ u, ¬ (pc u).Writes n ∧ ¬ (pc u).Reads n) :
    race.Reachable ⟨m, Function.update pc t (.incCas () (m.cell ()) (.handle n))⟩ := by
  have hcall : race.Reachable ⟨m, Function.update pc t (.incLoad () (.handle n))⟩ := by
    refine h.step ⟨t, _, _, .call (.load () n) ⟨hidle, hn, ?_, nofun⟩, rfl⟩
    rintro _ rfl
    exact hfree
  exact race_next hcall rfl nofun

/-- A `Load` that increments the stamp past 10000. -/
theorem race_inc (hcell : m.cell () = ⟨some 0, v⟩) (hv : 10000 ≤ v) :
    race.step ⟨m, Function.update pc t (.incCas () (m.cell ()) (.handle n))⟩
      ⟨m.setCell () (StampedPtr.pack ⟨some 0, v + 1⟩),
        Function.update pc t (.addLoad 0 ((v + 1 : Nat), 1) (.flush () (v + 1) (.handle n)))⟩ := by
  refine race_step ?_ nofun
  have hlt : (m.cell ()).stamp + 1 > 10000 := by
    rw [hcell]
    exact Nat.lt_succ_of_le hv
  rw [packedStep, if_pos ⟨rfl, rfl⟩, if_pos hlt, hcell]
  rfl

/-- A `Load` that leaves the stamp at most 10000. -/
theorem race_fast (h : race.Reachable ⟨m, Function.update pc t (.incCas () (m.cell ()) (.handle n))⟩)
    (hcell : m.cell () = ⟨some 0, v⟩) (hv : v + 1 ≤ 10000) :
    race.Reachable ⟨(m.setCell () ⟨some 0, v + 1⟩).setHandle n (some (some 0)), Function.update pc t .idle⟩ := by
  refine race_next h ?_ nofun
  have hle : ¬ (m.cell ()).stamp + 1 > 10000 := by
    rw [hcell]
    exact Nat.not_lt.mpr hv
  have hpack : StampedPtr.pack ⟨some 0, v + 1⟩ = (⟨some 0, v + 1⟩ : StampedPtr Addr) :=
    StampedPtr.pack_of_lt (Nat.lt_of_le_of_lt hv (by decide))
  rw [packedStep, if_pos ⟨rfl, rfl⟩, if_neg hle, hcell, hpack]
  rfl

/-- A flush that has been overtaken. -/
theorem race_flush (h : race.Reachable ⟨m, pc⟩) (hpc : pc t = .addLoad 0 ((v : Nat), 1) (.flush () v (.handle n)))
    (hcell : m.cell () ≠ StampedPtr.pack ⟨some 0, v⟩) (hcounter : m.counter 0 = (0, 1)) :
    ∃ m', race.Reachable ⟨m', Function.update pc t .idle⟩ ∧ m'.cell = m.cell ∧ m'.counter 0 = (0, 1) ∧
      m'.handle = Function.update m.handle n (some (some 0)) := by
  have h₀ : race.Reachable ⟨m, Function.update pc t (.addLoad 0 ((v : Nat), 1) (.flush () v (.handle n)))⟩ := by
    rw [← hpc, Function.update_eq_self]
    exact h
  have h₁ := race_next h₀ rfl nofun
  have h₂ := race_next h₁ (if_pos ⟨rfl, rfl⟩) nofun
  have h₃ := race_next h₂ (if_neg fun hmatch => hcell hmatch.1) nofun
  have h₄ := race_next h₃ rfl nofun
  have h₅ := race_next h₄ (if_pos ⟨rfl, rfl⟩) nofun
  refine ⟨_, h₅, rfl, ?_, rfl⟩
  rw [setHandle_counter, setCounter_self, setCounter_self, hcounter]
  ext <;> simp

/-- The cell holds the block 0 with the stamp `v`, and the handles from 1 to `n - 1` are the ones loaded from it. -/
structure Held (m : Mem Unit Nat) (v n : Nat) : Prop where
  cell : m.cell () = ⟨some 0, v⟩
  counter : m.counter 0 = (0, 1)
  got : ∀ h, 1 ≤ h → h < n → m.handle h = some (some 0)
  free : ∀ h, n ≤ h → m.handle h = none

/-- One more handle. -/
theorem Held.next (h : Held m v n) {w : Nat} (hcell : m'.cell () = ⟨some 0, w⟩) (hcounter : m'.counter 0 = (0, 1))
    (hhandle : m'.handle = Function.update m.handle n (some (some 0))) : Held m' w (n + 1) := by
  refine ⟨hcell, hcounter, fun i hi hlt => ?_, fun i hi => ?_⟩
  · rw [hhandle]
    rcases eq_or_ne i n with rfl | hne
    · exact Function.update_self ..
    · rw [Function.update_of_ne hne]
      exact h.got i hi (by omega)
  · rw [hhandle, Function.update_of_ne (by omega)]
    exact h.free i (by omega)

/-- A block is made and stored. -/
theorem race_store : ∃ m pc, race.Reachable ⟨m, pc⟩ ∧ Held m 0 1 ∧ ∀ t, pc t = .idle := by
  have hinit : race.Reachable ⟨.new, fun _ => .idle⟩ := .init rfl
  have hmake := hinit.step ⟨true, _, _, .call (.makeShared 0) ⟨rfl, rfl, fun _ _ _ => ⟨id, id⟩, nofun⟩, rfl⟩
  have halloc := hmake.step ⟨true, _, _, .step ⟨false, 0⟩ (fun _ _ => rfl) trivial, rfl⟩
  have hload := halloc.step ⟨true, _, _, .step ⟨false, 0⟩ nofun trivial, rfl⟩
  have hmade := hload.step ⟨true, _, _, .step ⟨false, 0⟩ nofun trivial, rfl⟩
  have hstore := hmade.step ⟨true, _, _,
    .call (.store () 0) ⟨rfl, nofun, fun _ _ u => by cases u <;> exact ⟨id, id⟩, nofun⟩, rfl⟩
  have hstrong := hstore.step ⟨true, _, _, .step ⟨false, 0⟩ nofun trivial, rfl⟩
  have hadded := hstrong.step ⟨true, _, _, .step ⟨false, 0⟩ nofun trivial, rfl⟩
  have hexchange := hadded.step ⟨true, _, _, .step ⟨false, 0⟩ nofun trivial, rfl⟩
  have hdrop := hexchange.step ⟨true, _, _, .step ⟨false, 0⟩ nofun trivial, rfl⟩
  have hdropped := hdrop.step ⟨true, _, _, .step ⟨false, 0⟩ nofun trivial, rfl⟩
  refine ⟨_, _, hdropped, ⟨rfl, rfl, fun i hi hlt => by omega, fun i hi => ?_⟩, fun t => by cases t <;> rfl⟩
  match i, hi with
  | i + 1, _ => rfl

/-- The first 10000 loads increment the stamp. -/
theorem race_loads (n : Nat) (hn : n ≤ 10000) :
    ∃ m pc, race.Reachable ⟨m, pc⟩ ∧ Held m n (n + 1) ∧ ∀ t, pc t = .idle := by
  induction n with
  | zero => exact race_store
  | succ n ih =>
    obtain ⟨m, pc, h, hheld, hidle⟩ := ih (by omega)
    have hload := race_load (t := true) h (hidle true) (hheld.free (n + 1) le_rfl) fun u => by
      rw [hidle u]
      exact ⟨id, id⟩
    have hcell : ((m.setCell () ⟨some 0, n + 1⟩).setHandle (n + 1) (some (some 0))).cell () = ⟨some 0, n + 1⟩ := by
      rw [setHandle_cell, setCell_self]
    refine ⟨_, _, race_fast hload hheld.cell hn, hheld.next hcell hheld.counter rfl, fun t => ?_⟩
    rcases eq_or_ne t true with rfl | ht
    · exact Function.update_self ..
    · rw [Function.update_of_ne ht]
      exact hidle t

/-- The thread `t` is about to flush the stamp `v`, the thread `u` is idle, and the stamp of the cell is `w`. -/
structure Racing (m : Mem Unit Nat) (pc : Bool → Pc Unit Nat) (t u : Bool) (w v : Nat) : Prop where
  held : Held m w v
  flush : pc t = .addLoad 0 ((v : Nat), 1) (.flush () v (.handle v))
  idle : pc u = .idle
  ne : t ≠ u

theorem Racing.flush_update {w : Nat} (h : Racing m pc t u w v) (p : Pc Unit Nat) :
    Function.update pc u p t = .addLoad 0 ((v : Nat), 1) (.flush () v (.handle v)) := by
  rw [Function.update_of_ne h.ne, h.flush]

/-- The idle thread begins to load. -/
theorem Racing.load {w : Nat} (h : Racing m pc t u w v) (hreach : race.Reachable ⟨m, pc⟩) :
    race.Reachable ⟨m, Function.update pc u (.incCas () (m.cell ()) (.handle (v + 1)))⟩ := by
  refine race_load hreach h.idle (h.held.free (v + 1) (Nat.le_succ v)) fun x => ?_
  rcases Bool.eq_or_eq_not x t with rfl | hx
  · rw [h.flush]
    exact ⟨Nat.succ_ne_self v, id⟩
  · rw [hx, ← Bool.eq_not.mpr h.ne.symm, h.idle]
    exact ⟨id, id⟩

/-- The stamp is incremented by the idle thread before it is flushed, so that the flush fails. -/
theorem Racing.overtake {w : Nat} (h : Racing m pc t u w v) (hreach : race.Reachable ⟨m, pc⟩) (hw : 10000 ≤ w)
    (hne : (w + 1) % stamps ≠ v % stamps) :
    ∃ m' pc', race.Reachable ⟨m', pc'⟩ ∧ Held m' ((w + 1) % stamps) (v + 1) ∧
      pc' u = .addLoad 0 ((w + 1 : Nat), 1) (.flush () (w + 1) (.handle (v + 1))) ∧ pc' t = .idle := by
  have hinc := (h.load hreach).step (race_inc h.held.cell hw)
  have hcell : (m.setCell () (StampedPtr.pack ⟨some 0, w + 1⟩)).cell () ≠ StampedPtr.pack ⟨some 0, v⟩ := by
    rw [setCell_self]
    exact fun heq => hne (congrArg StampedPtr.stamp heq)
  obtain ⟨m', hm', hsame, hcounter, hhandle⟩ := race_flush hinc (h.flush_update _) hcell h.held.counter
  refine ⟨m', _, hm', h.held.next ?_ hcounter hhandle, ?_, Function.update_self ..⟩
  · rw [hsame, setCell_self]
    rfl
  · rw [Function.update_of_ne h.ne.symm, Function.update_self]

/-- The threads overtake each other until the stamp is `2^16 - 1`. -/
theorem race_rounds (k : Nat) (hk : 10001 + k < stamps) :
    ∃ m pc t u, race.Reachable ⟨m, pc⟩ ∧ Racing m pc t u (10001 + k) (10001 + k) := by
  induction k with
  | zero =>
    obtain ⟨m, pc, h, hheld, hidle⟩ := race_loads 10000 le_rfl
    have hload := race_load (t := true) h (hidle true) (hheld.free 10001 le_rfl) fun u => by
      rw [hidle u]
      exact ⟨id, id⟩
    have hinc := hload.step (race_inc hheld.cell le_rfl)
    rw [StampedPtr.pack_of_lt hk] at hinc
    refine ⟨_, _, true, false, hinc, ⟨setCell_self _, hheld.counter, hheld.got, hheld.free⟩, Function.update_self .., ?_,
      Bool.noConfusion⟩
    rw [Function.update_of_ne Bool.noConfusion]
    exact hidle false
  | succ k ih =>
    obtain ⟨m, pc, t, u, h, hracing⟩ := ih (by omega)
    have hmod : (10001 + k + 1) % stamps = 10001 + k + 1 := Nat.mod_eq_of_lt hk
    have hmod' : (10001 + k) % stamps = 10001 + k := Nat.mod_eq_of_lt (by omega)
    obtain ⟨m', pc', h', hheld, hflush, hidle⟩ := hracing.overtake h (by omega) (by omega)
    rw [hmod] at hheld
    exact ⟨m', pc', u, t, h', hheld, hflush, hidle, hracing.ne.symm⟩

/-- When the stamp has become 0, the idle thread loads once more; the flush of the other thread fails. -/
theorem Racing.lost (h : Racing m pc t u 0 stamps) (hreach : race.Reachable ⟨m, pc⟩) :
    ∃ m' pc', race.Reachable ⟨m', pc'⟩ ∧ (∀ x, pc' x = .idle) ∧ m'.cell () = ⟨some 0, 1⟩ ∧ m'.counter 0 = (0, 1) ∧
      ∀ i, 1 ≤ i → i ≤ stamps + 1 → m'.handle i = some (some 0) := by
  have hfast := race_fast (h.load hreach) h.held.cell (by decide)
  have hcell : ((m.setCell () ⟨some 0, 0 + 1⟩).setHandle (stamps + 1) (some (some 0))).cell () ≠
      StampedPtr.pack ⟨some 0, stamps⟩ := by
    rw [setHandle_cell, setCell_self]
    decide
  obtain ⟨m', hm', hsame, hcounter, hhandle⟩ := race_flush hfast (h.flush_update .idle) hcell h.held.counter
  refine ⟨m', _, hm', fun x => ?_, ?_, hcounter, fun i hi hle => ?_⟩
  · rcases Bool.eq_or_eq_not x t with rfl | hx
    · exact Function.update_self ..
    · have hxu : x = u := by rw [hx, ← Bool.eq_not.mpr h.ne.symm]
      rw [hxu, Function.update_of_ne h.ne.symm, Function.update_self]
  · rw [hsame, setHandle_cell, setCell_self]
  · rw [hhandle]
    rcases eq_or_ne i stamps with rfl | hne
    · exact Function.update_self ..
    rw [Function.update_of_ne hne]
    show Function.update m.handle (stamps + 1) (some (some 0)) i = _
    rcases eq_or_ne i (stamps + 1) with rfl | hne'
    · exact Function.update_self ..
    rw [Function.update_of_ne hne']
    exact h.held.got i hi (by omega)

/-- Two threads that load one cell. The stamp is incremented from `2^16 - 1` to 0, and after both loads
have failed to flush it the counts and the stamp stand for one of the `2^16 + 1` handles to the block. -/
theorem stamp_overflow : ∃ s s' s'' : Logic.Conf Bool (Mem Unit Nat) (Pc Unit Nat),
    race.Reachable s ∧ race.step s s' ∧ s.mem.cell () = ⟨some 0, 2 ^ 16 - 1⟩ ∧ s'.mem.cell () = ⟨some 0, 0⟩ ∧
      race.Reachable s'' ∧ (∀ t, s''.pc t = .idle) ∧ s''.mem.cell () = ⟨some 0, 1⟩ ∧ s''.mem.counter 0 = (0, 1) ∧
      ∀ h, 1 ≤ h → h ≤ 2 ^ 16 + 1 → s''.mem.handle h = some (some 0) := by
  obtain ⟨m, pc, t, u, hreach, hracing⟩ := race_rounds 55534 (by decide)
  have hload := hracing.load hreach
  have hstep : race.step ⟨m, Function.update pc u (.incCas () (m.cell ()) (.handle (10001 + 55534 + 1)))⟩ _ :=
    race_inc hracing.held.cell (by decide)
  obtain ⟨m', pc', h', hheld, hflush, hidle⟩ := hracing.overtake hreach (by decide) (by decide)
  have hracing' : Racing m' pc' u t 0 stamps := ⟨hheld, hflush, hidle, hracing.ne.symm⟩
  obtain ⟨m'', pc'', h'', hrest⟩ := hracing'.lost h'
  exact ⟨_, _, ⟨m'', pc''⟩, hload, hstep, hracing.held.cell, setCell_self _, h'', hrest⟩

end Race

end CppConcur.LockFree.SharedPtr
