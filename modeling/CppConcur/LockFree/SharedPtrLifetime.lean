import CppConcur.LockFree.SharedPtrSteps
import Mathlib.Algebra.BigOperators.Pi
import Mathlib.Algebra.BigOperators.Ring.Finset

/-!
# The counts and the lifetime of a block

The invariant of the whole state: the conservation law of the counts, that what is referred to is live,
and that what is live is referred to. A block whose counts are both zero is one that nothing contributes
to, so the operation that has brought them to zero is the only one left to delete it.
-/

namespace CppConcur.LockFree.SharedPtr

variable {Tid Cell Handle : Type*}

/-- A cell, a handle or an operation that is in progress refers to a block. -/
def Referred (s : Logic.Conf Tid (Mem Cell Handle) (Pc Cell Handle)) (b : Addr) : Prop :=
  (∃ c, (s.mem.cell c).rawPtr = some b) ∨ (∃ h, s.mem.handle h = some (some b)) ∨ ∃ t, (s.pc t).Mentions b

/-- Nothing but the operation of one thread refers to a block. -/
structure Private (s : Logic.Conf Tid (Mem Cell Handle) (Pc Cell Handle)) (t : Tid) (b : Addr) : Prop where
  cell : ∀ c, (s.mem.cell c).rawPtr ≠ some b
  handle : ∀ h, s.mem.handle h ≠ some (some b)
  other : ∀ u, u ≠ t → ¬ (s.pc u).Mentions b
  count : (s.pc t).count b = 0

variable [Fintype Tid] [Fintype Cell] [Fintype Handle] [DecidableEq Tid] [DecidableEq Cell] [DecidableEq Handle]
  {s : Logic.Conf Tid (Mem Cell Handle) (Pc Cell Handle)} {t : Tid} {W R : Handle → Prop}

/-- The part of the invariant that is about the counts and the handles. -/
structure Counted (s : Logic.Conf Tid (Mem Cell Handle) (Pc Cell Handle)) : Prop where
  ok : ∀ t, (s.pc t).Ok s.mem.handle
  apart : ∀ t u, t ≠ u → ∀ h, (s.pc t).Writes h → ¬ (s.pc u).Writes h ∧ ¬ (s.pc u).Reads h
  count : ∀ b, balance s.mem b = ∑ t, (s.pc t).count b

/-- The invariant. -/
structure Inv (s : Logic.Conf Tid (Mem Cell Handle) (Pc Cell Handle)) : Prop extends Counted s where
  live : ∀ b, Referred s b → s.mem.live b = true
  sole : ∀ t b, (s.pc t).Sole b → Private s t b
  referred : ∀ b, s.mem.live b = true → Referred s b
  fault : s.mem.fault = false

/-! ### What the counts say -/

omit [DecidableEq Tid] [DecidableEq Cell] in
theorem Counted.counter_eq (h : Counted s) (b : Addr) :
    s.mem.counter b = ∑ c, cellCount (s.mem.cell c) b + ∑ h, handleCount (s.mem.handle h) b + ∑ t, (s.pc t).count b := by
  rw [← h.count b, balance]
  abel

omit [DecidableEq Tid] [DecidableEq Cell] in
/-- Nothing contributes to a block whose counts are both zero. -/
theorem Counted.of_zero (h : Counted s) {b : Addr} (hzero : s.mem.counter b = 0) :
    (∀ c, (s.mem.cell c).rawPtr ≠ some b) ∧ (∀ h, s.mem.handle h ≠ some (some b)) ∧ ∀ t, (s.pc t).count b = 0 := by
  have hsum := h.counter_eq b
  rw [hzero] at hsum
  have hcellFair : ∀ c, 0 ≤ (cellCount (s.mem.cell c) b).2 := fun c =>
    (fair_single ⟨zero_le_one, fun h => absurd h one_ne_zero⟩ _ b).1
  have hhandleSnd : ∀ h, (handleCount (s.mem.handle h) b).2 = 0 := fun h => by
    simp only [handleCount, single]
    split <;> rfl
  have hpcFair := fun t => Pc.fair_count (h.ok t) b
  have hstrong := congrArg Prod.snd hsum
  simp only [Prod.snd_add, Prod.snd_sum, hhandleSnd, Finset.sum_const_zero, add_zero, Prod.snd_zero] at hstrong
  have hcellSum := Finset.sum_nonneg fun c (_ : c ∈ Finset.univ) => hcellFair c
  have hpcSum := Finset.sum_nonneg fun t (_ : t ∈ Finset.univ) => (hpcFair t).1
  have hcellZero := Logic.eq_zero_of_sum_nonpos hcellFair (by omega)
  have hpcZero := Logic.eq_zero_of_sum_nonpos (fun t => (hpcFair t).1) (by omega)
  have hcell : ∀ c, (s.mem.cell c).rawPtr ≠ some b := by
    intro c hc
    have hone := hcellZero c
    rw [cellCount, hc, single_self] at hone
    exact absurd hone one_ne_zero
  have hcellCount : ∀ c, cellCount (s.mem.cell c) b = 0 := fun c => single_of_ne (hcell c) _
  have hhandleFair : ∀ h, 0 ≤ (handleCount (s.mem.handle h) b).1 := fun h => by
    simp only [handleCount, single]
    split
    · exact zero_le_one
    · exact le_rfl
  have htransient := congrArg Prod.fst hsum
  simp only [Prod.fst_add, Prod.fst_sum, hcellCount, Prod.fst_zero, Finset.sum_const_zero, zero_add] at htransient
  have hpcFst := fun t => (hpcFair t).2 (hpcZero t)
  have hhandleSum := Finset.sum_nonneg fun h (_ : h ∈ Finset.univ) => hhandleFair h
  have hpcFstSum := Finset.sum_nonneg fun t (_ : t ∈ Finset.univ) => hpcFst t
  have hhandleZero := Logic.eq_zero_of_sum_nonpos hhandleFair (by omega)
  have hpcFstZero := Logic.eq_zero_of_sum_nonpos hpcFst (by omega)
  refine ⟨hcell, fun h hh => ?_, fun t => Prod.ext (hpcFstZero t) (hpcZero t)⟩
  have hone := hhandleZero h
  rw [handleCount, hh, Option.join_some, single_self] at hone
  exact absurd hone one_ne_zero

omit [DecidableEq Tid] [DecidableEq Cell] in
theorem Counted.counter_of_no_count (h : Counted s) {b : Addr} (hcell : ∀ c, (s.mem.cell c).rawPtr ≠ some b)
    (hhandle : ∀ h, s.mem.handle h ≠ some (some b)) (hpc : ∀ t, (s.pc t).count b = 0) : s.mem.counter b = 0 := by
  have hcellCount : ∀ c, cellCount (s.mem.cell c) b = 0 := fun c => single_of_ne (hcell c) _
  have hhandleCount : ∀ h, handleCount (s.mem.handle h) b = 0 := fun h =>
    single_of_ne (fun hh => hhandle h (Option.join_eq_some_iff.mp hh)) _
  rw [h.counter_eq b]
  simp only [hcellCount, hhandleCount, hpc, Finset.sum_const_zero, add_zero]

omit [DecidableEq Tid] [DecidableEq Cell] in
theorem Counted.zero_of_not_referred (h : Counted s) {b : Addr} (hb : ¬ Referred s b) : s.mem.counter b = 0 := by
  refine h.counter_of_no_count (fun c hc => hb (.inl ⟨c, hc⟩)) (fun h' hh' => hb (.inr (.inl ⟨h', hh'⟩))) fun t => ?_
  by_contra hne
  exact hb (.inr (.inr ⟨t, Pc.mentions_of_count hne⟩))

omit [DecidableEq Tid] [DecidableEq Cell] in
/-- What still refers to a block whose counts are both zero is the one operation that knows it. -/
theorem Counted.sole_of_zero (h : Counted s) {b : Addr} (hzero : s.mem.counter b = 0) {u : Tid}
    (hu : (s.pc u).Mentions b) : (s.pc u).Sole b := by
  obtain ⟨-, hhandle, hcount⟩ := h.of_zero hzero
  refine (Pc.sole_or_handle (h.ok u) hu (hcount u)).resolve_right ?_
  rintro ⟨h', hh'⟩
  exact hhandle h' hh'

omit [DecidableEq Tid] [DecidableEq Cell] in
theorem Counted.counter_of_private (h : Counted s) {b : Addr} (hb : Private s t b) : s.mem.counter b = 0 := by
  refine h.counter_of_no_count hb.cell hb.handle fun u => ?_
  by_cases hut : u = t
  · rw [hut]
    exact hb.count
  · by_contra hne
    exact hb.other u hut (Pc.mentions_of_count hne)

/-! ### What an action keeps -/

variable {m' : Mem Cell Handle} {pc' : Pc Cell Handle}

omit [Fintype Tid] [Fintype Cell] [Fintype Handle] [DecidableEq Cell] [DecidableEq Handle] in
theorem referred_update {b : Addr} : Referred ⟨m', Function.update s.pc t pc'⟩ b ↔
    Refers m' pc' b ∨ ∃ u, u ≠ t ∧ (s.pc u).Mentions b := by
  constructor
  · rintro (hcell | hhandle | ⟨u, hu⟩)
    · exact .inl (.inl hcell)
    · exact .inl (.inr (.inl hhandle))
    · by_cases hut : u = t
      · subst hut
        simp only [Function.update_self] at hu
        exact .inl (.inr (.inr hu))
      · simp only [ne_eq, hut, not_false_eq_true, Function.update_of_ne] at hu
        exact .inr ⟨u, hut, hu⟩
  · rintro ((hcell | hhandle | hpc) | ⟨u, hut, hu⟩)
    · exact .inl hcell
    · exact .inr (.inl hhandle)
    · exact .inr (.inr ⟨t, by simpa only [Function.update_self] using hpc⟩)
    · exact .inr (.inr ⟨u, by simpa only [ne_eq, hut, not_false_eq_true, Function.update_of_ne] using hu⟩)

omit [Fintype Tid] [Fintype Cell] [Fintype Handle] [DecidableEq Tid] [DecidableEq Cell] [DecidableEq Handle] in
theorem Refers.referred {b : Addr} (h : Refers s.mem (s.pc t) b) : Referred s b := by
  rcases h with hcell | hhandle | hpc
  · exact .inl hcell
  · exact .inr (.inl hhandle)
  · exact .inr (.inr ⟨t, hpc⟩)

omit [Fintype Tid] [Fintype Cell] [Fintype Handle] [DecidableEq Tid] [DecidableEq Cell] [DecidableEq Handle] in
theorem Private.not_refers {u : Tid} {b : Addr} (h : Private s u b) (hut : t ≠ u) : ¬ Refers s.mem (s.pc t) b := by
  rintro (⟨c, hc⟩ | ⟨h', hh'⟩ | hpc)
  · exact h.cell c hc
  · exact h.handle h' hh'
  · exact h.other t hut hpc

omit [DecidableEq Cell] in
theorem Counted.update (h : Counted s)
    (hbalance : ∀ b, balance m' b - pc'.count b = balance s.mem b - (s.pc t).count b) (hok : pc'.Ok m'.handle)
    (hwrites : ∀ h, pc'.Writes h → W h) (hreads : ∀ h, pc'.Reads h → R h)
    (hhandle : ∀ h, ¬ W h → m'.handle h = s.mem.handle h)
    (hW : ∀ h, W h → ∀ u, u ≠ t → ¬ (s.pc u).Writes h ∧ ¬ (s.pc u).Reads h)
    (hR : ∀ h, R h → ∀ u, u ≠ t → ¬ (s.pc u).Writes h) : Counted ⟨m', Function.update s.pc t pc'⟩ := by
  refine ⟨fun u => ?_, fun u v huv => ?_, fun b => ?_⟩
  · by_cases hut : u = t
    · subst hut
      simpa only [Function.update_self] using hok
    · simp only [ne_eq, hut, not_false_eq_true, Function.update_of_ne]
      refine (h.ok u).congr fun h' hh' => hhandle h' fun hw => ?_
      rcases hh' with hh' | hh'
      · exact (hW h' hw u hut).1 hh'
      · exact (hW h' hw u hut).2 hh'
  · intro h' hh'
    by_cases hut : u = t
    · subst hut
      simp only [Function.update_self, ne_eq, huv.symm, not_false_eq_true, Function.update_of_ne] at hh' ⊢
      exact hW h' (hwrites h' hh') v huv.symm
    · by_cases hvt : v = t
      · subst hvt
        simp only [Function.update_self, ne_eq, hut, not_false_eq_true, Function.update_of_ne] at hh' ⊢
        exact ⟨fun hw => (hW h' (hwrites h' hw) u hut).1 hh', fun hr => hR h' (hreads h' hr) u hut hh'⟩
      · simp only [ne_eq, hut, hvt, not_false_eq_true, Function.update_of_ne] at hh' ⊢
        exact h.apart u v huv h' hh'
  · have hsum := Logic.sum_update (fun pc : Pc Cell Handle => pc.count b) s.pc t pc'
    simp only
    rw [hsum, ← h.count b, ← add_sub_assoc, add_sub_right_comm, ← hbalance b]
    abel

omit [DecidableEq Cell] in
/-- An operation that brings the counts of a block to zero is the only one left that refers to it. -/
theorem Inv.private_of_zero (h : Inv s) (h' : Counted ⟨m', Function.update s.pc t pc'⟩) {b : Addr}
    (hzero : m'.counter b = 0) (hrefers : Refers s.mem (s.pc t) b) :
    Private ⟨m', Function.update s.pc t pc'⟩ t b := by
  obtain ⟨hcell, hhandle, hcount⟩ := h'.of_zero hzero
  refine ⟨hcell, hhandle, fun u hut hu => ?_, hcount t⟩
  have hsole := h'.sole_of_zero hzero hu
  simp only [ne_eq, hut, not_false_eq_true, Function.update_of_ne] at hsole
  exact (h.sole u b hsole).not_refers hut.symm hrefers

omit [Fintype Tid] [Fintype Cell] [Fintype Handle] [DecidableEq Cell] [DecidableEq Handle] in
/-- A block that only one operation knows stays unknown to the others. -/
theorem Private.update {u : Tid} {b : Addr} (h : Private s u b) (hut : u ≠ t)
    (hrefers : Refers m' pc' b → Refers s.mem (s.pc t) b) : Private ⟨m', Function.update s.pc t pc'⟩ u b := by
  have hnot : ¬ Refers m' pc' b := fun hb => h.not_refers hut.symm (hrefers hb)
  refine ⟨fun c hc => hnot (.inl ⟨c, hc⟩), fun h' hh' => hnot (.inr (.inl ⟨h', hh'⟩)), fun v hvu hv => ?_, ?_⟩
  · by_cases hvt : v = t
    · subst hvt
      simp only [Function.update_self] at hv
      exact hnot (.inr (.inr hv))
    · simp only [ne_eq, hvt, not_false_eq_true, Function.update_of_ne] at hv
      exact h.other v hvu hv
  · simp only [ne_eq, hut, not_false_eq_true, Function.update_of_ne]
    exact h.count

omit [DecidableEq Cell] in
/-- A live block is referred to after an action that has not changed its counts, and was not the one
operation that knows the block. -/
theorem Inv.referred_of_unchanged (h : Inv s) (h' : Counted ⟨m', Function.update s.pc t pc'⟩) {b : Addr}
    (hlive : s.mem.live b = true) (hcounter : m'.counter b = s.mem.counter b)
    (hsole : (s.pc t).Sole b → m'.counter b = 0 → Refers m' pc' b) :
    Referred ⟨m', Function.update s.pc t pc'⟩ b := by
  by_cases hzero : m'.counter b = 0
  · have hzero' : s.mem.counter b = 0 := hcounter.symm.trans hzero
    obtain ⟨hcell, hhandle, -⟩ := h.of_zero hzero'
    rcases h.referred b hlive with ⟨c, hc⟩ | ⟨h', hh'⟩ | ⟨u, hu⟩
    · exact absurd hc (hcell c)
    · exact absurd hh' (hhandle h')
    · by_cases hut : u = t
      · subst hut
        exact referred_update.mpr (.inl (hsole (h.sole_of_zero hzero' hu) hzero))
      · exact referred_update.mpr (.inr ⟨u, hut, hu⟩)
  · by_contra hnot
    exact hzero (h'.zero_of_not_referred hnot)

omit [DecidableEq Cell] in
theorem Ordinary.inv (hord : Ordinary W R s.mem (s.pc t) (m', pc')) (h : Inv s)
    (hW : ∀ h, W h → ∀ u, u ≠ t → ¬ (s.pc u).Writes h ∧ ¬ (s.pc u).Reads h)
    (hR : ∀ h, R h → ∀ u, u ≠ t → ¬ (s.pc u).Writes h) : Inv ⟨m', Function.update s.pc t pc'⟩ := by
  have h' : Counted ⟨m', Function.update s.pc t pc'⟩ :=
    h.toCounted.update hord.balance hord.ok hord.writes hord.reads hord.handle hW hR
  refine ⟨h', fun b hb => ?_, fun u b hu => ?_, fun b hb => ?_, ?_⟩
  · rw [hord.live]
    rcases referred_update.mp hb with hb | ⟨u, -, hu⟩
    · exact h.live b (hord.refers b hb).referred
    · exact h.live b (.inr (.inr ⟨u, hu⟩))
  · by_cases hut : u = t
    · subst hut
      simp only [Function.update_self] at hu
      have hrefers := hord.refers b (.inr (.inr hu.mentions))
      rcases hord.sole b hu with hzero | ⟨hsole, hcounter⟩
      · exact h.private_of_zero h' hzero hrefers
      · exact h.private_of_zero h' (hcounter.trans (h.counter_of_private (h.sole u b hsole))) hrefers
    · simp only [ne_eq, hut, not_false_eq_true, Function.update_of_ne] at hu
      exact (h.sole u b hu).update hut (hord.refers b)
  · simp only at hb
    rw [hord.live] at hb
    by_cases hcounter : m'.counter b = s.mem.counter b
    · exact h.referred_of_unchanged h' hb hcounter fun hsole hzero => hord.kept b hzero (.inl hsole)
    · by_cases hzero : m'.counter b = 0
      · exact referred_update.mpr (.inl (hord.kept b hzero (.inr hcounter)))
      · by_contra hnot
        exact hzero (h'.zero_of_not_referred hnot)
  · exact (hord.fault fun b hb => h.live b (.inr (.inr ⟨t, hb⟩))).trans h.fault

theorem make_inv (h : Inv s) {h' : Handle} (hpc : s.pc t = .make h') (choice : Choice)
    (hfree : s.mem.live choice.addr = false) :
    Inv ⟨(step s.mem choice (.make h')).1, Function.update s.pc t (step s.mem choice (.make h')).2⟩ := by
  have hnot : ¬ Referred s choice.addr := by
    intro hb
    rw [h.live _ hb] at hfree
    exact absurd hfree (by decide)
  have hcounter : (step s.mem choice (.make h')).1.counter = s.mem.counter := by
    funext b
    simp only [step]
    by_cases hb : b = choice.addr
    · subst hb
      rw [Function.update_self, h.zero_of_not_referred hnot]
    · rw [Function.update_of_ne hb]
  have hok : s.mem.handle h' = none := by
    have := h.ok t
    rw [hpc] at this
    exact this
  have hbalance : ∀ b, balance (step s.mem choice (.make h')).1 b = balance s.mem b := by
    intro b
    simp only [balance, hcounter]
    rfl
  have hcounted : Counted ⟨(step s.mem choice (.make h')).1, Function.update s.pc t (step s.mem choice (.make h')).2⟩ := by
    refine h.toCounted.update (W := (s.pc t).Writes) (R := (s.pc t).Reads) (fun b => ?_) ⟨rfl, hok, by rintro _ ⟨⟩⟩ ?_ ?_
      (fun _ _ => rfl) ?_ ?_
    · rw [hbalance, hpc]
      rfl
    · rw [hpc]
      exact fun _ hh => hh
    · exact fun _ hh => absurd hh (by rintro ⟨⟩)
    · exact fun h'' hh'' u hut => h.apart t u hut.symm h'' hh''
    · rw [hpc]
      exact fun _ hh => hh.elim
  have hrefers : ∀ b, Refers (step s.mem choice (.make h')).1 (step s.mem choice (.make h')).2 b →
      b = choice.addr ∨ Refers s.mem (s.pc t) b := by
    rintro b (hcell | hhandle | hb | hb)
    · exact .inr (.inl hcell)
    · exact .inr (.inr (.inl hhandle))
    · exact .inl hb
    · exact hb.elim
  refine ⟨hcounted, fun b hb => ?_, fun u b hu => ?_, fun b hb => ?_, h.fault⟩
  · simp only [step]
    by_cases hne : b = choice.addr
    · subst hne
      exact Function.update_self ..
    · rw [Function.update_of_ne hne]
      rcases referred_update.mp hb with hb | ⟨u, -, hu⟩
      · exact h.live b ((hrefers b hb).resolve_left hne).referred
      · exact h.live b (.inr (.inr ⟨u, hu⟩))
  · by_cases hut : u = t
    · subst hut
      simp only [Function.update_self] at hu
      obtain rfl : b = choice.addr := hu
      refine ⟨fun c hc => hnot (.inl ⟨c, hc⟩), fun h'' hh'' => hnot (.inr (.inl ⟨h'', hh''⟩)), fun v hv hmem => ?_, ?_⟩
      · simp only [ne_eq, hv, not_false_eq_true, Function.update_of_ne] at hmem
        exact hnot (.inr (.inr ⟨v, hmem⟩))
      · simp only [Function.update_self]
        rfl
    · simp only [ne_eq, hut, not_false_eq_true, Function.update_of_ne] at hu
      refine (h.sole u b hu).update hut fun hb => (hrefers b hb).resolve_left ?_
      rintro rfl
      exact hnot (.inr (.inr ⟨u, hu.mentions⟩))
  · by_cases hne : b = choice.addr
    · exact referred_update.mpr (.inl (.inr (.inr (.inl hne))))
    · simp only [step, ne_eq, hne, not_false_eq_true, Function.update_of_ne] at hb
      refine h.referred_of_unchanged hcounted hb (congrFun hcounter b) fun hsole => ?_
      rw [hpc] at hsole
      exact hsole.elim

theorem delete_inv (h : Inv s) {b : Addr} {rest : Rest Handle} (hpc : s.pc t = .delete b rest) (choice : Choice) :
    Inv ⟨(step s.mem choice (.delete b rest)).1, Function.update s.pc t (step s.mem choice (.delete b rest)).2⟩ := by
  have hok : rest.Ok s.mem.handle := by
    have := h.ok t
    rw [hpc] at this
    exact this
  have hmoves : Moves { s.mem.touch b with live := Function.update s.mem.live b false } rest.Writes rest.count
      rest.Mentions (step s.mem choice (.delete b rest)) := finish_moves hok fun _ hh => hh
  have hprivate : Private s t b := h.sole t b (by rw [hpc]; rfl)
  have hcount : rest.count b = 0 := by
    have := hprivate.count
    rw [hpc] at this
    exact this
  have hmentions : ¬ rest.Mentions b := by
    intro hmem
    rw [Rest.count_of_mentions hmem] at hcount
    exact absurd hcount (by decide)
  have hcounted : Counted ⟨(step s.mem choice (.delete b rest)).1,
      Function.update s.pc t (step s.mem choice (.delete b rest)).2⟩ := by
    refine h.toCounted.update (W := (s.pc t).Writes) (R := (s.pc t).Reads) (fun b' => ?_) hmoves.ok ?_
      (fun h' hh' => absurd hh' (hmoves.reads h')) ?_ (fun h' hh' u hut => h.apart t u hut.symm h' hh') ?_
    · rw [hmoves.balance, hpc]
      rfl
    · rw [hpc]
      exact hmoves.writes
    · rw [hpc]
      exact hmoves.handle
    · rw [hpc]
      exact fun _ hh => hh.elim
  have hrefers : ∀ b', Refers (step s.mem choice (.delete b rest)).1 (step s.mem choice (.delete b rest)).2 b' →
      b' ≠ b ∧ Refers s.mem (s.pc t) b' := by
    intro b' hb'
    rcases hmoves.refers b' hb' with hold | hmem
    · have hold : Refers s.mem .idle b' := hold
      refine ⟨?_, hold.of_idle⟩
      rintro rfl
      rcases hold with ⟨c, hc⟩ | ⟨h', hh'⟩ | hmem
      · exact hprivate.cell c hc
      · exact hprivate.handle h' hh'
      · exact hmem
    · refine ⟨?_, .inr (.inr ?_)⟩
      · rintro rfl
        exact hmentions hmem
      · rw [hpc]
        exact .inr hmem
  refine ⟨hcounted, fun b' hb' => ?_, fun u b' hu => ?_, fun b' hb' => ?_, ?_⟩
  · simp only [hmoves.live]
    rcases referred_update.mp hb' with hb' | ⟨u, hut, hu⟩
    · obtain ⟨hne, hold⟩ := hrefers b' hb'
      rw [Function.update_of_ne hne]
      exact h.live b' hold.referred
    · have hne : b' ≠ b := by
        rintro rfl
        exact hprivate.other u hut hu
      rw [Function.update_of_ne hne]
      exact h.live b' (.inr (.inr ⟨u, hu⟩))
  · by_cases hut : u = t
    · subst hut
      simp only [Function.update_self] at hu
      exact h.private_of_zero hcounted (hmoves.sole b' hu).1 (hrefers b' (.inr (.inr hu.mentions))).2
    · simp only [ne_eq, hut, not_false_eq_true, Function.update_of_ne] at hu
      exact (h.sole u b' hu).update hut fun hb => (hrefers b' hb).2
  · simp only [hmoves.live] at hb'
    have hne : b' ≠ b := by
      rintro rfl
      rw [Function.update_self] at hb'
      exact absurd hb' (by decide)
    rw [Function.update_of_ne hne] at hb'
    refine h.referred_of_unchanged hcounted hb' (congrFun hmoves.counter b') fun hsole => ?_
    rw [hpc] at hsole
    exact absurd hsole hne
  · have hlive : s.mem.live b = true := h.live b (.inr (.inr ⟨t, by rw [hpc]; exact .inl rfl⟩))
    simp only [hmoves.fault, Mem.touch, hlive, Bool.not_true, Bool.or_false]
    exact h.fault

theorem inv_of_reachable (h : (system Tid Cell Handle).Reachable s) : Inv s := by
  refine h.invariant ?_ ?_
  · rintro s rfl
    refine ⟨⟨fun _ => trivial, fun _ _ _ _ hh => hh.elim, fun b => ?_⟩, fun b hb => ?_, fun _ _ hb => hb.elim,
      fun b hb => ?_, rfl⟩
    · have hcell : ∀ c, cellCount ((Mem.new : Mem Cell Handle).cell c) b = 0 := fun c => rfl
      have hhandle : ∀ h, handleCount ((Mem.new : Mem Cell Handle).handle h) b = 0 := fun h => rfl
      simp only [balance, hcell, hhandle, Finset.sum_const_zero, sub_zero, Pc.count, Pi.zero_apply]
      rfl
    · rcases hb with ⟨c, hc⟩ | ⟨h, hh⟩ | ⟨t, ht⟩
      · cases hc
      · cases hh
      · exact ht.elim
    · exact absurd hb (by simp [Mem.new])
  · rintro s s' - hinv ⟨t, m', pc', hact, rfl⟩
    cases hact with
    | call op hallowed =>
      refine Ordinary.inv (W := op.Writes) (R := op.Reads) ?_ hinv (fun h hh u _ => hallowed.writes h hh u)
        fun h hh u _ => hallowed.reads h hh u
      rw [hallowed.idle]
      exact call_ordinary hallowed.ready
    | step choice halloc hstamp =>
      by_cases hmake : ∃ h, s.pc t = .make h
      · obtain ⟨h, hpc⟩ := hmake
        have hinv' := make_inv hinv hpc choice (halloc h hpc)
        rw [← hpc] at hinv'
        exact hinv'
      · by_cases hdelete : ∃ b rest, s.pc t = .delete b rest
        · obtain ⟨b, rest, hpc⟩ := hdelete
          have hinv' := delete_inv hinv hpc choice
          rw [← hpc] at hinv'
          exact hinv'
        · refine Ordinary.inv (step_ordinary (hinv.ok t) choice (fun h hpc => hmake ⟨h, hpc⟩)
            fun b rest hpc => hdelete ⟨b, rest, hpc⟩) hinv (fun h hh u hut => hinv.apart t u hut.symm h hh) ?_
          exact fun h hh u hut hw => (hinv.apart u t hut h hw).2 hh

/-! ### The counts when no operation is in progress -/

omit [DecidableEq Tid] [DecidableEq Cell] in
theorem Counted.quiescent (h : Counted s) (hidle : ∀ t, s.pc t = .idle) (b : Addr) :
    (s.mem.counter b).1 + ∑ c, (if (s.mem.cell c).rawPtr = some b then ((s.mem.cell c).stamp : Int) else 0) =
        (Finset.univ.filter fun h => s.mem.handle h = some (some b)).card ∧
      (s.mem.counter b).2 = (Finset.univ.filter fun c => (s.mem.cell c).rawPtr = some b).card := by
  have hpc : ∀ t, (s.pc t).count b = 0 := fun t => by
    rw [hidle t]
    rfl
  have hsum := h.counter_eq b
  simp only [hpc, Finset.sum_const_zero, add_zero] at hsum
  constructor
  · have hhandle : ∀ h, (handleCount (s.mem.handle h) b).1 = if s.mem.handle h = some (some b) then 1 else 0 := by
      intro h
      simp only [handleCount, single, Option.join_eq_some_iff]
      split <;> rfl
    have hcell : ∀ c, (cellCount (s.mem.cell c) b).1 =
        -(if (s.mem.cell c).rawPtr = some b then ((s.mem.cell c).stamp : Int) else 0) := by
      intro c
      simp only [cellCount, single]
      split <;> rfl
    rw [hsum]
    simp only [Prod.fst_add, Prod.fst_sum, hhandle, hcell, Finset.sum_neg_distrib, Finset.sum_boole]
    omega
  · have hhandle : ∀ h, (handleCount (s.mem.handle h) b).2 = 0 := by
      intro h
      simp only [handleCount, single]
      split <;> rfl
    have hcell : ∀ c, (cellCount (s.mem.cell c) b).2 = if (s.mem.cell c).rawPtr = some b then 1 else 0 := by
      intro c
      simp only [cellCount, single]
      split <;> rfl
    rw [hsum]
    simp only [Prod.snd_add, Prod.snd_sum, hhandle, hcell, Finset.sum_const_zero, add_zero, Finset.sum_boole]

/-- In every reachable state: if no operation is in progress, `transient` and the stamps of the cells that
point at a block count the handles to it, and `strong` counts these cells; no block is used or deleted
when it is not live, so none is deleted twice; a block that a cell, a handle or an operation refers to is
live; and a block that nothing refers to has been deleted. -/
theorem split_count_and_lifetime (s : Logic.Conf Tid (Mem Cell Handle) (Pc Cell Handle))
    (h : (system Tid Cell Handle).Reachable s) :
    ((∀ t, s.pc t = .idle) → ∀ b,
        (s.mem.counter b).1 + ∑ c, (if (s.mem.cell c).rawPtr = some b then ((s.mem.cell c).stamp : Int) else 0) =
            (Finset.univ.filter fun h => s.mem.handle h = some (some b)).card ∧
          (s.mem.counter b).2 = (Finset.univ.filter fun c => (s.mem.cell c).rawPtr = some b).card) ∧
      s.mem.fault = false ∧ (∀ b, Referred s b → s.mem.live b = true) ∧ ∀ b, s.mem.live b = true → Referred s b := by
  have hinv := inv_of_reachable h
  exact ⟨hinv.quiescent, hinv.fault, hinv.live, hinv.referred⟩

/-- A block is made, stored into a cell and loaded again: its counts are `(0, 1)` and the cell has stamp `1`. -/
theorem split_count_and_lifetime_load : ∃ s : Logic.Conf Unit (Mem Unit Bool) (Pc Unit Bool),
    (system Unit Unit Bool).Reachable s ∧ (∀ t, s.pc t = .idle) ∧ s.mem.handle true = some (some 0) ∧
      s.mem.counter 0 = (0, 1) ∧ (s.mem.counter 0).2 = (Finset.univ.filter fun c => (s.mem.cell c).rawPtr = some 0).card ∧
      s.mem.live 0 = true := by
  have hinit : (system Unit Unit Bool).Reachable ⟨.new, fun _ => .idle⟩ := .init rfl
  have hmake := hinit.step ⟨(), _, _, .call (.makeShared false) ⟨rfl, rfl, fun _ _ _ => ⟨id, id⟩, nofun⟩, rfl⟩
  have halloc := hmake.step ⟨(), _, _, .step ⟨false, 0⟩ (fun _ _ => rfl) (by decide), rfl⟩
  have hload := halloc.step ⟨(), _, _, .step ⟨false, 0⟩ nofun (by decide), rfl⟩
  have hmade := hload.step ⟨(), _, _, .step ⟨false, 0⟩ nofun (by decide), rfl⟩
  have hstore := hmade.step ⟨(), _, _, .call (.store () false) ⟨rfl, nofun, fun _ _ _ => ⟨id, id⟩, nofun⟩, rfl⟩
  have hstrong := hstore.step ⟨(), _, _, .step ⟨false, 0⟩ nofun (by decide), rfl⟩
  have hadded := hstrong.step ⟨(), _, _, .step ⟨false, 0⟩ nofun (by decide), rfl⟩
  have hexchange := hadded.step ⟨(), _, _, .step ⟨false, 0⟩ nofun (by decide), rfl⟩
  have hdrop := hexchange.step ⟨(), _, _, .step ⟨false, 0⟩ nofun (by decide), rfl⟩
  have hdropped := hdrop.step ⟨(), _, _, .step ⟨false, 0⟩ nofun (by decide), rfl⟩
  have hcall := hdropped.step ⟨(), _, _, .call (.load () true) ⟨rfl, rfl, fun _ _ _ => ⟨id, id⟩, nofun⟩, rfl⟩
  have hinc := hcall.step ⟨(), _, _, .step ⟨false, 0⟩ nofun (by decide), rfl⟩
  have hloaded := hinc.step ⟨(), _, _, .step ⟨false, 0⟩ nofun (by decide), rfl⟩
  obtain ⟨hcount, -, hlive, -⟩ := split_count_and_lifetime _ hloaded
  exact ⟨_, hloaded, fun _ => rfl, rfl, rfl, (hcount (fun _ => rfl) 0).2, hlive 0 (.inr (.inl ⟨true, rfl⟩))⟩

end CppConcur.LockFree.SharedPtr
