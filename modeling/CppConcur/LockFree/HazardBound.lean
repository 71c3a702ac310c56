import CppConcur.LockFree.HazardSafety

/-!
# Bounded garbage

The stacks use the first slot of each thread only, so a scan collects at most one hazard for each thread, and keeps no more
nodes than it has collected. A retired list is therefore short again when a scan has ended, and grows by one node at a time
until the next scan.
-/

namespace CppConcur.LockFree.Hazard

variable {Tid S α : Type*} {t : Tid} {m m' : Mem Tid S α} {x x' : Aux Tid S} {pc pc' : Pc S α}

/-- How long the own retired list is, and what a scan has collected for it. -/
def Bounded (l : List Addr) : Pc S α → Prop
  | .scanSlot _ i j hazards => l.length ≤ scanFreq + 1 ∧ i < maxThreads ∧ hazards.length ≤ i + min j 1
  | .scanLoop _ k hazards => l.length ≤ scanFreq + 1 ∧ hazards.length ≤ maxThreads ∧ ∀ a ∈ l.take k, a ∈ hazards
  | _ => l.length ≤ scanFreq

/-! ### The scan -/

theorem bounded_scanNext {l : List Addr} {v : α} {i j : Nat} {hazards : List Addr} {obj : Option Addr}
    (h : Bounded l (.scanSlot v i j hazards : Pc S α)) (hobj : 0 < j → obj = none) :
    Bounded l (scanNext v i j (obj.toList ++ hazards) : Pc S α) := by
  obtain ⟨hl, hi, hlen⟩ := h
  have hnew : (obj.toList ++ hazards).length ≤ i + 1 := by
    rw [List.length_append]
    rcases Nat.eq_zero_or_pos j with rfl | hj
    · have hone : obj.toList.length ≤ 1 := by cases obj <;> simp
      omega
    · rw [hobj hj, Option.toList_none, List.length_nil]
      omega
  unfold scanNext
  split
  · exact ⟨hl, hi, by omega⟩
  · split
    · exact ⟨hl, by omega, by omega⟩
    · exact ⟨hl, by omega, by simp⟩

/-- The entries before the index are those that were kept. -/
theorem bounded_swapPop {l : List Addr} {v : α} {k : Nat} {hazards : List Addr} {a : Addr} (hentry : l[k]? = some a)
    (h : Bounded l (.scanLoop v k hazards : Pc S α)) : Bounded (swapPop l k) (.scanLoop v k hazards : Pc S α) := by
  obtain ⟨hl, hlen, hkept⟩ := h
  have hk : k < l.length := (List.getElem?_eq_some_iff.mp hentry).1
  have hlength := (swapPop_perm hentry).length_eq
  rw [List.length_cons] at hlength
  refine ⟨by omega, hlen, fun b hb => hkept b ?_⟩
  unfold swapPop at hb
  split at hb
  · exact hb
  · rw [List.dropLast_eq_take, List.take_take, List.take_set] at hb
    rw [List.length_set, Nat.min_eq_left (by omega), List.set_eq_of_length_le (List.length_take_le k l)] at hb
    exact hb

/-- What is left when the loop ends has been collected, and no node is there twice. -/
theorem length_of_kept {l : List Addr} {v : α} {k : Nat} {hazards : List Addr} (hnodup : l.Nodup)
    (h : Bounded l (.scanLoop v k hazards : Pc S α)) (hend : l.length ≤ k) : l.length ≤ maxThreads := by
  obtain ⟨-, hlen, hkept⟩ := h
  rw [List.take_of_length_le hend] at hkept
  exact Nat.le_trans (List.subperm_of_subset hnodup hkept).length_le hlen

/-! ### The actions -/

/-- Only first slots are used, and the lists that no thread has are empty. -/
structure Tidy (m : Mem Tid S α) : Prop where
  slot : ∀ i j, 0 < j → m.slot i j = none
  free : ∀ i, (∀ t, m.idx t ≠ some i) → m.retired i = []

/-- The list of a thread is bounded. -/
def OwnBounded (t : Tid) (m : Mem Tid S α) (pc : Pc S α) : Prop :=
  ∀ i, m.idx t = some i → Bounded (m.retired i) pc

theorem Tidy.frame (h : Tidy m) (hgood : Good m x) (hgood' : Good m' x') (hframe : Frame t m x m' x')
    (hslot : ∀ i j, 0 < j → m'.slot i j = m.slot i j) : Tidy m' := by
  refine ⟨fun i j hj => (hslot i j hj).trans (h.slot i j hj), fun i hi => List.eq_nil_iff_forall_not_mem.mpr fun a ha => ?_⟩
  rcases hframe.new_retired a i ((hgood'.retired i a).mp ha) with hold | hidx
  · have hfree : ∀ u, m.idx u ≠ some i := by
      intro u hu
      by_cases hut : u = t
      · exact hi t (hframe.idx_kept i (hut ▸ hu))
      · exact hi u ((hframe.idx u hut).trans hu)
    have hmem := (hgood.retired i a).mpr hold
    rw [h.free i hfree] at hmem
    cases hmem
  · exact hi t (hframe.idx_kept i hidx)

variable [DecidableEq Tid] [DecidableEq S] {c : Logic.Conf Tid (Mem Tid S α) (Pc S α)}

/-- The stacks set first slots only. -/
theorem Act.slot_eq (hact : Act t m pc m' pc') (i j : Nat) (hj : 0 < j) : m'.slot i j = m.slot i j := by
  have hset (k : Nat) (obj : Option Addr) : Function.update m.slot k (Function.update (m.slot k) 0 obj) i j = m.slot i j := by
    by_cases hi : i = k
    · rw [hi, Function.update_self, Function.update_of_ne (Nat.ne_of_gt hj)]
    · rw [Function.update_of_ne hi]
  cases hact with
  | popMutator hmutator | cleanUpMutator hmutator => cases hmutator <;> rfl
  | protectSet | popReset | popGuard | popNull => exact hset _ _
  | _ => rfl

theorem Act.ownBounded (hact : Act t m pc m' pc') (hgood : Good m x) (htidy : Tidy m) (h : OwnBounded t m pc) :
    OwnBounded t m' pc' := by
  have hlist {i : Nat} {l : List Addr} (hidx : m.idx t = some i) (hl : Bounded l pc') :
      OwnBounded t { m with retired := Function.update m.retired i l } pc' := by
    intro k hk
    cases hidx.symm.trans hk
    show Bounded (Function.update m.retired i l i) pc'
    rwa [Function.update_self]
  cases hact with
  | popMutator hmutator | cleanUpMutator hmutator =>
    cases hmutator with
    | old => exact h
    | new =>
      -- a new index is one whose list nobody has used
      intro i hi
      cases (Function.update_self t (some m.nextIdx) m.idx).symm.trans hi
      exact (hgood.retired_new _ (Nat.le_refl _)).symm ▸ Nat.zero_le scanFreq
  | @popRetire a v i hidx =>
    refine hlist hidx ?_
    have hlen : (m.retired i).length ≤ scanFreq := h i hidx
    split
    · exact ⟨by simpa using hlen, by decide, by simp⟩
    · exact Nat.le_of_not_lt ‹_›
  | scanSlot => exact fun i hi => bounded_scanNext (h i hi) (htidy.slot _ _)
  | @scanKeep v k hazards i a hidx hentry hhazard =>
    intro i' hi'
    obtain ⟨hl, hlen, hkept⟩ := h i' hi'
    cases hidx.symm.trans hi'
    refine ⟨hl, hlen, fun b hb => ?_⟩
    rw [List.take_add_one, hentry] at hb
    rcases List.mem_append.mp hb with hb | hb
    · exact hkept b hb
    · exact List.mem_singleton.mp hb ▸ hhazard
  | @scanFree v k hazards i a hidx hentry hclear => exact hlist hidx (bounded_swapPop hentry (h i hidx))
  | @scanDone v k hazards i hidx hend =>
    intro i' hi'
    cases hidx.symm.trans hi'
    exact Nat.le_trans (length_of_kept (hgood.retired_nodup i) (h i hidx) hend) (by decide)
  | @cleanUpFree i a rest hidx hretired =>
    have hlen : (m.retired i).length ≤ scanFreq := h i hidx
    rw [hretired] at hlen
    exact hlist hidx (Nat.le_of_succ_le hlen)
  | _ => exact h

/-! ### The runs -/

/-- The bounds in every run. -/
theorem bounded_of_reachable (h : (safeSystem Tid S α).Reachable c) :
    ∃ x, (Good c.mem x ∧ Recorded c.mem x ∧ Tidy c.mem) ∧
      ∀ t, Assertion t c.mem x (c.pc t) ∧ OwnBounded t c.mem (c.pc t) := by
  refine Logic.Program.outline (fun m x => Good m x ∧ Recorded m x ∧ Tidy m)
    (fun t m x pc => Assertion t m x pc ∧ OwnBounded t m pc) (fun c hinit => ?_) ?_ h
  · obtain ⟨x, ⟨hgood, hrecorded⟩, hown⟩ := hinit.good
    refine ⟨x, ⟨hgood, hrecorded, fun i j _ => hinit.slot i j, fun i _ => hinit.retired i⟩, fun t => ⟨hown t, fun i hi => ?_⟩⟩
    cases (hinit.idx t).symm.trans hi
  · rintro t m x pc m' pc' ⟨hgood, hrecorded, htidy⟩ ⟨hown, hbound⟩ ⟨hact, hsafe⟩
    obtain ⟨x', hgood', hrecorded', hown', hframe⟩ := hact.kept hsafe hgood hrecorded hown
    refine ⟨x', ⟨hgood', hrecorded', htidy.frame hgood hgood' hframe hact.slot_eq⟩, ⟨hown', hact.ownBounded hgood htidy hbound⟩,
      fun u hu k hk => ⟨hk.1.frame hframe hgood hu, fun i hi => ?_⟩⟩
    rw [hframe.idx u hu] at hi
    rw [hframe.retired u hu i hi]
    exact hk.2 i hi

omit [DecidableEq S] in
theorem Bounded.length_le {l : List Addr} (h : Bounded l pc) : l.length ≤ scanFreq + 1 := by
  cases pc with
  | scanSlot | scanLoop => exact h.1
  | _ => exact Nat.le_succ_of_le h

/-- In every run in which `CleanUp` is called only while nobody holds a node of the caller's retired list: the nodes that are
retired and not freed yet are in at most `maxThreads` lists of at most `scanFreq + 1` nodes, and at most `maxThreads` of them
are left in a list when the loop of a scan is at its end. -/
theorem retired_bounded (h : (safeSystem Tid S α).Reachable c) :
    (∀ i, (c.mem.retired i).length ≤ scanFreq + 1) ∧ (∀ i, maxThreads ≤ i → c.mem.retired i = []) ∧
      ∀ t v k hazards i, c.pc t = .scanLoop v k hazards → c.mem.idx t = some i → (c.mem.retired i).length ≤ k →
        (c.mem.retired i).length ≤ maxThreads := by
  obtain ⟨x, ⟨hgood, -, htidy⟩, hown⟩ := bounded_of_reachable h
  refine ⟨fun i => ?_, fun i hi => ?_, fun t v k hazards i hpc hidx hend => ?_⟩
  · by_cases hi : ∃ t, c.mem.idx t = some i
    · obtain ⟨t, ht⟩ := hi
      exact ((hown t).2 i ht).length_le
    · rw [htidy.free i (not_exists.mp hi)]
      exact Nat.zero_le _
  · exact htidy.free i fun t ht => Nat.not_lt.mpr hi (hgood.idx_lt t i ht).2
  · have hbound := (hown t).2 i hidx
    rw [hpc] at hbound
    exact length_of_kept (hgood.retired_nodup i) hbound hend

/-- A node has been pushed and popped. -/
theorem retired_bounded_popped : ∃ c, (safeSystem Bool Bool Unit).Reachable c ∧ c.mem.retired 0 = [0] ∧
    ∀ i, (c.mem.retired i).length ≤ scanFreq + 1 := by
  have hpush := push_run (t := false) start_reachable rfl false 0 () rfl rfl
  have hprotect := protect_run (t := false) hpush rfl false 0 rfl rfl (by decide) rfl
  have hpop := pop_run (t := false) (i := 0) hprotect rfl rfl rfl (by decide)
  exact ⟨_, hpop, rfl, (retired_bounded hpop).1⟩

end CppConcur.LockFree.Hazard
