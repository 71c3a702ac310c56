import CppConcur.LockFree.HazardSteps

/-!
# Safety of the hazard pointers

Every action keeps the invariant of the memory and the histories, with one exception: `CleanUp` frees the
retired list of the calling thread without a look at the hazard slots. In the runs in which it is called
only while nobody holds a node of that list, no node is freed that some thread holds protected. A stack
destroyed by a thread that has popped from another one breaks this.
-/

namespace CppConcur.LockFree.Hazard

variable {Tid S α : Type*} [DecidableEq S] {t : Tid} {m m' : Mem Tid S α} {x : Aux Tid S} {pc pc' : Pc S α}

/-- What an action has to establish. -/
structure Kept (t : Tid) (m : Mem Tid S α) (x : Aux Tid S) (m' : Mem Tid S α) (x' : Aux Tid S) (pc' : Pc S α) : Prop where
  good : Good m' x'
  recorded : Recorded m' x'
  own : Assertion t m' x' pc'
  frame : Frame t m x m' x'

/-- The condition on the call of `CleanUp`: nobody holds a node of the own retired list. -/
def Safe (t : Tid) (pc : Pc S α) (m' : Mem Tid S α) (pc' : Pc S α) : Prop :=
  pc = .cleanUpMutator → pc' = .cleanUp → Unprotected t m'

/-! ### The scan -/

omit [DecidableEq S] in
/-- The slot that is read next shows what its thread holds. -/
theorem Scanned.read {i j : Nat} {hazards : List Addr} (h : Scanned t m x i j hazards) (hgood : Good m x) (u : Tid)
    (a : Addr) (k own : Nat)
    (hguarded : m.guarded u = some a) (hk : m.idx u = some k) (hown : m.idx t = some own) (hretired : x.own a = .retired own)
    (hpos : k < i ∨ k = i) : a ∈ (m.slot i j).toList ++ hazards := by
  have hseen : k < i ∨ k = i ∧ 0 < j → a ∈ (m.slot i j).toList ++ hazards := fun hpos =>
    List.mem_append_right _ (h u a k own hguarded hk hown hretired hpos)
  rcases hpos with hlt | rfl
  · exact hseen (.inl hlt)
  · rcases Nat.eq_zero_or_pos j with rfl | hj
    · obtain ⟨k', hk', hslot⟩ := hgood.slot u a hguarded
      rw [hk] at hk'
      cases hk'
      rw [hslot]
      exact List.mem_append_left _ (List.mem_singleton_self a)
    · exact hseen (.inr ⟨rfl, hj⟩)

omit [DecidableEq S] in
theorem Scanned.next {i j : Nat} {hazards : List Addr} (h : Scanned t m x i j hazards) (hgood : Good m x) {v : α}
    (hclaimed : m.claimed t = some v) :
    Assertion t m x (scanNext v i j ((m.slot i j).toList ++ hazards)) := by
  have hread := h.read hgood
  unfold scanNext
  split
  · refine ⟨hclaimed, fun u a k own hguarded hk hown hretired hpos => hread u a k own hguarded hk hown hretired ?_⟩
    rcases hpos with hlt | ⟨heq, _⟩
    · exact .inl hlt
    · exact .inr heq
  · split
    · refine ⟨hclaimed, fun u a k own hguarded hk hown hretired hpos => hread u a k own hguarded hk hown hretired ?_⟩
      rcases hpos with hlt | ⟨_, hzero⟩
      · exact Nat.lt_or_eq_of_le (Nat.le_of_lt_succ hlt)
      · exact absurd hzero (Nat.lt_irrefl 0)
    · -- the last slot of the last thread state
      rename_i hlast
      refine ⟨hclaimed, fun u a own hguarded hown hretired => ?_⟩
      obtain ⟨k, hk, _⟩ := hgood.slot u a hguarded
      have hmax := (hgood.idx_lt u k hk).2
      exact hread u a k own hguarded hk hown hretired (by omega)

/-! ### The actions -/

theorem Kept.read (hgood : Good m x) (hrecorded : Recorded m x) (hown : Assertion t m x pc') : ∃ x', Kept t m x m x' pc' :=
  ⟨x, hgood, hrecorded, hown, Frame.refl t m x⟩

theorem retire_kept (hgood : Good m x) (hrecorded : Recorded m x) {a : Addr} {v : α} {i : Nat}
    (hown : Assertion t m x (.popRetire a v)) (hidx : m.idx t = some i) :
    ∃ x', Kept t m x { m with retired := Function.update m.retired i (m.retired i ++ [a]) } x'
      (if scanFreq < (m.retired i ++ [a]).length then .scanSlot v 0 0 [] else .popReset v) := by
  obtain ⟨hpopped, hclaimed⟩ := hown
  refine ⟨x.setOwn a (.retired i), hgood.retire hpopped hidx, ?_, ?_, Frame.retire hgood hpopped hidx⟩
  · have hkeep : ∀ b o, o ≠ .popped t → o ≠ .retired i → ((x.setOwn a (.retired i)).own b = o ↔ x.own b = o) := by
      intro b o hold hnew
      exact setOwn_iff x a b (.retired i) o (by rw [hpopped]; exact hold.symm) hnew.symm
    exact hrecorded.mono rfl rfl rfl rfl (fun s hs => ⟨hs, rfl⟩) (fun b => (hkeep b .free nofun nofun).2)
      (fun b u => (hkeep b (.fresh u) nofun nofun).1) fun b s => (hkeep b (.linked s) nofun nofun).1
  · split
    · refine ⟨hclaimed, fun u b k own _ _ _ _ hpos => ?_⟩
      omega
    · exact hclaimed

/-- A retired node that nobody holds is freed, by `Scan` or by `CleanUp`. -/
theorem reclaim_recorded (hrecorded : Recorded m x) {a : Addr} {i : Nat} (hown : x.own a = .retired i) (l : List Addr) :
    Recorded { m with alive := Function.update m.alive a false, retired := Function.update m.retired i l } (x.setOwn a .free) := by
  have hkeep : ∀ b o, o ≠ .retired i → o ≠ .free → ((x.setOwn a .free).own b = o ↔ x.own b = o) := by
    intro b o hold hnew
    exact setOwn_iff x a b .free o (by rw [hown]; exact hold.symm) hnew.symm
  refine hrecorded.mono rfl rfl rfl rfl (fun s hs => ⟨hs, rfl⟩) (fun b hb => ?_)
    (fun b u => (hkeep b (.fresh u) nofun nofun).1) fun b s => (hkeep b (.linked s) nofun nofun).1
  by_cases hba : b = a
  · rw [hba, setOwn_self]
  · rw [setOwn_ne x _ hba, hb]

theorem scanFree_kept (hgood : Good m x) (hrecorded : Recorded m x) {v : α} {k : Nat} {hazards : List Addr} {i : Nat}
    {a : Addr}
    (hown : Assertion t m x (.scanLoop v k hazards)) (hidx : m.idx t = some i) (hentry : (m.retired i)[k]? = some a)
    (hclear : a ∉ hazards) :
    ∃ x', Kept t m x { m with
      alive := Function.update m.alive a false
      retired := Function.update m.retired i (swapPop (m.retired i) k) } x' (.scanLoop v k hazards) := by
  obtain ⟨hclaimed, hscanned⟩ := hown
  have hretired := (hgood.retired i a).1 (List.mem_of_getElem? hentry)
  have hnodup := hgood.retired_nodup i
  refine ⟨x.setOwn a .free, ?_, reclaim_recorded hrecorded hretired _, ⟨hclaimed, ?_⟩, Frame.reclaim hgood hretired hidx _⟩
  · refine hgood.reclaim hretired (fun u hu => ?_) (mem_swapPop hentry hnodup) (nodup_swapPop hentry hnodup)
    exact hclear (hscanned u a i hu hidx hretired)
  · intro u b own hguarded hi hb
    have hba : b ≠ a := by
      intro heq
      rw [heq, setOwn_self] at hb
      cases hb
    rw [setOwn_ne x _ hba] at hb
    exact hscanned u b own hguarded hi hb

theorem cleanUpFree_kept (hgood : Good m x) (hrecorded : Recorded m x) {i : Nat} {a : Addr} {rest : List Addr}
    (hown : Assertion t m x .cleanUp) (hidx : m.idx t = some i) (hlist : m.retired i = a :: rest) :
    ∃ x', Kept t m x { m with
      alive := Function.update m.alive a false
      retired := Function.update m.retired i rest } x' .cleanUp := by
  obtain ⟨huser, hguarded, hclear⟩ := hown
  have hmem : a ∈ m.retired i := by
    rw [hlist]
    exact List.mem_cons_self
  have hretired := (hgood.retired i a).1 hmem
  have hnodup := hgood.retired_nodup i
  rw [hlist, List.nodup_cons] at hnodup
  refine ⟨x.setOwn a .free, ?_, reclaim_recorded hrecorded hretired _, ⟨huser, hguarded, ?_⟩, Frame.reclaim hgood hretired hidx _⟩
  · refine hgood.reclaim hretired (hclear i hidx a hmem) (fun b => ?_) hnodup.2
    rw [hlist, List.mem_cons]
    constructor
    · intro hb
      refine ⟨.inr hb, fun heq => ?_⟩
      rw [heq] at hb
      exact hnodup.1 hb
    · intro ⟨hb, hne⟩
      exact hb.resolve_left hne
  · intro j hj b hb u
    rw [hidx] at hj
    cases hj
    simp only [Function.update_self] at hb
    refine hclear i hidx b ?_ u
    rw [hlist]
    exact List.mem_cons_of_mem _ hb

/-- The destructor is called for a stack that nobody uses. -/
theorem destroy_kept (hgood : Good m x) (hrecorded : Recorded m x) (hown : Assertion t m x .idle) {s : S}
    (hlive : m.destroyer s = none) (hunused : ∀ u, m.user u ≠ some s) :
    ∃ x', Kept t m x { m with destroyer := Function.update m.destroyer s (some t) } x' (.destroyLoad s) := by
  have hother : ∀ {s'}, Function.update m.destroyer s (some t) s' = none → m.destroyer s' = none := by
    intro s' hs'
    by_cases hs : s' = s
    · rw [hs, hlive]
    · rwa [Function.update_of_ne hs] at hs'
  refine ⟨x, { hgood with chain := ?_, unused := ?_ }, ?_, ?_, { Frame.refl t m x with destroying := ?_ }⟩
  · exact fun s' hs' => hgood.chain s' (hother hs')
  · intro s' u hdestroyer
    by_cases hs : s' = s
    · rw [hs]
      exact hunused
    · simp only [ne_eq, hs, not_false_eq_true, Function.update_of_ne] at hdestroyer
      exact hgood.unused s' u hdestroyer
  · exact hrecorded.mono rfl rfl rfl rfl (fun s' hs' => ⟨hother hs', rfl⟩) (fun _ h => h) (fun _ _ h => h) fun _ _ h => h
  · exact ⟨hown.1, hown.2, Function.update_self .., hgood.chain s hlive⟩
  · intro s' u _ hdestroyer
    have hs : s' ≠ s := by
      intro heq
      rw [heq, hlive] at hdestroyer
      cases hdestroyer
    exact ⟨by simpa only [ne_eq, hs, not_false_eq_true, Function.update_of_ne] using hdestroyer, rfl, rfl⟩

theorem destroyDelete_kept (hgood : Good m x) (hrecorded : Recorded m x) {s : S} {a : Addr} {next : Option Addr}
    (hown : Assertion t m x (.destroyDelete s a next)) :
    ∃ x', Kept t m x { m with alive := Function.update m.alive a false } x' (.destroyLoop s next) := by
  obtain ⟨huser, hguarded, hdestroyer, rest, hlist, hchain⟩ := hown
  have hkeep := fun b o => hgood.own_unlink hlist b .free o
  refine ⟨x.unlink s a rest .free, hgood.delete hlist hdestroyer, ?_, ⟨huser, hguarded, hdestroyer, ?_⟩, ?_⟩
  · refine hrecorded.mono rfl rfl rfl rfl (fun s' hs' => ⟨hs', ?_⟩) (fun b hb => ?_)
      (fun b u => (hkeep b (.fresh u) (by simp) (by simp)).1) fun b s' hb => ?_
    · have hs : s' ≠ s := by
        intro heq
        subst heq
        rw [hdestroyer] at hs'
        cases hs'
      exact Function.update_of_ne hs ..
    · by_cases hba : b = a
      · rw [hba]
        exact Function.update_self ..
      · exact (Function.update_of_ne hba ..).trans hb
    · have hba : b ≠ a := by
        intro heq
        subst heq
        simp only [Aux.unlink, Function.update_self, reduceCtorEq] at hb
      simpa only [Aux.unlink, ne_eq, hba, not_false_eq_true, Function.update_of_ne] using hb
  · simpa only [Aux.unlink, Function.update_self] using hchain
  · refine hgood.frame_unlink hlist rfl rfl (fun _ _ => rfl) (by simp) (fun u hu heq => ?_)
      { Frame.refl t m x with user := fun _ _ => rfl }
    rw [hdestroyer] at heq
    exact hu (Option.some.inj heq).symm

/-- The stack is empty when its top is null. -/
theorem Recorded.isEmpty (hrecorded : Recorded m x) (hgood : Good m x) {s : S} (hlive : m.destroyer s = none)
    (htop : m.top s = none) :
    (Hazard.contents s m.history).isEmpty = true := by
  have hchain := hgood.chain s hlive
  rw [htop] at hchain
  rw [hrecorded.contents s hlive]
  cases hlist : x.list s with
  | nil => rfl
  | cons a rest =>
    rw [hlist] at hchain
    cases hchain.1

section Actions

variable [DecidableEq Tid]

/-- `Push`. -/
theorem push_kept (hgood : Good m x) (hrecorded : Recorded m x) {s : S} {a : Addr} (hown : Assertion t m x (.pushCas s a))
    (heq : m.top s = m.next a) :
    ∃ x', Kept t m x { m with
      top := Function.update m.top s (some a)
      history := m.history ++ [.push s (m.ident a) (m.value a)]
      user := Function.update m.user t none } x' .idle := by
  obtain ⟨huser, hguarded, hfresh⟩ := hown
  have hlive := hgood.live huser
  let history := m.history ++ [.push s (m.ident a) (m.value a)]
  refine ⟨x.link s a, (hgood.link hfresh heq hlive history).set_user hguarded none nofun, ?_,
    ⟨Function.update_self .., hguarded⟩, ?_⟩
  · exact (hrecorded.link hfresh).same rfl rfl rfl rfl rfl
  · exact { Frame.link hfresh hlive history with user := fun _ hu => Function.update_of_ne hu .. }

/-- The successful compare-exchange of `TryPop`: the node is still the one that was protected, with the link that was read. -/
theorem pop_kept (hgood : Good m x) (hrecorded : Recorded m x) {s : S} {a : Addr} {next : Option Addr}
    (hown : Assertion t m x (.popCas s a next)) (htop : m.top s = some a) :
    ∃ x', Kept t m x { m with
      top := Function.update m.top s next
      history := m.history ++ [.pop s (m.ident a) (m.value a)]
      claimed := Function.update m.claimed t (some (m.value a)) } x' (.popTake a) := by
  obtain ⟨huser, hguarded, rfl⟩ := hown
  have hlive := hgood.live huser
  obtain ⟨rest, hlist, hchain⟩ := hgood.top_linked hlive htop
  refine ⟨x.unlink s a rest (.popped t), hgood.unlink hlist hchain _ _, hrecorded.unlink hgood hlist hlive _ _,
    ⟨Function.update_self .., Function.update_self ..⟩, ?_⟩
  have hother : ∀ s' u, m.destroyer s' = some u → s' ≠ s := by
    intro s' u hdestroyer heq
    rw [heq, hlive] at hdestroyer
    cases hdestroyer
  refine hgood.frame_unlink hlist rfl rfl (fun s' hs => Function.update_of_ne hs ..) nofun
    (fun u _ hu => hother s u hu rfl) { Frame.refl t m x with claimed := ?_, destroying := ?_ }
  · exact fun _ hu => Function.update_of_ne hu ..
  · exact fun s' u _ hu => ⟨hu, rfl, Function.update_of_ne (hother s' u hu) ..⟩

omit [DecidableEq S] in
theorem MakeMutator.user_guarded (h : MakeMutator t m m') : m'.user = m.user ∧ m'.guarded = m.guarded := by
  cases h with
  | old _ => exact ⟨rfl, rfl⟩
  | new _ _ => exact ⟨rfl, rfl⟩

theorem MakeMutator.recorded (h : MakeMutator t m m') (hrecorded : Recorded m x) : Recorded m' x := by
  cases h with
  | old _ => exact hrecorded
  | new _ _ => exact hrecorded.same rfl rfl rfl rfl rfl

/-- A store to the own slot, with no node protected. -/
theorem slot_kept (hgood : Good m x) (hrecorded : Recorded m x) {i : Nat} (hidx : m.idx t = some i) (obj : Option Addr)
    (hown : Assertion t { m with
      slot := Function.update m.slot i (Function.update (m.slot i) 0 obj)
      guarded := Function.update m.guarded t none } x pc') :
    ∃ x', Kept t m x { m with
      slot := Function.update m.slot i (Function.update (m.slot i) 0 obj)
      guarded := Function.update m.guarded t none } x' pc' :=
  ⟨x, hgood.set_slot hidx obj, hrecorded.same rfl rfl rfl rfl rfl, hown, Frame.set_slot hgood hidx obj⟩

/-- The destructor of the guard, and the end of the operation. -/
theorem leave_kept (hgood : Good m x) (hrecorded : Recorded m x) {i : Nat} (hidx : m.idx t = some i) :
    ∃ x', Kept t m x { m with
      slot := Function.update m.slot i (Function.update (m.slot i) 0 none)
      guarded := Function.update m.guarded t none
      user := Function.update m.user t none } x' .idle := by
  refine ⟨x, (hgood.set_slot hidx none).set_user (Function.update_self ..) none nofun,
    hrecorded.same rfl rfl rfl rfl rfl, ⟨Function.update_self .., Function.update_self ..⟩, ?_⟩
  exact { Frame.set_slot hgood hidx none with user := fun _ hu => Function.update_of_ne hu .. }

/-- Every action that meets the condition keeps the invariant and leaves the assertions of the others alone. -/
theorem Act.kept (hact : Act t m pc m' pc') (hsafe : Safe t pc m' pc') (hgood : Good m x) (hrecorded : Recorded m x)
    (hown : Assertion t m x pc) : ∃ x', Kept t m x m' x' pc' := by
  cases hact with
  | push s v hlive =>
    refine ⟨x, hgood.set_user hown.2 (some s) ?_, hrecorded.same rfl rfl rfl rfl rfl,
      ⟨Function.update_self .., hown.2⟩, Frame.set_user _⟩
    rintro s' ⟨⟩
    exact hlive
  | tryPop s hlive =>
    refine ⟨x, hgood.set_user hown.2 (some s) ?_, hrecorded.same rfl rfl rfl rfl rfl,
      ⟨Function.update_self .., hown.2⟩, Frame.set_user _⟩
    rintro s' ⟨⟩
    exact hlive
  | @pushNew s v a hfree =>
    exact ⟨x.setOwn a (.fresh t), hgood.alloc hfree v t, hrecorded.alloc hgood hfree v,
      ⟨hown.1, hown.2, setOwn_self ..⟩, Frame.alloc hgood hfree v⟩
  | @pushLoad s a =>
    exact ⟨x, hgood.set_next hown.2.2 _, hrecorded.same rfl rfl rfl rfl rfl, hown, Frame.set_next hown.2.2 _⟩
  | @pushFail s a =>
    exact ⟨x, hgood.set_next hown.2.2 _, hrecorded.same rfl rfl rfl rfl rfl, hown, Frame.set_next hown.2.2 _⟩
  | pushCas heq => exact push_kept hgood hrecorded hown heq
  | popMutator hmutator =>
    obtain ⟨huser, _⟩ := hmutator.user_guarded
    exact ⟨x, hgood.mutator hmutator, hmutator.recorded hrecorded, (congrFun huser t).trans hown.1, Frame.mutator hmutator⟩
  | popAbort _ _ => exact Kept.read hgood hrecorded trivial
  | protectLoad => exact Kept.read hgood hrecorded hown
  | @protectSet s obj i hidx =>
    refine slot_kept hgood hrecorded hidx obj ⟨hown, Function.update_self .., i, hidx, ?_⟩
    simp only [Function.update_self]
  | @protectNull s heq => exact Kept.read hgood hrecorded (hrecorded.isEmpty hgood (hgood.live hown.1) heq)
  | @protectDone s a heq =>
    obtain ⟨huser, hnone, i, hidx, hslot⟩ := hown
    refine ⟨x, hgood.set_guard huser hidx hslot heq, hrecorded.same rfl rfl rfl rfl rfl,
      ⟨huser, Function.update_self ..⟩,
      { Frame.refl t m x with guarded := fun _ hu => Function.update_of_ne hu .., new_guard := ?_ }⟩
    intro b hb
    simp only [Function.update_self, Option.some.injEq] at hb
    subst hb
    obtain ⟨rest, hlist, _⟩ := hgood.top_linked (hgood.live huser) heq
    exact .inr ⟨s, hgood.own_head hlist⟩
  | protectAgain _ => exact Kept.read hgood hrecorded hown.1
  | popNext => exact Kept.read hgood hrecorded ⟨hown.1, hown.2, rfl⟩
  | popCas heq => exact pop_kept hgood hrecorded hown heq
  | popFail => exact Kept.read hgood hrecorded hown.1
  | popTake => exact Kept.read hgood hrecorded ⟨hown.1, hown.2⟩
  | popRetire hidx => exact retire_kept hgood hrecorded hown hidx
  | scanSlot => exact Kept.read hgood hrecorded (hown.2.next hgood hown.1)
  | scanKeep _ _ _ => exact Kept.read hgood hrecorded hown
  | scanFree hidx hentry hclear => exact scanFree_kept hgood hrecorded hown hidx hentry hclear
  | scanDone _ _ => exact Kept.read hgood hrecorded hown.1
  | popReset hidx => exact slot_kept hgood hrecorded hidx none hown
  | popGuard hidx => exact leave_kept hgood hrecorded hidx
  | popNull hidx => exact leave_kept hgood hrecorded hidx
  | destroy s hlive hunused => exact destroy_kept hgood hrecorded hown hlive hunused
  | destroyLoad => exact Kept.read hgood hrecorded hown
  | @destroyNode s a =>
    obtain ⟨huser, hguarded, hdestroyer, hchain⟩ := hown
    refine Kept.read hgood hrecorded ⟨huser, hguarded, hdestroyer, ?_⟩
    cases hlist : x.list s with
    | nil =>
      rw [hlist] at hchain
      cases hchain
    | cons b rest =>
      rw [hlist] at hchain
      cases hchain.1
      exact ⟨rest, rfl, hchain.2⟩
  | destroyDelete => exact destroyDelete_kept hgood hrecorded hown
  | destroyDone => exact Kept.read hgood hrecorded ⟨hown.1, hown.2.1⟩
  | cleanUpMutator hmutator =>
    obtain ⟨huser, hguarded⟩ := hmutator.user_guarded
    exact ⟨x, hgood.mutator hmutator, hmutator.recorded hrecorded,
      ⟨(congrFun huser t).trans hown.1, (congrFun hguarded t).trans hown.2, hsafe rfl rfl⟩, Frame.mutator hmutator⟩
  | cleanUpAbort _ _ => exact Kept.read hgood hrecorded trivial
  | cleanUpFree hidx hretired => exact cleanUpFree_kept hgood hrecorded hown hidx hretired
  | cleanUpDone _ _ => exact Kept.read hgood hrecorded ⟨hown.1, hown.2.1⟩

end Actions

/-! ### The runs -/

section Runs

variable [DecidableEq Tid]

/-- The runs in which `CleanUp` is called only while nobody holds a node of the caller's retired list. -/
def safeSystem (Tid S α : Type*) [DecidableEq Tid] [DecidableEq S] : Logic.System (Logic.Conf Tid (Mem Tid S α) (Pc S α)) :=
  Logic.Program.system (fun t m pc m' pc' => Act t m pc m' pc' ∧ Safe t pc m' pc') Initial

variable {c c' : Logic.Conf Tid (Mem Tid S α) (Pc S α)}

omit [DecidableEq Tid] in
theorem Initial.good (h : Initial c) : ∃ x, (Good c.mem x ∧ Recorded c.mem x) ∧ ∀ t, Assertion t c.mem x (c.pc t) := by
  refine ⟨⟨fun _ => .free, fun _ => []⟩, ⟨?_, ?_⟩, fun t => ?_⟩
  · exact {
      free := fun a => ⟨fun _ => h.alive a, fun _ => rfl⟩
      linked := fun s a => ⟨nofun, nofun⟩
      nodup := fun s => List.nodup_nil
      chain := fun s _ => h.top s
      retired := by
        intro i a
        rw [h.retired]
        exact ⟨nofun, nofun⟩
      retired_nodup := by
        intro i
        rw [h.retired]
        exact List.nodup_nil
      retired_new := fun i _ => h.retired i
      idx_lt := by
        intro t i hi
        rw [h.idx] at hi
        cases hi
      idx_inj := by
        intro t u i hi
        rw [h.idx] at hi
        cases hi
      slot := by
        intro t a ha
        rw [h.guarded] at ha
        cases ha
      guarded := by
        intro t a ha
        rw [h.guarded] at ha
        cases ha
      unused := by
        intro s u hu
        rw [h.destroyer] at hu
        cases hu }
  · constructor <;> simp [h.history, contents, Legal, pushedNodes, poppedNodes]
  · rw [h.pc]
    exact ⟨h.user t, h.guarded t⟩

theorem good_of_safe (h : (safeSystem Tid S α).Reachable c) :
    ∃ x, (Good c.mem x ∧ Recorded c.mem x) ∧ ∀ t, Assertion t c.mem x (c.pc t) := by
  refine Logic.Program.outline (fun m x => Good m x ∧ Recorded m x) Assertion (fun c hinit => hinit.good) ?_ h
  rintro t m x pc m' pc' ⟨hgood, hrecorded⟩ hown ⟨hact, hsafe⟩
  obtain ⟨x', hgood', hrecorded', hown', hframe⟩ := hact.kept hsafe hgood hrecorded hown
  exact ⟨x', ⟨hgood', hrecorded'⟩, hown', fun u hu k hk => hk.frame hframe hgood hu⟩

/-- The actions that free a node are the deletions of `Scan`, of the destructor and of `CleanUp`. -/
theorem Act.freed (hact : Act t m pc m' pc') {a : Addr} (halive : m.alive a = true) (hfreed : m'.alive a = false) :
    (∃ v k hazards i, pc = .scanLoop v k hazards ∧ m.idx t = some i ∧ a ∈ m.retired i ∧ a ∉ hazards) ∨
      (∃ s next, pc = .destroyDelete s a next) ∨ ∃ i, pc = .cleanUp ∧ m.idx t = some i ∧ a ∈ m.retired i := by
  have hsame : m'.alive a = m.alive a → False := by
    intro heq
    rw [hfreed, halive] at heq
    cases heq
  have hupdate : ∀ b, Function.update m.alive b false a = false → a = b := by
    intro b hb
    by_cases hab : a = b
    · exact hab
    · rw [Function.update_of_ne hab, halive] at hb
      cases hb
  cases hact with
  | @pushNew s v b hb =>
    by_cases hab : a = b
    · rw [hab, hb] at halive
      cases halive
    · exact (hsame (Function.update_of_ne hab ..)).elim
  | popMutator hmutator => cases hmutator <;> exact (hsame rfl).elim
  | cleanUpMutator hmutator => cases hmutator <;> exact (hsame rfl).elim
  | @scanFree v k hazards i b hidx hentry hclear =>
    cases hupdate b hfreed
    exact .inl ⟨v, k, hazards, i, rfl, hidx, List.mem_of_getElem? hentry, hclear⟩
  | @destroyDelete s b next =>
    cases hupdate b hfreed
    exact .inr (.inl ⟨s, next, rfl⟩)
  | @cleanUpFree i b rest hidx hretired =>
    cases hupdate b hfreed
    refine .inr (.inr ⟨i, rfl, hidx, ?_⟩)
    rw [hretired]
    exact List.mem_cons_self
  | _ => exact (hsame rfl).elim

/-! ### Operations that run alone -/

theorem act_step (hpc : c.pc t = pc) (hact : Act t c.mem pc m' pc') (hne : pc ≠ .cleanUpMutator) :
    (safeSystem Tid S α).step c ⟨m', Function.update c.pc t pc'⟩ := by
  subst hpc
  exact ⟨t, m', pc', ⟨hact, fun heq => absurd heq hne⟩, rfl⟩

theorem reachable_act (h : (safeSystem Tid S α).Reachable c) (hpc : c.pc t = pc) (hact : Act t c.mem pc m' pc')
    (hne : pc ≠ .cleanUpMutator) : (safeSystem Tid S α).Reachable ⟨m', Function.update c.pc t pc'⟩ :=
  h.step (act_step hpc hact hne)

theorem reachable_of_safe (h : (safeSystem Tid S α).Reachable c) : (system Tid S α).Reachable c := by
  induction h with
  | init hinit => exact .init hinit
  | step _ hstep ih =>
    obtain ⟨t, m', pc', ⟨hact, _⟩, heq⟩ := hstep
    exact ih.step ⟨t, m', pc', hact, heq⟩

/-- The memory after a `Push`. -/
def Mem.pushed (m : Mem Tid S α) (t : Tid) (s : S) (a : Addr) (v : α) : Mem Tid S α :=
  { m with
    alive := Function.update m.alive a true
    value := Function.update m.value a v
    next := Function.update m.next a (m.top s)
    ident := Function.update m.ident a m.allocated
    allocated := m.allocated + 1
    top := Function.update m.top s (some a)
    history := m.history ++ [.push s m.allocated v]
    user := Function.update m.user t none }

theorem push_run (h : (safeSystem Tid S α).Reachable c) (hidle : c.pc t = .idle) (s : S) (a : Addr) (v : α)
    (hlive : c.mem.destroyer s = none) (hfree : c.mem.alive a = false) :
    (safeSystem Tid S α).Reachable ⟨c.mem.pushed t s a v, Function.update c.pc t .idle⟩ := by
  have hpush := reachable_act h hidle (.push s v hlive) nofun
  have hnew := reachable_act hpush (Function.update_self ..) (.pushNew a hfree) nofun
  have hload := reachable_act hnew (Function.update_self ..) .pushLoad nofun
  have hcas := reachable_act hload (Function.update_self ..) (.pushCas (by simp only [Function.update_self])) nofun
  simpa only [Mem.pushed, Function.update_idem, Function.update_self] using hcas

/-- The memory after the first `Protect` of a thread has yielded the top of a stack. -/
def Mem.protected (m : Mem Tid S α) (t : Tid) (s : S) (a : Addr) : Mem Tid S α :=
  { m with
    nextIdx := m.nextIdx + 1
    idx := Function.update m.idx t (some m.nextIdx)
    slot := Function.update m.slot m.nextIdx (Function.update (m.slot m.nextIdx) 0 (some a))
    guarded := Function.update m.guarded t (some a)
    user := Function.update m.user t (some s) }

theorem protect_run (h : (safeSystem Tid S α).Reachable c) (hidle : c.pc t = .idle) (s : S) (a : Addr)
    (hlive : c.mem.destroyer s = none) (hidx : c.mem.idx t = none) (hroom : c.mem.nextIdx < maxThreads)
    (htop : c.mem.top s = some a) :
    (safeSystem Tid S α).Reachable ⟨c.mem.protected t s a, Function.update c.pc t (.popNext s a)⟩ := by
  have hpop := reachable_act h hidle (.tryPop s hlive) nofun
  have hmutator := reachable_act hpop (Function.update_self ..) (.popMutator (.new hidx hroom)) nofun
  have hload := reachable_act hmutator (Function.update_self ..) .protectLoad nofun
  simp only [htop] at hload
  have hset := reachable_act hload (Function.update_self ..) (.protectSet (Function.update_self ..)) nofun
  have hdone := reachable_act hset (Function.update_self ..) (.protectDone htop) nofun
  simpa only [Mem.protected, Function.update_idem] using hdone

/-- The memory after a `TryPop` that has protected the top. -/
def Mem.popped (m : Mem Tid S α) (t : Tid) (i : Nat) (s : S) (a : Addr) : Mem Tid S α :=
  { m with
    top := Function.update m.top s (m.next a)
    history := m.history ++ [.pop s (m.ident a) (m.value a)]
    claimed := Function.update m.claimed t (some (m.value a))
    retired := Function.update m.retired i (m.retired i ++ [a])
    slot := Function.update m.slot i (Function.update (m.slot i) 0 none)
    guarded := Function.update m.guarded t none
    user := Function.update m.user t none }

theorem pop_run (h : (safeSystem Tid S α).Reachable c) {i : Nat} {s : S} {a : Addr} (hpc : c.pc t = .popNext s a)
    (htop : c.mem.top s = some a) (hidx : c.mem.idx t = some i) (hshort : (c.mem.retired i ++ [a]).length ≤ scanFreq) :
    (safeSystem Tid S α).Reachable ⟨c.mem.popped t i s a, Function.update c.pc t .idle⟩ := by
  have hnext := reachable_act h hpc .popNext nofun
  have hcas := reachable_act hnext (Function.update_self ..) (.popCas htop) nofun
  have htake := reachable_act hcas (Function.update_self ..) .popTake nofun
  have hretire := reachable_act htake (Function.update_self ..) (.popRetire hidx) nofun
  simp only [Nat.not_lt.2 hshort, if_false] at hretire
  have hreset := reachable_act hretire (Function.update_self ..) (.popReset hidx) nofun
  have hguard := reachable_act hreset (Function.update_self ..) (.popGuard hidx) nofun
  simpa only [Mem.popped, Function.update_idem, Function.update_self] using hguard

/-! ### Two threads and two stacks -/

/-- Before the first operation. -/
def start : Logic.Conf Bool (Mem Bool Bool Unit) (Pc Bool Unit) where
  mem :=
    { alive := fun _ => false, value := fun _ => (), next := fun _ => none, top := fun _ => none
      slot := fun _ _ => none, retired := fun _ => [], nextIdx := 0, idx := fun _ => none, ident := fun _ => 0
      allocated := 0, history := [], claimed := fun _ => none, guarded := fun _ => none, user := fun _ => none
      destroyer := fun _ => none }
  pc := fun _ => .idle

theorem start_reachable : (safeSystem Bool Bool Unit).Reachable start := by
  refine .init ?_
  constructor <;> intros <;> rfl

/-! ### No protected node is freed -/

/-- In every run in which `CleanUp` is called only while nobody holds a node of the caller's retired list: a
protected node is not free, and no step frees a node that some thread holds protected. -/
theorem protected_not_freed (h : (safeSystem Tid S α).Reachable c) :
    (∀ u a, c.mem.guarded u = some a → c.mem.alive a = true) ∧
      ∀ c', (safeSystem Tid S α).step c c' → ∀ a, c.mem.alive a = true → c'.mem.alive a = false →
        ∀ u, c.mem.guarded u ≠ some a := by
  obtain ⟨x, ⟨hgood, _⟩, hown⟩ := good_of_safe h
  constructor
  · intro u a hguarded
    obtain ⟨s, _, hheld⟩ := hgood.guarded u a hguarded
    cases halive : c.mem.alive a with
    | true => rfl
    | false => exact absurd hheld (not_held_of_free (hgood.own_free halive))
  · rintro c' ⟨t, m', pc', ⟨hact, _⟩, rfl⟩ a halive hfreed u hguarded
    have hassert := hown t
    rcases hact.freed halive hfreed with ⟨v, k, hazards, i, hpc, hidx, hmem, hclear⟩ | ⟨s, next, hpc⟩ | ⟨i, hpc, hidx, hmem⟩
    · rw [hpc] at hassert
      exact hclear (hassert.2 u a i hguarded hidx ((hgood.retired i a).1 hmem))
    · rw [hpc] at hassert
      obtain ⟨_, _, hdestroyer, rest, hlist, _⟩ := hassert
      exact hgood.not_guarded_destroyed hlist hdestroyer u hguarded
    · rw [hpc] at hassert
      exact hassert.2.2 i hidx a hmem u hguarded

/-- Thread `true` holds node `0` of stack `false`, while thread `false` pushes node `1` on the other stack and destroys it. -/
theorem protected_not_freed_two_stacks : ∃ c c', (safeSystem Bool Bool Unit).Reachable c ∧
    (safeSystem Bool Bool Unit).step c c' ∧
    c.mem.guarded true = some 0 ∧ c'.mem.alive 0 = true ∧ c.mem.alive 1 = true ∧ c'.mem.alive 1 = false ∧
      c.mem.guarded true ≠ some 1 := by
  have hpush := push_run (t := false) start_reachable rfl false 0 () rfl rfl
  have hhold := protect_run (t := true) hpush rfl false 0 rfl rfl (by decide) rfl
  have hother := push_run (t := false) hhold rfl true 1 () rfl rfl
  have hdestroy := reachable_act (t := false) hother rfl (.destroy true rfl (by decide)) nofun
  have hload := reachable_act hdestroy (Function.update_self ..) .destroyLoad nofun
  have hnode := reachable_act (t := false) hload rfl .destroyNode nofun
  refine ⟨_, _, hnode, act_step (t := false) rfl .destroyDelete nofun, rfl, rfl, rfl, rfl, ?_⟩
  exact (protected_not_freed hnode).2 _ (act_step (t := false) rfl .destroyDelete nofun) 1 rfl rfl true

/-- Thread `true` holds node `0` of stack `false`. Thread `false` pops this node and retires it, and then destroys the
other stack: `CleanUp` frees the node. -/
theorem protected_node_freed : ∃ c c', (system Bool Bool Unit).Reachable c ∧ (system Bool Bool Unit).step c c' ∧
    c.mem.guarded true = some 0 ∧ c.mem.alive 0 = true ∧ c'.mem.alive 0 = false := by
  have hpush := push_run (t := false) start_reachable rfl false 0 () rfl rfl
  have hhold := protect_run (t := true) hpush rfl false 0 rfl rfl (by decide) rfl
  have hprotect := protect_run (t := false) hhold rfl false 0 rfl rfl (by decide) rfl
  have hpop := pop_run (t := false) (i := 1) hprotect rfl rfl rfl (by decide)
  have hdestroy := reachable_act (t := false) hpop rfl (.destroy true rfl (by decide)) nofun
  have hload := reachable_act hdestroy (Function.update_self ..) .destroyLoad nofun
  have hdone := reachable_act (t := false) hload rfl .destroyDone nofun
  have hcleanUp := (reachable_of_safe hdone).step ⟨false, _, _, .cleanUpMutator (.old (i := 1) rfl), rfl⟩
  exact ⟨_, _, hcleanUp, ⟨false, _, _, .cleanUpFree (i := 1) rfl rfl, rfl⟩, rfl, rfl, rfl⟩

end Runs

end CppConcur.LockFree.Hazard
