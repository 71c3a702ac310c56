import CppConcur.LockFree.QueueInvariant

/-!
# The actions of the lock-free queue

One lemma for each way an action writes the memory: a thread writes a node it holds, takes a node from
the pool or puts one back, links a node, moves `tail_` or `head_`, increments `try_del_count`, moves a
value out, or returns. Each gives the new auxiliary value, the invariant for it, and what the other
threads may rely on.
-/

namespace CppConcur.LockFree.Queue

variable {T Tid : Type*} {t u : Tid} {m m' m'' : Mem T} {x x' x'' : Aux Tid}

/-! ### Stamps -/

theorem mod_stamps_succ (n : Nat) : (n % stamps + 1) % stamps = (n + 1) % stamps := Nat.mod_add_mod n stamps 1

/-- Two counts less than `2^16` apart that agree modulo `2^16` are the same. -/
theorem eq_of_mod_stamps {old new : Nat} (hle : old ≤ new) (hnear : new - old < stamps)
    (hmod : new % stamps = old % stamps) : new = old := by
  have hdvd := (Nat.modEq_iff_dvd' hle).mp hmod.symm
  have := Nat.eq_zero_of_dvd_of_lt hdvd hnear
  omega

theorem Seen.updates_eq {cell : AtomicStampedPtr Addr} {seen : Loaded Addr} (hseen : Seen cell seen)
    (hcell : cell.value.stamp = cell.updates % stamps) (hfresh : cell.Fresh seen)
    (hstamp : cell.value.stamp = seen.value.stamp) : cell.updates = seen.time := by
  refine eq_of_mod_stamps hseen.1 hfresh ?_
  rw [← hcell, hstamp, hseen.2.2]

/-- A compare-exchange that succeeds has seen that the cell was not written since the load. -/
theorem Seen.updates_eq_of_matches {cell : AtomicStampedPtr Addr} {seen : Loaded Addr} (hseen : Seen cell seen)
    (hcell : cell.value.stamp = cell.updates % stamps) (hfresh : cell.Fresh seen) (hmatches : cell.Matches seen) :
    cell.updates = seen.time := by
  refine hseen.updates_eq hcell hfresh ?_
  have hpos : 0 < stamps := Nat.two_pow_pos 16
  have hlt : seen.value.stamp < stamps := by rw [hseen.2.2]; exact Nat.mod_lt _ hpos
  rw [hmatches, StampedPtr.pack, Nat.mod_eq_of_lt hlt]

theorem seen_load {cell : AtomicStampedPtr Addr} (hcell : cell.value.stamp = cell.updates % stamps) :
    Seen cell cell.load := ⟨le_rfl, fun _ => rfl, hcell⟩

theorem Good.head_stamp (hgood : Good m x) : m.head.value.stamp = m.head.updates % stamps := by rw [hgood.head_value]

theorem Good.tail_stamp (hgood : Good m x) : m.tail.value.stamp = m.tail.updates % stamps := by rw [hgood.tail_value]

theorem Good.top_stamp (hgood : Good m x) : m.top.value.stamp = m.top.updates % stamps := by rw [hgood.top_value]

/-- The stamp a successful compare-exchange writes. -/
theorem Seen.succ_stamp {cell : AtomicStampedPtr Addr} {seen : Loaded Addr} (hseen : Seen cell seen)
    (heq : cell.updates = seen.time) : (seen.value.stamp + 1) % stamps = (cell.updates + 1) % stamps := by
  rw [hseen.2.2, mod_stamps_succ, heq]

/-! ### Positions -/

theorem Good.popped_le (hgood : Good m x) : m.popped.length ≤ m.pushed.length := hgood.head_le_tail.trans hgood.tail_le

theorem Good.live_of_le (hgood : Good m x) {i : Nat} (hi : m.popped.length ≤ i) : x.Live i := by
  rintro ⟨-, hpassed⟩
  have := hgood.passed_lt i hpassed
  omega

theorem Good.live_of_not_taken (hgood : Good m x) {i : Nat} (hi : x.valueTaken i = false) : x.Live i := by
  rintro ⟨hdone, -⟩
  rw [hgood.taken_of_done i hdone] at hi
  exact absurd hi (by decide)

theorem Good.place_of_le (hgood : Good m x) {i : Nat} (hle : m.popped.length ≤ i) (hi : i ≤ m.pushed.length) :
    x.place (x.chain i) = .linked i := hgood.place_chain i hi (hgood.live_of_le hle)

theorem Good.chain_injective (hgood : Good m x) {i j : Nat} (hi : i ≤ m.pushed.length) (hj : j ≤ m.pushed.length)
    (hlivei : x.Live i) (hlivej : x.Live j) (heq : x.chain i = x.chain j) : i = j := by
  have hplace := hgood.place_chain i hi hlivei
  rw [heq, hgood.place_chain j hj hlivej] at hplace
  exact (Place.linked.inj hplace).symm

/-- Nodes at different places are different. -/
theorem ne_of_place {a b : Addr} {p q : Place Tid} (ha : x.place a = p) (hb : x.place b = q) (hpq : p ≠ q) : a ≠ b := by
  rintro rfl
  exact hpq (ha.symm.trans hb)

theorem Good.chain_ne_held (hgood : Good m x) {a : Addr} (ha : x.place a = .held t) {i : Nat}
    (hi : i ≤ m.pushed.length) (hlive : x.Live i) : x.chain i ≠ a :=
  ne_of_place (hgood.place_chain i hi hlive) ha (by simp)

theorem Good.place_top (hgood : Good m x) {a : Addr} (ha : m.top.value.rawPtr = some a) : x.place a = .pool := by
  rw [hgood.top_value] at ha
  exact (hgood.mem_pool a).mp (List.mem_of_mem_head? ha)

/-- The node before `tail_` in the list, or `tail_` itself, has the successor at the next position. -/
theorem Good.next_eq (hgood : Good m x) {i : Nat} (hi : m.popped.length ≤ i) (hle : i ≤ m.pushed.length) {b : Addr}
    (hb : (m.node (x.chain i)).next.value.rawPtr = some b) : i < m.pushed.length ∧ b = x.chain (i + 1) := by
  by_cases hlast : i = m.pushed.length
  · rw [hlast, hgood.next_last] at hb
    exact absurd hb (by simp)
  · have hlt : i < m.pushed.length := by omega
    rw [hgood.next_ptr i hi hlt] at hb
    exact ⟨hlt, (Option.some.inj hb).symm⟩

/-- The node a cell pointed to when a thread loaded it, if the cell has not been written since. -/
theorem Seen.chain_eq {cell : AtomicStampedPtr Addr} {seen : Loaded Addr} {a c : Addr} (hseen : Seen cell seen)
    (heq : cell.updates = seen.time) {s : Nat} (hcell : cell.value = ⟨some c, s⟩)
    (ha : seen.value.rawPtr = some a) : c = a := by
  have hvalue := hseen.2.1 heq
  rw [hcell] at hvalue
  rw [← hvalue] at ha
  exact Option.some.inj ha

theorem Chained.congr {node node' : Addr → Node T} {l : List Addr}
    (hsame : ∀ a ∈ l, (node' a).next.value.rawPtr = (node a).next.value.rawPtr) (h : Chained node l) :
    Chained node' l := by
  induction l with
  | nil => trivial
  | cons a rest ih =>
    obtain ⟨ha, hrest⟩ := h
    exact ⟨(hsame a (by simp)).trans ha, ih (fun b hb => hsame b (by simp [hb])) hrest⟩

/-! ### What an action has to show -/

/-- The invariant and the thread's own assertion after an action, for an auxiliary value under which the
other threads see only changes they may rely on. -/
def Keeps (t : Tid) (m : Mem T) (x : Aux Tid) (next : Mem T × Pc T) : Prop :=
  ∃ x', Good next.1 x' ∧ Assertion t next.1 x' next.2 ∧ ∀ u, u ≠ t → Evolves u m x next.1 x'

theorem Evolves.refl (u : Tid) (m : Mem T) (x : Aux Tid) : Evolves u m x m x where
  head := .refl _
  tail := .refl _
  top := .refl _
  popped_le := le_rfl
  popped_eq := fun _ => rfl
  tailPos_le := le_rfl
  tailPos_eq := fun _ => rfl
  pushed := ⟨[], (List.append_nil _).symm⟩
  chain := fun _ _ => rfl
  tick := fun _ => ⟨le_rfl, le_rfl, le_rfl⟩
  held := fun _ h => ⟨h, rfl⟩
  last := fun _ h _ => h
  next := fun _ _ _ => ⟨fun _ => rfl, fun _ h => h⟩
  topNext := fun _ _ _ => rfl
  tickets := fun _ _ h => ⟨h, rfl, rfl, rfl, rfl⟩

theorem CellEvolves.trans {c c' c'' : AtomicStampedPtr Addr} (h : CellEvolves c c') (h' : CellEvolves c' c'') :
    CellEvolves c c'' := by
  obtain ⟨hle, heq⟩ := h
  obtain ⟨hle', heq'⟩ := h'
  exact ⟨hle.trans hle', fun hsame => (heq' (by omega)).trans (heq (by omega))⟩

theorem Evolves.trans (h : Evolves u m x m' x') (h' : Evolves u m' x' m'' x'') : Evolves u m x m'' x'' where
  head := h.head.trans h'.head
  tail := h.tail.trans h'.tail
  top := h.top.trans h'.top
  popped_le := h.popped_le.trans h'.popped_le
  popped_eq := fun hsame => by
    have := h.head.1
    have := h'.head.1
    rw [h'.popped_eq (by omega), h.popped_eq (by omega)]
  tailPos_le := h.tailPos_le.trans h'.tailPos_le
  tailPos_eq := fun hsame => by
    have := h.tail.1
    have := h'.tail.1
    rw [h'.tailPos_eq (by omega), h.tailPos_eq (by omega)]
  pushed := by
    obtain ⟨values, hvalues⟩ := h.pushed
    obtain ⟨values', hvalues'⟩ := h'.pushed
    exact ⟨values ++ values', by rw [hvalues', hvalues, List.append_assoc]⟩
  chain := fun i hi => (h'.chain i (hi.trans h.pushed_le)).trans (h.chain i hi)
  tick := fun a => by
    have := h.tick a
    have := h'.tick a
    omega
  held := fun a ha => by
    obtain ⟨hplace, hnode⟩ := h.held a ha
    obtain ⟨hplace', hnode'⟩ := h'.held a hplace
    exact ⟨hplace', hnode'.trans hnode⟩
  last := fun a ha hsame => by
    have := (h.tick a).1
    have := (h'.tick a).1
    exact h'.last a (h.last a ha (by omega)) (by omega)
  next := fun i hi hle => by
    obtain ⟨hkeep, hsome⟩ := h.next i (h'.popped_le.trans hi) hle
    obtain ⟨hkeep', hsome'⟩ := h'.next i hi (hle.trans h.pushed_le)
    rw [h.chain i hle] at hkeep' hsome'
    have := (h.tick (x.chain i)).1
    have := (h'.tick (x.chain i)).1
    exact ⟨fun hsame => (hkeep' (by omega)).trans (hkeep (by omega)), fun b hb => hsome' b (hsome b hb)⟩
  topNext := fun hsame a ha => by
    have hle := h.top.1
    have hle' := h'.top.1
    have hvalue := h.top.2 (by omega)
    exact (h'.topNext (by omega) a (by rw [hvalue]; exact ha)).trans (h.topNext (by omega) a ha)
  tickets := fun k hk hpopper => by
    obtain ⟨hpopper', hpending, hpassed, hdone, htaken⟩ := h.tickets k hk hpopper
    obtain ⟨hpopper'', hpending', hpassed', hdone', htaken'⟩ := h'.tickets k (hk.trans_le h.popped_le) hpopper'
    exact ⟨hpopper'', hpending'.trans hpending, hpassed'.trans hpassed, hdone'.trans hdone, htaken'.trans htaken⟩

theorem keeps_of_read (hgood : Good m x) {pc : Pc T} (hpc : Assertion t m x pc) : Keeps t m x (m, pc) :=
  ⟨x, hgood, hpc, fun u _ => .refl u m x⟩

@[simp] theorem setNode_self (a : Addr) (n : Node T) : (m.setNode a n).node a = n := Function.update_self ..

theorem setNode_ne {a b : Addr} (n : Node T) (h : b ≠ a) : (m.setNode a n).node b = m.node b :=
  Function.update_of_ne h ..

/-! ### A thread writes a node it holds -/

theorem setNode_good (hgood : Good m x) {a : Addr} (ha : x.place a = .held t) (n : Node T) (tick : Nat)
    (htry : n.tryDelCount = (m.node a).tryDelCount) (hstamp : n.next.value.stamp = tick % stamps) :
    Good (m.setNode a n) { x with tick := Function.update x.tick a tick } := by
  have hchain : ∀ i, i ≤ m.pushed.length → x.Live i → (m.setNode a n).node (x.chain i) = m.node (x.chain i) :=
    fun i hi hlive => setNode_ne n (hgood.chain_ne_held ha hi hlive)
  have hpopped := hgood.popped_le
  refine { hgood with
    next_stamp := ?_, next_ptr := ?_, next_last := ?_, value := ?_, tryDel_linked := ?_, tryDel_pool := ?_,
    tryDel_held := ?_, pool_chained := ?_, next_free := ?_ }
  · intro b
    by_cases hb : b = a
    · subst hb
      rw [setNode_self]
      simpa only [Function.update_self] using hstamp
    · rw [setNode_ne n hb]
      simpa only [ne_eq, hb, not_false_eq_true, Function.update_of_ne] using hgood.next_stamp b
  · intro i hi hlt
    rw [hchain i hlt.le (hgood.live_of_le hi)]
    exact hgood.next_ptr i hi hlt
  · exact (congrArg (fun n => n.next.value.rawPtr) (hchain _ le_rfl (hgood.live_of_le hpopped))).trans hgood.next_last
  · intro i hi htaken
    rw [hchain (i + 1) hi (hgood.live_of_not_taken htaken)]
    exact hgood.value i hi htaken
  · intro b i hb
    have hne : b ≠ a := ne_of_place hb ha (by simp)
    rw [setNode_ne n hne]
    exact hgood.tryDel_linked b i hb
  · intro b hb
    have hne : b ≠ a := ne_of_place hb ha (by simp)
    rw [setNode_ne n hne]
    exact hgood.tryDel_pool b hb
  · intro b t' hb
    by_cases hba : b = a
    · subst hba
      rw [setNode_self, htry]
      exact hgood.tryDel_held b t' hb
    · rw [setNode_ne n hba]
      exact hgood.tryDel_held b t' hb
  · refine hgood.pool_chained.congr fun b hb => ?_
    rw [setNode_ne n (ne_of_place ((hgood.mem_pool b).mp hb) ha (by simp))]
  · intro b hb
    have hne : b ≠ a := ne_of_place hb ha (by simp)
    rw [setNode_ne n hne]
    simpa only [ne_eq, hne, not_false_eq_true, Function.update_of_ne] using hgood.next_free b hb

theorem setNode_evolves (hgood : Good m x) {a : Addr} (ha : x.place a = .held t) (n : Node T) (tick : Nat)
    (htick : x.tick a ≤ tick) (hupdates : (m.node a).next.updates ≤ n.next.updates)
    (hboth : tick + (m.node a).next.updates ≤ x.tick a + n.next.updates) (hu : u ≠ t) :
    Evolves u m x (m.setNode a n) { x with tick := Function.update x.tick a tick } := by
  refine { Evolves.refl u m x with tick := ?_, held := ?_, last := ?_, next := ?_, topNext := ?_ }
  · intro b
    by_cases hb : b = a
    · subst hb
      simp only [setNode_self, Function.update_self]
      exact ⟨htick, hupdates, hboth⟩
    · rw [setNode_ne n hb]
      simp only [ne_eq, hb, not_false_eq_true, Function.update_of_ne]
      exact ⟨le_rfl, le_rfl, le_rfl⟩
  · intro b hb
    exact ⟨hb, setNode_ne n (ne_of_place hb ha fun h => hu (Place.held.inj h))⟩
  · exact fun b hb _ => hb
  · intro i hi hle
    rw [setNode_ne n (hgood.chain_ne_held ha hle (hgood.live_of_le hi))]
    exact ⟨fun _ => rfl, fun _ h => h⟩
  · intro _ b hb
    rw [setNode_ne n (ne_of_place (hgood.place_top hb) ha (by simp))]

/-! ### Allocation and the pool -/

theorem newAlloc_keeps (hgood : Good m x) (value : T) (choice : Choice T)
    (halloc : m.allocated choice.addr = false) : Keeps t m x (step m choice (.newAlloc value)) := by
  have hfree := hgood.free_of_not_allocated _ halloc
  have hzero := hgood.next_free _ hfree
  have hplace : ∀ b, b ≠ choice.addr → Function.update x.place choice.addr (.held t) b = x.place b :=
    fun b hb => Function.update_of_ne hb ..
  have hnode : ∀ b, x.place b ≠ .free →
      Function.update m.node choice.addr (Node.new (some value)) b = m.node b := by
    intro b hb
    exact Function.update_of_ne (ne_of_place rfl hfree hb) ..
  have hlinked : ∀ i, i ≤ m.pushed.length → x.Live i →
      Function.update m.node choice.addr (Node.new (some value)) (x.chain i) = m.node (x.chain i) := by
    intro i hi hlive
    exact hnode _ (by rw [hgood.place_chain i hi hlive]; simp)
  have hpopped := hgood.popped_le
  refine ⟨{ x with place := Function.update x.place choice.addr (.held t) }, ?_, ?_, ?_⟩
  · refine { hgood with
      next_stamp := ?_, next_ptr := ?_, next_last := ?_, place_chain := ?_, linked_pos := ?_, value := ?_,
      tryDel_linked := ?_, tryDel_pool := ?_, tryDel_held := ?_, mem_pool := ?_, pool_chained := ?_,
      free_of_not_allocated := ?_, next_free := ?_ }
    · intro b
      by_cases hb : b = choice.addr
      · subst hb
        simp only [step, Function.update_self, Node.new, hzero.1, Nat.zero_mod]
      · simp only [step, ne_eq, hb, not_false_eq_true, Function.update_of_ne]
        exact hgood.next_stamp b
    · intro i hi hlt
      simp only [step]
      rw [hlinked i hlt.le (hgood.live_of_le hi)]
      exact hgood.next_ptr i hi hlt
    · simp only [step]
      rw [hlinked _ le_rfl (hgood.live_of_le hpopped)]
      exact hgood.next_last
    · intro i hi hlive
      have hchain := hgood.place_chain i hi hlive
      exact (hplace _ (ne_of_place hchain hfree (by simp))).trans hchain
    · intro b i hb
      have hne : b ≠ choice.addr := by
        rintro rfl
        simp only [Function.update_self] at hb
        exact absurd hb (by simp)
      exact hgood.linked_pos b i ((hplace b hne).symm.trans hb)
    · intro i hi htaken
      simp only [step] at hi htaken ⊢
      rw [hlinked (i + 1) hi (hgood.live_of_not_taken htaken)]
      exact hgood.value i hi htaken
    · intro b i hb
      have hne : b ≠ choice.addr := by
        rintro rfl
        simp only [Function.update_self] at hb
        exact absurd hb (by simp)
      simp only [step, ne_eq, hne, not_false_eq_true, Function.update_of_ne] at hb ⊢
      exact hgood.tryDel_linked b i hb
    · intro b hb
      have hne : b ≠ choice.addr := by
        rintro rfl
        simp only [Function.update_self] at hb
        exact absurd hb (by simp)
      simp only [step, ne_eq, hne, not_false_eq_true, Function.update_of_ne] at hb ⊢
      exact hgood.tryDel_pool b hb
    · intro b t' hb
      by_cases hba : b = choice.addr
      · subst hba
        simp only [step, Function.update_self, Node.new]
      · simp only [step, ne_eq, hba, not_false_eq_true, Function.update_of_ne] at hb ⊢
        exact hgood.tryDel_held b t' hb
    · intro b
      by_cases hb : b = choice.addr
      · subst hb
        simp only [Function.update_self, reduceCtorEq, hgood.mem_pool, hfree]
      · simp only [ne_eq, hb, not_false_eq_true, Function.update_of_ne]
        exact hgood.mem_pool b
    · refine hgood.pool_chained.congr fun b hb => ?_
      simp only [step]
      rw [hnode b (by rw [(hgood.mem_pool b).mp hb]; simp)]
    · intro b hb
      have hne : b ≠ choice.addr := by
        rintro rfl
        simp only [step, Function.update_self] at hb
        exact absurd hb (by decide)
      simp only [step, ne_eq, hne, not_false_eq_true, Function.update_of_ne] at hb ⊢
      exact hgood.free_of_not_allocated b hb
    · intro b hb
      have hne : b ≠ choice.addr := by
        rintro rfl
        simp only [Function.update_self] at hb
        exact absurd hb (by simp)
      simp only [step, ne_eq, hne, not_false_eq_true, Function.update_of_ne] at hb ⊢
      exact hgood.next_free b hb
  · refine ⟨Function.update_self .., ?_, ?_⟩
    · simp only [step, Function.update_self, Node.new]
    · simp only [step, Function.update_self, Node.new]
  · intro u _
    refine { Evolves.refl u m x with tick := ?_, held := ?_, last := ?_, next := ?_, topNext := ?_ }
    · intro b
      by_cases hb : b = choice.addr
      · subst hb
        simp only [step, Function.update_self, Node.new, hzero.2]
        exact ⟨le_rfl, le_rfl, le_rfl⟩
      · simp only [step, ne_eq, hb, not_false_eq_true, Function.update_of_ne]
        exact ⟨le_rfl, le_rfl, le_rfl⟩
    · intro b hb
      have hne : b ≠ choice.addr := ne_of_place hb hfree (by simp)
      simp only [step, ne_eq, hne, not_false_eq_true, Function.update_of_ne]
      exact ⟨hb, trivial⟩
    · intro b hb _
      have hne : b ≠ choice.addr := ne_of_place hb hfree (by simp)
      exact (hplace b hne).trans hb
    · intro i hi hle
      simp only [step] at hi ⊢
      rw [hlinked i hle (hgood.live_of_le hi)]
      exact ⟨fun _ => rfl, fun _ h => h⟩
    · intro _ b hb
      simp only [step]
      rw [hnode b (by rw [hgood.place_top hb]; simp)]

/-- Moving nodes between the pool and the hands of a thread leaves the list alone. -/
theorem place_good (hgood : Good m x) {a : Addr} {place : Place Tid} (top : AtomicStampedPtr Addr) (pool : List Addr)
    (hbefore : ∀ i, x.place a ≠ .linked i) (hafter : ∀ i, place ≠ .linked i)
    (hnotFree : x.place a ≠ .free) (hnotFree' : place ≠ .free)
    (htry : (m.node a).tryDelCount % 2 = 0) (htop : top.value = ⟨pool.head?, top.updates % stamps⟩)
    (hnodup : pool.Nodup) (hmem : ∀ b, b ∈ pool ↔ Function.update x.place a place b = .pool)
    (hchained : Chained m.node pool) :
    Good { m with top := top } { x with place := Function.update x.place a place, pool := pool } := by
  have hne : ∀ b i, Function.update x.place a place b = .linked i → b ≠ a := by
    rintro b i hb rfl
    rw [Function.update_self] at hb
    exact hafter i hb
  refine { hgood with
    top_value := htop, place_chain := ?_, linked_pos := ?_, tryDel_linked := ?_, tryDel_pool := ?_,
    tryDel_held := ?_, pool_nodup := hnodup, mem_pool := hmem, pool_chained := hchained,
    free_of_not_allocated := ?_, next_free := ?_ }
  · intro i hi hlive
    have hchain := hgood.place_chain i hi hlive
    exact (Function.update_of_ne (ne_of_place hchain rfl (hbefore i).symm) ..).trans hchain
  · intro b i hb
    exact hgood.linked_pos b i ((Function.update_of_ne (hne b i hb) ..).symm.trans hb)
  · intro b i hb
    exact hgood.tryDel_linked b i ((Function.update_of_ne (hne b i hb) ..).symm.trans hb)
  · intro b hb
    by_cases hba : b = a
    · exact hba ▸ htry
    · exact hgood.tryDel_pool b ((Function.update_of_ne hba ..).symm.trans hb)
  · intro b t' hb
    by_cases hba : b = a
    · exact hba ▸ htry
    · exact hgood.tryDel_held b t' ((Function.update_of_ne hba ..).symm.trans hb)
  · intro b hb
    have hfree := hgood.free_of_not_allocated b hb
    exact (Function.update_of_ne (ne_of_place hfree rfl hnotFree.symm) ..).trans hfree
  · intro b hb
    by_cases hba : b = a
    · subst hba
      simp only [Function.update_self] at hb
      exact absurd hb hnotFree'
    · exact hgood.next_free b ((Function.update_of_ne hba ..).symm.trans hb)

theorem place_evolves {a : Addr} {place : Place Tid} (p : StampedPtr Addr) (pool : List Addr)
    (hbefore : ∀ i, x.place a ≠ .linked i) (hheld : x.place a ≠ .held u) :
    Evolves u m x { m with top := m.top.store p }
      { x with place := Function.update x.place a place, pool := pool } := by
  refine { Evolves.refl u m x with top := .store _ _, held := ?_, last := ?_, topNext := ?_ }
  · intro b hb
    exact ⟨(Function.update_of_ne (ne_of_place hb rfl hheld.symm) ..).trans hb, rfl⟩
  · intro b hb _
    exact (Function.update_of_ne (ne_of_place hb rfl (hbefore _).symm) ..).trans hb
  · exact fun heq => absurd heq (Nat.succ_ne_self _)

theorem newCasTop_keeps (hgood : Good m x) (value : T) (currTop next : Loaded Addr) (choice : Choice T)
    (hpc : Assertion t m x (.newCasTop value currTop next)) (hfresh : m.top.Fresh currTop) :
    Keeps t m x (step m choice (.newCasTop value currTop next)) := by
  obtain ⟨hseen, a, ha, hnext⟩ := hpc
  simp only [step, ha]
  split
  · rename_i hcas
    have heq := hseen.updates_eq_of_matches hgood.top_stamp hfresh hcas.1
    have hptr : m.top.value.rawPtr = some a := by rw [hseen.2.1 heq, ha]
    have hplace := hgood.place_top hptr
    obtain ⟨rest, hrest⟩ : ∃ rest, x.pool = a :: rest := by
      rw [hgood.top_value] at hptr
      exact ⟨_, (List.cons_head?_tail hptr).symm⟩
    have hnodup := hgood.pool_nodup
    have hchained := hgood.pool_chained
    rw [hrest] at hnodup hchained
    have hnotMem := (List.nodup_cons.mp hnodup).1
    refine ⟨{ x with place := Function.update x.place a (.held t), pool := rest }, ?_, ?_, fun u _ => ?_⟩
    · refine place_good hgood _ rest (fun i => by rw [hplace]; simp) (fun i => by simp) (by rw [hplace]; simp)
        (by simp) (hgood.tryDel_pool a hplace) ?_ (List.nodup_cons.mp hnodup).2 ?_ hchained.2
      · rw [AtomicStampedPtr.store, StampedPtr.pack, ← hnext heq, hchained.1, hseen.succ_stamp heq]
      · intro b
        by_cases hb : b = a
        · subst hb
          simp only [hnotMem, Function.update_self, reduceCtorEq]
        · rw [Function.update_of_ne hb, ← hgood.mem_pool b, hrest, List.mem_cons, or_iff_right hb]
    · exact Function.update_self ..
    · exact place_evolves _ _ (fun i => by rw [hplace]; simp) (by rw [hplace]; simp)
  · exact keeps_of_read hgood trivial

/-- Putting a node back into the pool, before the thread goes on. -/
theorem poolPush_keeps (hgood : Good m x) {a : Addr} {oldTop : Loaded Addr} (ha : x.place a = .held t)
    (hseen : Seen m.top oldTop) (heq : m.top.updates = oldTop.time)
    (hnext : (m.node a).next.value.rawPtr = oldTop.value.rawPtr) :
    Good { m with top := m.top.store ⟨some a, oldTop.value.stamp + 1⟩ }
        { x with place := Function.update x.place a .pool, pool := a :: x.pool } ∧
      ∀ u, u ≠ t → Evolves u m x { m with top := m.top.store ⟨some a, oldTop.value.stamp + 1⟩ }
        { x with place := Function.update x.place a .pool, pool := a :: x.pool } := by
  have hnotMem : a ∉ x.pool := by
    rw [hgood.mem_pool, ha]
    simp
  have hptr : oldTop.value.rawPtr = x.pool.head? := by rw [← hseen.2.1 heq, hgood.top_value]
  refine ⟨?_, fun u hu => ?_⟩
  · refine place_good hgood _ (a :: x.pool) (fun i => by rw [ha]; simp) (fun i => by simp) (by rw [ha]; simp)
      (by simp) (hgood.tryDel_held a t ha) ?_ (List.nodup_cons.mpr ⟨hnotMem, hgood.pool_nodup⟩) ?_
      ⟨hnext.trans hptr, hgood.pool_chained⟩
    · rw [AtomicStampedPtr.store, StampedPtr.pack, hseen.succ_stamp heq, List.head?_cons]
    · intro b
      by_cases hb : b = a
      · subst hb
        simp only [List.mem_cons, true_or, Function.update_self]
      · rw [Function.update_of_ne hb, ← hgood.mem_pool b, List.mem_cons, or_iff_right hb]
  · exact place_evolves _ _ (fun i => by rw [ha]; simp) (fun h => hu (by rw [ha] at h; exact (Place.held.inj h).symm))

/-! ### Linking a node -/

/-- The auxiliary value after a node has been linked behind the last one. -/
def Aux.link (x : Aux Tid) (last : Nat) (a : Addr) : Aux Tid :=
  { x with
    chain := Function.update x.chain (last + 1) a
    place := Function.update x.place a (.linked (last + 1))
    tick := Function.update x.tick (x.chain last) (x.tick (x.chain last) + 1) }

theorem link_chain_of_le (x : Aux Tid) {last i : Nat} (a : Addr) (hi : i ≤ last) : (x.link last a).chain i = x.chain i :=
  Function.update_of_ne (by omega) ..

theorem length_pushed_link (a : Addr) (p : StampedPtr Addr) (value : T) :
    (m.link a p value).pushed.length = m.pushed.length + 1 := by
  simp only [Mem.link, List.length_append, List.length_singleton]

theorem link_good (hgood : Good m x) {value : T} {a : Addr} (hready : Ready m x t value a) (p : StampedPtr Addr)
    (hptr : p.rawPtr = some a) (hstamp : p.stamp % stamps = (x.tick (x.chain m.pushed.length) + 1) % stamps) :
    Good (m.link (x.chain m.pushed.length) p value) (x.link m.pushed.length a) := by
  obtain ⟨hplace, hvalue, hnext⟩ := hready
  have hpopped := hgood.popped_le
  have hlast := hgood.place_of_le hpopped le_rfl
  have hne : a ≠ x.chain m.pushed.length := ne_of_place hplace hlast (by simp)
  have hself : (x.link m.pushed.length a).chain (m.pushed.length + 1) = a := Function.update_self ..
  have hplaceNe : ∀ b, b ≠ a → (x.link m.pushed.length a).place b = x.place b := fun b hb => Function.update_of_ne hb ..
  have hnode : ∀ b, b ≠ x.chain m.pushed.length → (m.link (x.chain m.pushed.length) p value).node b = m.node b :=
    fun b hb => Function.update_of_ne hb ..
  have hnodeLast : (m.link (x.chain m.pushed.length) p value).node (x.chain m.pushed.length) =
      (m.node (x.chain m.pushed.length)).storeNext p := Function.update_self ..
  have hvalueEq : ∀ b, ((m.link (x.chain m.pushed.length) p value).node b).value = (m.node b).value := by
    intro b
    by_cases hb : b = x.chain m.pushed.length
    · rw [hb, hnodeLast]; rfl
    · rw [hnode b hb]
  have htryEq : ∀ b, ((m.link (x.chain m.pushed.length) p value).node b).tryDelCount = (m.node b).tryDelCount := by
    intro b
    by_cases hb : b = x.chain m.pushed.length
    · rw [hb, hnodeLast]; rfl
    · rw [hnode b hb]
  have hdead : x.valueTaken (m.pushed.length + 1) = false := by
    by_contra htaken
    have := hgood.taken_le _ (by simpa using htaken)
    omega
  have hnotDone : x.valueDone (m.pushed.length + 1) = false := by
    by_contra hdone
    rw [hgood.taken_of_done _ (by simpa using hdone)] at hdead
    exact absurd hdead (by decide)
  have hnotPassed : x.passedDone (m.pushed.length + 1) = false := by
    by_contra hpassed
    have := hgood.passed_lt _ (by simpa using hpassed)
    omega
  exact {
    head_le_tail := hgood.head_le_tail
    tail_le := by
      simp only [length_pushed_link]
      exact hgood.tail_le.trans (Nat.le_succ _)
    head_value := hgood.head_value.trans (by rw [← link_chain_of_le x a hpopped]; rfl)
    tail_value := hgood.tail_value.trans (by rw [← link_chain_of_le x a hgood.tail_le]; rfl)
    top_value := hgood.top_value
    next_stamp := by
      intro b
      by_cases hb : b = x.chain m.pushed.length
      · subst hb
        simp only [hnodeLast, Aux.link, Function.update_self, Node.storeNext, AtomicStampedPtr.store, StampedPtr.pack]
        exact hstamp
      · simp only [hnode b hb, Aux.link, ne_eq, hb, not_false_eq_true, Function.update_of_ne]
        exact hgood.next_stamp b
    next_ptr := by
      intro i hi hlt
      simp only [length_pushed_link] at hlt
      rw [link_chain_of_le x a (by omega : i ≤ m.pushed.length)]
      by_cases hil : i = m.pushed.length
      · subst hil
        simp only [hnodeLast, hself, Node.storeNext, AtomicStampedPtr.store, StampedPtr.pack]
        exact hptr
      · have hlt' : i < m.pushed.length := by omega
        have hchain : x.chain i ≠ x.chain m.pushed.length := fun heq =>
          hil (hgood.chain_injective hlt'.le le_rfl (hgood.live_of_le hi) (hgood.live_of_le hpopped) heq)
        simp only [hnode _ hchain]
        rw [link_chain_of_le x a (by omega : i + 1 ≤ m.pushed.length)]
        exact hgood.next_ptr i hi hlt'
    next_last := by
      simp only [length_pushed_link, hself, hnode a hne]
      exact hnext
    place_chain := by
      intro i hi hlive
      simp only [length_pushed_link] at hi
      by_cases hil : i = m.pushed.length + 1
      · subst hil
        rw [hself]
        exact Function.update_self ..
      · have hchain := hgood.place_chain i (by omega) hlive
        rw [link_chain_of_le x a (by omega : i ≤ m.pushed.length), hplaceNe _ (ne_of_place hchain hplace (by simp))]
        exact hchain
    linked_pos := by
      intro b i hb
      simp only [length_pushed_link]
      by_cases hba : b = a
      · subst hba
        simp only [Aux.link, Function.update_self, Place.linked.injEq] at hb
        subst hb
        refine ⟨le_rfl, hself, fun hboth => ?_⟩
        have : x.valueDone (m.pushed.length + 1) = true := hboth.1
        rw [hnotDone] at this
        exact absurd this (by decide)
      · obtain ⟨hle, hchain, hlive⟩ := hgood.linked_pos b i ((hplaceNe b hba).symm.trans hb)
        exact ⟨by omega, (link_chain_of_le x a hle).trans hchain, hlive⟩
    passed_lt := hgood.passed_lt
    taken_le := hgood.taken_le
    taken_of_done := hgood.taken_of_done
    value := by
      intro i hi htaken
      simp only [length_pushed_link] at hi
      rw [hvalueEq]
      by_cases hil : i = m.pushed.length
      · subst hil
        rw [hself, Mem.link, List.getElem?_concat_length]
        exact hvalue
      · rw [link_chain_of_le x a (by omega : i + 1 ≤ m.pushed.length), Mem.link, List.getElem?_append_left (by omega)]
        exact hgood.value i (by omega) htaken
    tryDel_linked := by
      intro b i hb
      rw [htryEq]
      by_cases hba : b = a
      · subst hba
        simp only [Aux.link, Function.update_self, Place.linked.injEq] at hb
        subst hb
        have hneither : ¬ (x.valueDone (m.pushed.length + 1) = true ∨ x.passedDone (m.pushed.length + 1) = true) := by
          rw [hnotDone, hnotPassed]
          decide
        simp only [Aux.link, hneither, if_false]
        exact hgood.tryDel_held b t hplace
      · exact hgood.tryDel_linked b i ((hplaceNe b hba).symm.trans hb)
    tryDel_pool := by
      intro b hb
      rw [htryEq]
      by_cases hba : b = a
      · subst hba
        exact hgood.tryDel_held b t hplace
      · exact hgood.tryDel_pool b ((hplaceNe b hba).symm.trans hb)
    tryDel_held := by
      intro b t' hb
      rw [htryEq]
      by_cases hba : b = a
      · subst hba
        exact hgood.tryDel_held b t hplace
      · exact hgood.tryDel_held b t' ((hplaceNe b hba).symm.trans hb)
    pool_nodup := hgood.pool_nodup
    mem_pool := by
      intro b
      by_cases hba : b = a
      · subst hba
        have hnotMem : b ∉ x.pool := by rw [hgood.mem_pool, hplace]; simp
        simp only [Aux.link, Function.update_self, reduceCtorEq, iff_false]
        exact hnotMem
      · rw [hplaceNe b hba]
        exact hgood.mem_pool b
    pool_chained := by
      refine hgood.pool_chained.congr fun b hb => ?_
      simp only [hnode b (ne_of_place ((hgood.mem_pool b).mp hb) hlast (by simp))]
    free_of_not_allocated := by
      intro b hb
      have hfree := hgood.free_of_not_allocated b hb
      exact (hplaceNe b (ne_of_place hfree hplace (by simp))).trans hfree
    next_free := by
      intro b hb
      by_cases hba : b = a
      · subst hba
        simp only [Aux.link, Function.update_self, reduceCtorEq] at hb
      · have hfree := (hplaceNe b hba).symm.trans hb
        have hneLast : b ≠ x.chain m.pushed.length := ne_of_place hfree hlast (by simp)
        simp only [hnode b hneLast, Aux.link, ne_eq, hneLast, not_false_eq_true, Function.update_of_ne]
        exact hgood.next_free b hfree
    popped_value := by
      intro k val hk
      have hlt : k < m.popped.length := (List.getElem?_eq_some_iff.mp hk).1
      rw [Mem.link, List.getElem?_append_left (by omega)]
      exact hgood.popped_value k val hk }

theorem link_evolves (hgood : Good m x) {a : Addr} (ha : x.place a = .held t) (p : StampedPtr Addr) (value : T)
    (hu : u ≠ t) :
    Evolves u m x (m.link (x.chain m.pushed.length) p value) (x.link m.pushed.length a) := by
  have hpopped := hgood.popped_le
  have hlast := hgood.place_of_le hpopped le_rfl
  have hnode : ∀ b, b ≠ x.chain m.pushed.length → (m.link (x.chain m.pushed.length) p value).node b = m.node b :=
    fun b hb => Function.update_of_ne hb ..
  refine { Evolves.refl u m x with
    pushed := ⟨[value], rfl⟩, chain := ?_, tick := ?_, held := ?_, last := ?_, next := ?_, topNext := ?_ }
  · exact fun i hi => link_chain_of_le x a hi
  · intro b
    by_cases hb : b = x.chain m.pushed.length
    · subst hb
      simp only [Mem.link, Aux.link, Function.update_self, Node.storeNext, AtomicStampedPtr.store]
      omega
    · simp only [hnode b hb, Aux.link, ne_eq, hb, not_false_eq_true, Function.update_of_ne]
      omega
  · intro b hb
    have hba : b ≠ a := ne_of_place hb ha fun h => hu (Place.held.inj h)
    exact ⟨(Function.update_of_ne hba ..).trans hb, hnode b (ne_of_place hb hlast (by simp))⟩
  · intro b hb htick
    obtain ⟨-, rfl, -⟩ := hgood.linked_pos b _ hb
    simp only [Aux.link, Function.update_self] at htick
    omega
  · intro i hi hle
    simp only [Mem.link] at hi
    by_cases hil : i = m.pushed.length
    · subst hil
      refine ⟨fun htick => ?_, fun b hb => ?_⟩
      · simp only [Aux.link, Function.update_self] at htick
        omega
      · rw [hgood.next_last] at hb
        exact absurd hb (by simp)
    · have hchain : x.chain i ≠ x.chain m.pushed.length := fun heq =>
        hil (hgood.chain_injective hle le_rfl (hgood.live_of_le hi) (hgood.live_of_le hpopped) heq)
      simp only [hnode _ hchain]
      exact ⟨fun _ => trivial, fun _ h => h⟩
  · intro _ b hb
    simp only [hnode b (ne_of_place (hgood.place_top hb) hlast (by simp))]

/-- A compare-exchange on the `next` of a node that succeeds has seen its current stamp. -/
theorem SeenNext.tick_eq {a : Addr} {seen : Loaded Addr} {tick : Nat} (hseen : SeenNext m x a seen tick) (hgood : Good m x)
    (hfresh : (m.node a).next.Fresh seen) (hmatches : (m.node a).next.Matches seen) : x.tick a = tick := by
  have hstampLt : seen.value.stamp < stamps := by
    rw [hseen.stamp]
    exact Nat.mod_lt _ (Nat.two_pow_pos 16)
  refine eq_of_mod_stamps hseen.tick_le ?_ ?_
  · have hnear : (m.node a).next.updates - seen.time < stamps := hfresh
    have := hseen.ticks_le
    have := hseen.time_le
    omega
  · rw [← hgood.next_stamp a, hmatches, StampedPtr.pack, ← hseen.stamp]
    exact Nat.mod_eq_of_lt hstampLt

theorem pushLink_keeps (hgood : Good m x) (value : T) (a : Addr) (oldTail oldTailNext : Loaded Addr) (choice : Choice T)
    (hpc : Assertion t m x (.pushLink value a oldTail oldTailNext))
    (hfresh : Fresh m (.pushLink value a oldTail oldTailNext)) :
    Keeps t m x (step m choice (.pushLink value a oldTail oldTailNext)) := by
  obtain ⟨hready, hseen, b, hb, tick, hseenNext, hlast⟩ := hpc
  simp only [step, hb]
  split
  · rename_i hcas
    have htick := hseenNext.tick_eq hgood (hfresh b hb) hcas.1
    obtain ⟨-, rfl, -⟩ := hgood.linked_pos b _ (hlast htick)
    refine ⟨x.link m.pushed.length a, ?_, ?_, fun u hu => link_evolves hgood hready.1 _ value hu⟩
    · refine link_good hgood hready _ rfl ?_
      rw [hseenNext.stamp, mod_stamps_succ, htick]
    · refine ⟨hseen, x.chain m.pushed.length, hb, fun _ => ?_⟩
      simp only [Mem.link, Function.update_self, Node.storeNext, AtomicStampedPtr.store, StampedPtr.pack]
  · exact keeps_of_read hgood hready

/-! ### Moving `tail_` and `head_` -/

theorem tail_good (hgood : Good m x) {seen : Loaded Addr} {b : Addr} (hseen : Seen m.tail seen)
    (heq : m.tail.updates = seen.time) (hnext : NextOf m m.tail seen b) :
    Good { m with tail := m.tail.store ⟨some b, seen.value.stamp + 1⟩ } { x with tailPos := x.tailPos + 1 } := by
  obtain ⟨a, ha, hab⟩ := hnext
  have hchain := hseen.chain_eq heq hgood.tail_value ha
  obtain ⟨hlt, rfl⟩ := hgood.next_eq hgood.head_le_tail hgood.tail_le (hchain ▸ hab heq)
  refine { hgood with head_le_tail := ?_, tail_le := hlt, tail_value := ?_ }
  · exact hgood.head_le_tail.trans (Nat.le_succ _)
  · simp only [AtomicStampedPtr.store, StampedPtr.pack, hseen.succ_stamp heq]

theorem tail_evolves (p : StampedPtr Addr) :
    Evolves u m x { m with tail := m.tail.store p } { x with tailPos := x.tailPos + 1 } :=
  { Evolves.refl u m x with
    tail := .store _ _, tailPos_le := Nat.le_succ _, tailPos_eq := fun heq => absurd heq (Nat.succ_ne_self _) }

/-- A compare-exchange that moves `tail_` to the successor a thread has read, whether it succeeds or not. -/
theorem moveTail_keeps (hgood : Good m x) {seen : Loaded Addr} {b : Addr} (hseen : Seen m.tail seen)
    (hfresh : m.tail.Fresh seen) (hnext : NextOf m m.tail seen b) (spurious : Bool) {pc : Pc T}
    (hpc : ∀ p tailPos, Assertion t { m with tail := m.tail.store p } { x with tailPos := tailPos } pc)
    (hpc' : Assertion t m x pc) :
    Keeps t m x (if m.tail.Matches seen ∧ spurious = false then
      ({ m with tail := m.tail.store ⟨some b, seen.value.stamp + 1⟩ }, pc) else (m, pc)) := by
  split
  · rename_i hcas
    have heq := hseen.updates_eq_of_matches hgood.tail_stamp hfresh hcas.1
    exact ⟨_, tail_good hgood hseen heq hnext, hpc _ _, fun u _ => tail_evolves _⟩
  · exact keeps_of_read hgood hpc'

theorem popCasHead_keeps (hgood : Good m x) (headOld headNext : Loaded Addr) (choice : Choice T)
    (hpc : Assertion t m x (.popCasHead headOld headNext)) (hfresh : m.head.Fresh headOld) :
    Keeps t m x (step m choice (.popCasHead headOld headNext)) := by
  obtain ⟨hseen, ⟨b, hb, a, ha, hnext⟩, hbefore⟩ := hpc
  simp only [step]
  split
  · rename_i hcas
    have heq := hseen.updates_eq_of_matches hgood.head_stamp hfresh hcas.1
    have hlt := hbefore heq
    have hchain := hseen.chain_eq heq hgood.head_value ha
    subst hchain
    obtain ⟨-, rfl⟩ := hgood.next_eq le_rfl hgood.popped_le (hnext heq)
    have hnotTaken : x.valueTaken (m.popped.length + 1) = false := by
      by_contra htaken
      have := hgood.taken_le _ (by simpa using htaken)
      omega
    have hnotDone : x.valueDone (m.popped.length + 1) = false := by
      by_contra hdone
      rw [hgood.taken_of_done _ (by simpa using hdone)] at hnotTaken
      exact absurd hnotTaken (by decide)
    have hnotPassed : x.passedDone m.popped.length = false := by
      by_contra hpassed
      have := hgood.passed_lt _ (by simpa using hpassed)
      omega
    refine ⟨{ x with popper := Function.update x.popper m.popped.length (some t) }, ?_, ?_, fun u hu => ?_⟩
    · refine { hgood with
        head_le_tail := ?_, head_value := ?_, next_ptr := ?_, passed_lt := ?_, taken_le := ?_, popped_value := ?_ }
      · simp only [List.length_append, List.length_singleton]
        exact hlt
      · simp only [AtomicStampedPtr.store, StampedPtr.pack, hb, hseen.succ_stamp heq, List.length_append,
          List.length_singleton]
      · intro i hi
        simp only [List.length_append, List.length_singleton] at hi
        exact hgood.next_ptr i (by omega)
      · intro i hi
        simp only [List.length_append, List.length_singleton]
        exact (hgood.passed_lt i hi).trans (Nat.lt_succ_self _)
      · intro i hi
        simp only [List.length_append, List.length_singleton]
        exact (hgood.taken_le i hi).trans (Nat.le_succ _)
      · intro k val hk
        simp only at hk
        by_cases hkl : k < m.popped.length
        · rw [List.getElem?_append_left hkl] at hk
          exact hgood.popped_value k val hk
        · rw [List.getElem?_append_right (by omega), List.getElem?_singleton] at hk
          split at hk <;> simp at hk
    · refine ⟨⟨Function.update_self .., ?_, List.getElem?_concat_length .., hnotDone, hnotTaken, hb⟩, hnotPassed, ha⟩
      simp only [List.length_append, List.length_singleton]
      omega
    · refine { Evolves.refl u m x with
        head := .store _ _, popped_le := ?_, popped_eq := fun heq => absurd heq (Nat.succ_ne_self _),
        next := ?_, tickets := ?_ }
      · simp only [List.length_append, List.length_singleton]
        omega
      · exact fun i _ _ => ⟨fun _ => rfl, fun _ h => h⟩
      · intro k hk hpopper
        refine ⟨(Function.update_of_ne (by omega) ..).trans hpopper, ?_, rfl, rfl, rfl⟩
        exact List.getElem?_append_left hk
  · exact keeps_of_read hgood trivial

/-! ### The increments of `try_del_count` -/

theorem node_bump_next (a b : Addr) : ((m.setNode a (m.node a).bumpTryDel).node b).next = (m.node b).next := by
  by_cases hb : b = a
  · subst hb
    rw [setNode_self]
    rfl
  · rw [setNode_ne _ hb]

theorem node_bump_value (a b : Addr) : ((m.setNode a (m.node a).bumpTryDel).node b).value = (m.node b).value := by
  by_cases hb : b = a
  · subst hb
    rw [setNode_self]
    rfl
  · rw [setNode_ne _ hb]

/-- The first of the two increments leaves the node where it is. -/
theorem firstDrop_good (hgood : Good m x) {i : Nat} (hi : i ≤ m.pushed.length) (done passed : Nat → Bool)
    (hbefore : ¬ (x.valueDone i = true ∨ x.passedDone i = true))
    (hafter : done i = true ∨ passed i = true) (hlive : ¬ (done i = true ∧ passed i = true))
    (hdone : ∀ j, j ≠ i → done j = x.valueDone j) (hpassed : ∀ j, j ≠ i → passed j = x.passedDone j)
    (hlt : ∀ j, passed j = true → j < m.popped.length) (htaken : ∀ j, done j = true → x.valueTaken j = true) :
    Good (m.setNode (x.chain i) (m.node (x.chain i)).bumpTryDel)
      { x with valueDone := done, passedDone := passed } := by
  have hplace := hgood.place_chain i hi (fun hboth => hbefore (.inl hboth.1))
  have hsame : ∀ j, ¬ (done j = true ∧ passed j = true) → x.Live j := by
    intro j hj
    by_cases hji : j = i
    · subst hji
      exact fun hboth => hbefore (.inl hboth.1)
    · rwa [hdone j hji, hpassed j hji] at hj
  refine { hgood with
    next_stamp := ?_, next_ptr := ?_, next_last := ?_, place_chain := ?_, linked_pos := ?_, passed_lt := hlt,
    taken_of_done := htaken, value := ?_, tryDel_linked := ?_, tryDel_pool := ?_, tryDel_held := ?_,
    pool_chained := ?_, next_free := ?_ }
  · exact fun b => by rw [node_bump_next]; exact hgood.next_stamp b
  · exact fun j hj hjl => by rw [node_bump_next]; exact hgood.next_ptr j hj hjl
  · exact (congrArg (fun c => c.value.rawPtr) (node_bump_next _ _)).trans hgood.next_last
  · exact fun j hj hjlive => hgood.place_chain j hj (hsame j hjlive)
  · intro b j hb
    obtain ⟨hle, hchain, hjlive⟩ := hgood.linked_pos b j hb
    refine ⟨hle, hchain, ?_⟩
    by_cases hji : j = i
    · subst hji
      exact hlive
    · simpa only [Aux.Live, hdone j hji, hpassed j hji] using hjlive
  · exact fun j hj hjt => by rw [node_bump_value]; exact hgood.value j hj hjt
  · intro b j hb
    obtain ⟨hle, hchain, hjlive⟩ := hgood.linked_pos b j hb
    have htry := hgood.tryDel_linked b j hb
    by_cases hji : j = i
    · subst hji hchain
      rw [if_neg hbefore] at htry
      simp only [setNode_self, Node.bumpTryDel, hafter, if_true]
      omega
    · have hne : b ≠ x.chain i := fun heq => hji (by
        rw [heq, hplace] at hb
        exact (Place.linked.inj hb).symm)
      simp only [setNode_ne _ hne, hdone j hji, hpassed j hji]
      exact htry
  · intro b hb
    rw [setNode_ne _ (ne_of_place hb hplace (by simp))]
    exact hgood.tryDel_pool b hb
  · intro b t' hb
    rw [setNode_ne _ (ne_of_place hb hplace (by simp))]
    exact hgood.tryDel_held b t' hb
  · exact hgood.pool_chained.congr fun b _ => by rw [node_bump_next]
  · exact fun b hb => by rw [node_bump_next]; exact hgood.next_free b hb

/-- The second of the two increments puts the node into the hands of the thread that made it. -/
theorem lastDrop_good (hgood : Good m x) {i : Nat} (hi : i ≤ m.pushed.length) (done passed : Nat → Bool)
    (hlive : x.Live i) (hbefore : x.valueDone i = true ∨ x.passedDone i = true)
    (hafter : done i = true ∧ passed i = true)
    (hdone : ∀ j, j ≠ i → done j = x.valueDone j) (hpassed : ∀ j, j ≠ i → passed j = x.passedDone j)
    (hlt : ∀ j, passed j = true → j < m.popped.length) (htaken : ∀ j, done j = true → x.valueTaken j = true) :
    Good (m.setNode (x.chain i) (m.node (x.chain i)).bumpTryDel)
      { x with
        valueDone := done, passedDone := passed, place := Function.update x.place (x.chain i) (.held t) } := by
  have hplace := hgood.place_chain i hi hlive
  have hne : ∀ j, ¬ (done j = true ∧ passed j = true) → j ≠ i := by
    rintro j hj rfl
    exact hj hafter
  have hother : ∀ b p, p ≠ .held t → Function.update x.place (x.chain i) (.held t) b = p →
      b ≠ x.chain i ∧ x.place b = p := by
    intro b p hp hb
    have hbi : b ≠ x.chain i := by
      rintro rfl
      rw [Function.update_self] at hb
      exact hp hb.symm
    exact ⟨hbi, (Function.update_of_ne hbi ..).symm.trans hb⟩
  refine { hgood with
    next_stamp := ?_, next_ptr := ?_, next_last := ?_, place_chain := ?_, linked_pos := ?_, passed_lt := hlt,
    taken_of_done := htaken, value := ?_, tryDel_linked := ?_, tryDel_pool := ?_, tryDel_held := ?_,
    mem_pool := ?_, pool_chained := ?_, free_of_not_allocated := ?_, next_free := ?_ }
  · exact fun b => by rw [node_bump_next]; exact hgood.next_stamp b
  · exact fun j hj hjl => by rw [node_bump_next]; exact hgood.next_ptr j hj hjl
  · exact (congrArg (fun c => c.value.rawPtr) (node_bump_next _ _)).trans hgood.next_last
  · intro j hj hjlive
    have hji := hne j hjlive
    simp only [Aux.Live, hdone j hji, hpassed j hji] at hjlive
    have hchain := hgood.place_chain j hj hjlive
    exact (Function.update_of_ne (ne_of_place hchain hplace (by simp [hji])) ..).trans hchain
  · intro b j hb
    obtain ⟨hbi, hb'⟩ := hother b _ (by simp) hb
    obtain ⟨hle, hchain, hjlive⟩ := hgood.linked_pos b j hb'
    have hji : j ≠ i := by
      rintro rfl
      exact hbi hchain.symm
    exact ⟨hle, hchain, by simpa only [Aux.Live, hdone j hji, hpassed j hji] using hjlive⟩
  · exact fun j hj hjt => by rw [node_bump_value]; exact hgood.value j hj hjt
  · intro b j hb
    obtain ⟨hbi, hb'⟩ := hother b _ (by simp) hb
    have hji : j ≠ i := by
      rintro rfl
      exact hbi (hgood.linked_pos b j hb').2.1.symm
    simp only [setNode_ne _ hbi, hdone j hji, hpassed j hji]
    exact hgood.tryDel_linked b j hb'
  · intro b hb
    obtain ⟨hbi, hb'⟩ := hother b _ (by simp) hb
    rw [setNode_ne _ hbi]
    exact hgood.tryDel_pool b hb'
  · intro b t' hb
    by_cases hbi : b = x.chain i
    · have htry := hgood.tryDel_linked _ i hplace
      rw [if_pos hbefore] at htry
      rw [hbi, setNode_self]
      simp only [Node.bumpTryDel]
      omega
    · rw [setNode_ne _ hbi]
      exact hgood.tryDel_held b t' ((Function.update_of_ne hbi ..).symm.trans hb)
  · intro b
    by_cases hbi : b = x.chain i
    · subst hbi
      simp only [hgood.mem_pool, hplace, Function.update_self, reduceCtorEq]
    · simp only [ne_eq, hbi, not_false_eq_true, Function.update_of_ne]
      exact hgood.mem_pool b
  · exact hgood.pool_chained.congr fun b _ => by rw [node_bump_next]
  · intro b hb
    have hfree := hgood.free_of_not_allocated b hb
    exact (Function.update_of_ne (ne_of_place hfree hplace (by simp)) ..).trans hfree
  · intro b hb
    rw [node_bump_next]
    exact hgood.next_free b (hother b _ (by simp) hb).2

theorem drop_evolves (hgood : Good m x) {i : Nat} (hi : i ≤ m.pushed.length) (hlive : x.Live i)
    (done passed : Nat → Bool) (place : Addr → Place Tid)
    (hplace : ∀ b, b ≠ x.chain i → place b = x.place b) (hlast : i < m.pushed.length ∨ place = x.place)
    (htickets : ∀ k, k < m.popped.length → x.popper k = some u →
      passed k = x.passedDone k ∧ done (k + 1) = x.valueDone (k + 1)) :
    Evolves u m x (m.setNode (x.chain i) (m.node (x.chain i)).bumpTryDel)
      { x with valueDone := done, passedDone := passed, place := place } := by
  have hlinked := hgood.place_chain i hi hlive
  refine { Evolves.refl u m x with
    tick := ?_, held := ?_, last := ?_, next := ?_, topNext := ?_, tickets := ?_ }
  · intro b
    rw [node_bump_next]
    exact ⟨le_rfl, le_rfl, le_rfl⟩
  · intro b hb
    have hne : b ≠ x.chain i := ne_of_place hb hlinked (by simp)
    exact ⟨(hplace b hne).trans hb, setNode_ne _ hne⟩
  · intro b hb _
    rcases hlast with hlt | rfl
    · have hne : b ≠ x.chain i := ne_of_place hb hlinked (by
        simp only [ne_eq, Place.linked.injEq]
        omega)
      exact (hplace b hne).trans hb
    · exact hb
  · intro j _ _
    rw [node_bump_next]
    exact ⟨fun _ => rfl, fun _ h => h⟩
  · intro _ b _
    rw [node_bump_next]
  · intro k hk hpopper
    obtain ⟨hpassed, hdone⟩ := htickets k hk hpopper
    exact ⟨hpopper, rfl, hpassed, hdone, rfl⟩

/-! ### Taking the value and returning it -/

theorem popTakeValue_keeps (hgood : Good m x) (headNext : Loaded Addr) (k : Nat) (choice : Choice T)
    (hticket : Ticket m x t headNext k) : Keeps t m x (step m choice (.popTakeValue headNext k)) := by
  have hlt := hticket.lt
  have hpopped := hgood.popped_le
  have hlive : x.Live (k + 1) := hgood.live_of_not_taken hticket.not_taken
  have hplace := hgood.place_chain (k + 1) (by omega) hlive
  have hnext : ∀ b, ((m.setNode (x.chain (k + 1)) ((m.node (x.chain (k + 1))).setValue choice.moved)).node b).next =
      (m.node b).next := by
    intro b
    by_cases hb : b = x.chain (k + 1)
    · rw [hb, setNode_self]; rfl
    · rw [setNode_ne _ hb]
  have htry : ∀ b, ((m.setNode (x.chain (k + 1))
      ((m.node (x.chain (k + 1))).setValue choice.moved)).node b).tryDelCount = (m.node b).tryDelCount := by
    intro b
    by_cases hb : b = x.chain (k + 1)
    · rw [hb, setNode_self]; rfl
    · rw [setNode_ne _ hb]
  simp only [step, hticket.ptr]
  refine ⟨{ x with valueTaken := Function.update x.valueTaken (k + 1) true }, ?_, ?_, fun u hu => ?_⟩
  · refine { hgood with
      next_stamp := ?_, next_ptr := ?_, next_last := ?_, taken_le := ?_, taken_of_done := ?_, value := ?_,
      tryDel_linked := ?_, tryDel_pool := ?_, tryDel_held := ?_, pool_chained := ?_, next_free := ?_ }
    · exact fun b => by rw [hnext]; exact hgood.next_stamp b
    · exact fun j hj hjl => by rw [hnext]; exact hgood.next_ptr j hj hjl
    · exact (congrArg (fun c => c.value.rawPtr) (hnext _)).trans hgood.next_last
    · intro j hj
      by_cases hjk : j = k + 1
      · subst hjk
        exact hlt
      · exact hgood.taken_le j ((Function.update_of_ne hjk ..).symm.trans hj)
    · intro j hj
      by_cases hjk : j = k + 1
      · subst hjk
        exact Function.update_self ..
      · exact (Function.update_of_ne hjk ..).trans (hgood.taken_of_done j hj)
    · intro j hj hjt
      have hjk : j + 1 ≠ k + 1 := by
        intro heq
        simp only [heq, Function.update_self, Bool.true_eq_false] at hjt
      have hjt' : x.valueTaken (j + 1) = false := (Function.update_of_ne hjk ..).symm.trans hjt
      have hne : x.chain (j + 1) ≠ x.chain (k + 1) := fun heq =>
        hjk (hgood.chain_injective hj (by omega) (hgood.live_of_not_taken hjt') hlive heq)
      rw [setNode_ne _ hne]
      exact hgood.value j hj hjt'
    · exact fun b i hb => by rw [htry]; exact hgood.tryDel_linked b i hb
    · exact fun b hb => by rw [htry]; exact hgood.tryDel_pool b hb
    · exact fun b t' hb => by rw [htry]; exact hgood.tryDel_held b t' hb
    · exact hgood.pool_chained.congr fun b _ => by rw [hnext]
    · exact fun b hb => by rw [hnext]; exact hgood.next_free b hb
  · refine ⟨⟨hticket.popper, hlt, hticket.pending, ?_⟩, Function.update_self .., hticket.not_done, hticket.ptr⟩
    exact hgood.value k (by omega) hticket.not_taken
  · refine { Evolves.refl u m x with tick := ?_, held := ?_, last := ?_, next := ?_, topNext := ?_, tickets := ?_ }
    · intro b
      rw [hnext]
      exact ⟨le_rfl, le_rfl, le_rfl⟩
    · intro b hb
      exact ⟨hb, setNode_ne _ (ne_of_place hb hplace (by simp))⟩
    · exact fun b hb _ => hb
    · intro j _ _
      rw [hnext]
      exact ⟨fun _ => rfl, fun _ h => h⟩
    · intro _ b _
      rw [hnext]
    · intro j hj hpopper
      have hjk : j + 1 ≠ k + 1 := by
        intro heq
        have : j = k := by omega
        subst this
        exact hu (Option.some.inj (hpopper.symm.trans hticket.popper))
      exact ⟨hpopper, rfl, rfl, rfl, Function.update_of_ne hjk ..⟩

theorem record_good (hgood : Good m x) {val : Option T} {k : Nat} (hclaimed : Claimed m x t val k) :
    Good (m.record val k) x := by
  have hlength : (m.record val k).popped.length = m.popped.length := List.length_set ..
  refine { hgood with
    head_le_tail := ?_, head_value := ?_, next_ptr := ?_, passed_lt := ?_, taken_le := ?_, popped_value := ?_ }
  · rw [hlength]; exact hgood.head_le_tail
  · rw [hlength]; exact hgood.head_value
  · rw [hlength]; exact hgood.next_ptr
  · rw [hlength]; exact hgood.passed_lt
  · rw [hlength]; exact hgood.taken_le
  · intro j val' hj
    simp only [Mem.record] at hj
    by_cases hjk : k = j
    · subst hjk
      rw [List.getElem?_set_self hclaimed.lt] at hj
      rw [← Option.some.inj (Option.some.inj hj)]
      exact hclaimed.val
    · rw [List.getElem?_set_ne hjk] at hj
      exact hgood.popped_value j val' hj

theorem record_evolves {val : Option T} {k : Nat} (hclaimed : Claimed m x t val k) (hu : u ≠ t) :
    Evolves u m x (m.record val k) x := by
  have hlength : (m.record val k).popped.length = m.popped.length := List.length_set ..
  refine { Evolves.refl u m x with popped_le := hlength.ge, popped_eq := fun _ => hlength, next := ?_, tickets := ?_ }
  · exact fun _ _ _ => ⟨fun _ => rfl, fun _ h => h⟩
  · intro j _ hpopper
    have hjk : k ≠ j := by
      rintro rfl
      exact hu (Option.some.inj (hpopper.symm.trans hclaimed.popper))
    exact ⟨hpopper, List.getElem?_set_ne hjk, rfl, rfl, rfl⟩

/-- Going on after `ToPool`, from a state the thread has reached by an action the others may rely on. -/
theorem resume_keeps (hgood : Good m' x') {after : After T} (hafter : AfterOk m' x' t after)
    (hevolves : ∀ u, u ≠ t → Evolves u m x m' x') : Keeps t m x (resume m' after) := by
  cases after with
  | takeValue headNext k => exact ⟨x', hgood, hafter, hevolves⟩
  | ret val k =>
    exact ⟨x', record_good hgood hafter, trivial, fun u hu => (hevolves u hu).trans (record_evolves hafter hu)⟩

end CppConcur.LockFree.Queue
