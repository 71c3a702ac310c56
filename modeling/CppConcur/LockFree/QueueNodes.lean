import CppConcur.LockFree.QueueRecycling

/-!
# The nodes of the lock-free queue

The runs of the queue with the uses of each node on record. In every state of such a run each node is in one
place, its uses so far come in the order of a life, and a pusher that writes the value of a node it has
taken from the pool is the only one that has anything to do with it. If no operation is in progress, the
destructors delete all nodes, and each of them once.
-/

namespace CppConcur.LockFree.Queue

variable {T Tid : Type*}

/-! ### Runs with the uses on record -/

/-- The record after an action. -/
def recordUse (log : Addr → List Use) : Option (Addr × Use) → Addr → List Use
  | none => log
  | some (a, how) => Function.update log a (log a ++ [how])

/-- The system with the uses of each node so far. -/
def recordedSystem (T Tid : Type*) [DecidableEq Tid] : Logic.System (Logic.Conf Tid (Mem T) (Pc T) × (Addr → List Use)) where
  init s := (∃ dummy, s.1.mem = Mem.new dummy ∧ s.2 = fun a => if a = dummy then [.construct] else []) ∧ ∀ t, s.1.pc t = .idle
  step s s' := ∃ t mem' pc', Act s.1.mem (s.1.pc t) mem' pc' ∧ s'.1 = ⟨mem', Function.update s.1.pc t pc'⟩ ∧
    s'.2 = recordUse s.2 (use (s.1.pc t) pc')

section Recorded

variable [DecidableEq Tid] {s : Logic.Conf Tid (Mem T) (Pc T) × (Addr → List Use)}

theorem reachable_of_recorded (h : (recordedSystem T Tid).Reachable s) : (system T Tid).Reachable s.1 := by
  induction h with
  | init hinit =>
    obtain ⟨⟨dummy, hmem, _⟩, hpc⟩ := hinit
    exact .init ⟨⟨dummy, hmem⟩, hpc⟩
  | step _ hstep ih =>
    obtain ⟨t, mem', pc', hact, hconf, _⟩ := hstep
    exact ih.step ⟨t, mem', pc', hact, hconf⟩

/-- The record does not restrict the runs. -/
theorem recorded_of_reachable {c : Logic.Conf Tid (Mem T) (Pc T)} (h : (system T Tid).Reachable c) :
    ∃ log, (recordedSystem T Tid).Reachable (c, log) := by
  induction h with
  | init hinit =>
    obtain ⟨⟨dummy, hmem⟩, hpc⟩ := hinit
    exact ⟨_, .init ⟨⟨dummy, hmem, rfl⟩, hpc⟩⟩
  | step _ hstep ih =>
    obtain ⟨log, hlog⟩ := ih
    obtain ⟨t, mem', pc', hact, hconf⟩ := hstep
    exact ⟨_, hlog.step ⟨t, mem', pc', hact, hconf, rfl⟩⟩

theorem recorded_act {c : Logic.Conf Tid (Mem T) (Pc T)} {log : Addr → List Use}
    (h : (recordedSystem T Tid).Reachable (c, log))
    (t : Tid) {m' : Mem T} {pc' : Pc T} (hact : Act c.mem (c.pc t) m' pc') :
    (recordedSystem T Tid).Reachable (⟨m', Function.update c.pc t pc'⟩, recordUse log (use (c.pc t) pc')) :=
  h.step ⟨t, m', pc', hact, rfl, rfl⟩

omit [DecidableEq Tid] in
theorem Pc.Outside.role {pc : Pc T} (h : pc.Outside) : pc.role = {} := by
  cases pc <;> first | rfl | exact h.elim

omit [DecidableEq Tid] in
theorem Pc.Outside.use {pc pc' : Pc T} (h : pc.Outside) : use pc pc' = none := by
  cases pc <;> first | rfl | exact h.elim

omit [DecidableEq Tid] in
theorem Act.effect {t : Tid} {m m' : Mem T} {x : Aux Tid} {pc pc' : Pc T} (h : Act m pc m' pc') (hgood : Good m x)
    (hpc : Assertion t m x pc) : Effect m pc.role m' pc'.role (use pc pc') := by
  cases h with
  | push hout value =>
    rw [hout.role, hout.use]
    exact .of_unmoved (.refl m)
  | tryPop hout =>
    rw [hout.role, hout.use]
    exact .of_unmoved (.refl m)
  | step choice hfresh halloc => exact step_effect hgood choice hpc hfresh halloc

omit [DecidableEq Tid] in
theorem Advances.life {l l' : Addr → Life} {u : Option (Addr × Use)} (h : Advances l u l') {log : Addr → List Use}
    (hlog : ∀ a, life (log a) = some (l a)) (a : Addr) : life (recordUse log u a) = some (l' a) := by
  match u with
  | none =>
    cases h
    exact hlog a
  | some (b, how) =>
    obtain ⟨next, hnext, rfl⟩ := h
    simp only [recordUse]
    by_cases hab : a = b
    · subst hab
      rw [Function.update_self, Function.update_self, life_append, hlog, Option.bind_some, hnext]
    · rw [Function.update_of_ne hab, Function.update_of_ne hab, hlog]

/-- Every node is at the stage its record says, and the counters are right. -/
theorem stages_of_recorded (h : (recordedSystem T Tid).Reachable s) :
    ∃ l, (∀ a, life (s.2 a) = some (l a)) ∧ (∀ a, Stage s.1.mem (fun t => (s.1.pc t).role) a (l a)) ∧
      Owed s.1.mem (fun t => (s.1.pc t).role) l := by
  induction h with
  | @init s hinit =>
    obtain ⟨⟨dummy, hmem, hlog⟩, hpc⟩ := hinit
    have hrole : (fun t => (s.1.pc t).role) = fun _ => {} := by
      funext t
      rw [hpc]
      rfl
    rw [hmem, hlog, hrole]
    refine ⟨fun a => if a = dummy then .linked false true else .resting, fun a => ?_, fun a => ?_, ?_⟩
    · by_cases ha : a = dummy
      · simp only [ha, if_true]
        rfl
      · simp only [ha, if_false]
        rfl
    · by_cases ha : a = dummy
      · subst ha
        simp only [if_true]
        refine ⟨⟨0, rfl⟩, iff_of_false nofun ?_⟩
        rintro (⟨n, hn⟩ | ⟨t, ht⟩)
        · have hnone : ∀ n, (Mem.new a : Mem T).follow n none = none := by
            intro n
            induction n with
            | zero => rfl
            | succ n ih => exact ih
          rw [show (Mem.new a : Mem T).follow (n + 1) (Mem.new a : Mem T).head.value.rawPtr = none from hnone n] at hn
          cases hn
        · cases ht
      · simp only [ha, if_false]
        exact .inl (decide_eq_false ha)
    · constructor
      · intro a _ heven
        cases heven
      · nofun
      · intro t a taken hvalue
        rcases hvalue with hvalue | hvalue <;> cases hvalue
  | @step s s' hreach hstep ih =>
    obtain ⟨t, mem', pc', hact, hconf, hlog⟩ := hstep
    obtain ⟨l, hlife, hstage, howed⟩ := ih
    obtain ⟨x, hgood, hpc⟩ := good_of_reachable (reachable_of_recorded hreach)
    obtain ⟨l', hadvances, hstage', howed'⟩ := (hact.effect hgood (hpc t)).advances (t := t) hgood (hgood.placed hpc) hstage howed
    have hrole : (fun u => (Function.update s.1.pc t pc' u).role) = Function.update (fun u => (s.1.pc u).role) t pc'.role := by
      funext u
      by_cases hu : u = t
      · subst hu
        rw [Function.update_self, Function.update_self]
      · rw [Function.update_of_ne hu, Function.update_of_ne hu]
    rw [hconf, hlog]
    refine ⟨l', hadvances.life hlife, ?_, ?_⟩
    · rw [hrole]
      exact hstage'
    · rw [hrole]
      exact howed'

end Recorded

/-! ### Where a node is -/

/-- The places of a node: in the list from `head_`, in the list of the pool, in the hands of one thread, or out of the list
with an increment of its counter still to come. -/
inductive Spot (Tid : Type*) where
  | queue
  | pool
  | held (t : Tid)
  | detached

def At (c : Logic.Conf Tid (Mem T) (Pc T)) (a : Addr) : Spot Tid → Prop
  | .queue => c.mem.InQueue a
  | .pool => c.mem.InPool a
  | .held t => (c.pc t).role.Holds a
  | .detached => ¬ c.mem.InQueue a ∧ ∃ t, (c.pc t).role.Owes a

section Spots

variable {c : Logic.Conf Tid (Mem T) (Pc T)} {x : Aux Tid} {a : Addr}

/-- A node is in one place at most. -/
theorem At.unique (hgood : Good c.mem x) (hplaced : Placed c.mem x fun t => (c.pc t).role) {p q : Spot Tid} (hp : At c a p)
    (hq : At c a q) : p = q := by
  have hplace : ∀ {p : Spot Tid}, At c a p →
      (p = .queue ∧ c.mem.InQueue a ∧ ∃ i, x.place a = .linked i) ∨ (p = .pool ∧ x.place a = .pool) ∨
        (∃ t, p = .held t ∧ x.place a = .held t) ∨ (p = .detached ∧ ¬ c.mem.InQueue a ∧ ∃ i, x.place a = .linked i) := by
    intro p hp
    cases p with
    | queue =>
      obtain ⟨i, _, _, _, hplace⟩ := hgood.inQueue hp
      exact .inl ⟨rfl, hp, i, hplace⟩
    | pool => exact .inr (.inl ⟨rfl, hgood.inPool.1 hp⟩)
    | held t => exact .inr (.inr (.inl ⟨t, rfl, hplaced.holds t a hp⟩))
    | detached =>
      obtain ⟨hqueue, t, howes⟩ := hp
      exact .inr (.inr (.inr ⟨rfl, hqueue, hplaced.owes howes⟩))
  rcases hplace hp with ⟨rfl, hin, i, hi⟩ | ⟨rfl, hi⟩ | ⟨t, rfl, hi⟩ | ⟨rfl, hout, i, hi⟩ <;>
    rcases hplace hq with ⟨rfl, hin', j, hj⟩ | ⟨rfl, hj⟩ | ⟨u, rfl, hj⟩ | ⟨rfl, hout', j, hj⟩ <;> rw [hi] at hj <;> cases hj
  all_goals first | rfl | exact absurd hin hout' | exact absurd hin' hout

/-- A node is in one place at least. -/
theorem Stage.at {l : Life} (h : Stage c.mem (fun t => (c.pc t).role) a l) (hallocated : c.mem.allocated a = true) :
    ∃ p, At c a p := by
  match l with
  | .resting =>
    rcases h with hfree | hpool | ⟨t, ht⟩
    · rw [hallocated] at hfree
      cases hfree
    · exact ⟨.pool, hpool⟩
    · exact ⟨.held t, .inl ht⟩
  | .filled =>
    obtain ⟨t, ht⟩ := h
    exact ⟨.held t, .inr (.inl ht)⟩
  | .linked false taken => exact ⟨.queue, h.1⟩
  | .linked true taken =>
    obtain ⟨hqueue, ⟨t, howes | hreturns⟩, _⟩ := h
    · exact ⟨.detached, hqueue, t, howes⟩
    · exact ⟨.held t, .inr (.inr hreturns)⟩

end Spots

/-! ### The destructors -/

/-- The loop of `~LockFreeQueue` and `~LockFreePool`: load the successor of a node, delete the node and go on. It goes wrong
if a node is used that is not allocated. -/
def deleteList (m : Mem T) : Nat → Option Addr → (Addr → Bool) → Option (Addr → Bool)
  | _, none, allocated => some allocated
  | 0, some _, _ => none
  | fuel + 1, some a, allocated =>
      if allocated a then deleteList m fuel (m.node a).next.value.rawPtr (Function.update allocated a false) else none

/-- The destructor of the queue and then the one of its pool; the result are the nodes that are still allocated. -/
def destroy (fuel : Nat) (m : Mem T) : Option (Addr → Bool) :=
  (deleteList m fuel m.head.value.rawPtr m.allocated).bind (deleteList m fuel m.top.value.rawPtr)

section Destroy

variable {m : Mem T} {x : Aux Tid}

theorem deleteList_chained {l : List Addr} (fuel : Nat) {allocated : Addr → Bool} (hchained : Chained m.node l)
    (hnodup : l.Nodup)
    (hallocated : ∀ a ∈ l, allocated a = true) (hfuel : l.length ≤ fuel) :
    ∃ rest, deleteList m fuel l.head? allocated = some rest ∧ ∀ a, rest a = true ↔ allocated a = true ∧ a ∉ l := by
  induction l generalizing fuel allocated with
  | nil =>
    refine ⟨allocated, ?_, fun a => ?_⟩
    · cases fuel <;> rfl
    · exact ⟨fun ha => ⟨ha, nofun⟩, And.left⟩
  | cons b l ih =>
    obtain ⟨fuel, rfl⟩ : ∃ n, fuel = n + 1 := ⟨fuel - 1, by simp only [List.length_cons] at hfuel; omega⟩
    obtain ⟨hnext, hchained⟩ := hchained
    rw [List.nodup_cons] at hnodup
    have hrest : ∀ a ∈ l, Function.update allocated b false a = true := by
      intro a ha
      have hab : a ≠ b := by
        rintro rfl
        exact hnodup.1 ha
      rw [Function.update_of_ne hab]
      exact hallocated a (List.mem_cons_of_mem _ ha)
    obtain ⟨rest, hdelete, hmem⟩ := ih fuel hchained hnodup.2 hrest (Nat.le_of_succ_le_succ hfuel)
    refine ⟨rest, ?_, fun a => ?_⟩
    · simp only [List.head?_cons, deleteList, hallocated b List.mem_cons_self, if_true, hnext]
      exact hdelete
    · rw [hmem, List.mem_cons]
      by_cases hab : a = b
      · subst hab
        simp only [Function.update_self, Bool.false_eq_true, false_and, true_or, not_true_eq_false, and_false]
      · simp only [ne_eq, hab, not_false_eq_true, Function.update_of_ne, false_or]

/-- The nodes of the queue from a position on. -/
theorem Good.chained_queue (hgood : Good m x) (n i : Nat) (hi : m.popped.length ≤ i) (hlast : i + n = m.pushed.length) :
    Chained m.node ((List.range' i (n + 1)).map x.chain) := by
  induction n generalizing i with
  | zero =>
    rw [show i = m.pushed.length from hlast]
    exact ⟨hgood.next_last, trivial⟩
  | succ n ih =>
    rw [List.range'_succ, List.map_cons]
    refine ⟨?_, ih (i + 1) (by omega) (by omega)⟩
    rw [hgood.next_ptr i hi (by omega), List.range'_succ]
    rfl

theorem Good.allocated_of_place (hgood : Good m x) {a : Addr} (h : x.place a ≠ .free) : m.allocated a = true := by
  cases hallocated : m.allocated a with
  | true => rfl
  | false => exact absurd (hgood.free_of_not_allocated a hallocated) h

/-- If every node is in one of the two lists, the destructors delete them all. -/
theorem Good.destroy (hgood : Good m x) (hall : ∀ a, m.allocated a = true → m.InQueue a ∨ m.InPool a) :
    ∃ fuel rest, destroy fuel m = some rest ∧ ∀ a, rest a = false := by
  have hle := hgood.popped_le
  let queue := (List.range' m.popped.length (m.pushed.length - m.popped.length + 1)).map x.chain
  have hhead : queue.head? = m.head.value.rawPtr := by
    rw [hgood.head_value]
    simp only [queue, List.range'_succ, List.map_cons, List.head?_cons]
  have hmem : ∀ a, a ∈ queue → ∃ i, m.popped.length ≤ i ∧ i ≤ m.pushed.length ∧ x.chain i = a := by
    intro a ha
    obtain ⟨i, hi, rfl⟩ := List.mem_map.1 ha
    rw [List.mem_range'_1] at hi
    exact ⟨i, hi.1, by omega, rfl⟩
  have hnodup : queue.Nodup := by
    refine List.Nodup.map_on ?_ List.nodup_range'
    intro i hi j hj heq
    rw [List.mem_range'_1] at hi hj
    exact hgood.chain_injective (by omega) (by omega) (hgood.live_of_le hi.1) (hgood.live_of_le hj.1) heq
  have hplace : ∀ a ∈ queue, ∃ i, x.place a = .linked i := by
    intro a ha
    obtain ⟨i, hi, hlast, rfl⟩ := hmem a ha
    exact ⟨i, hgood.place_of_le hi hlast⟩
  have hqueue : ∀ a ∈ queue, m.allocated a = true := by
    intro a ha
    obtain ⟨i, hi⟩ := hplace a ha
    exact hgood.allocated_of_place (by rw [hi]; nofun)
  obtain ⟨rest, hdelete, hrest⟩ := deleteList_chained (max queue.length x.pool.length)
    (hgood.chained_queue _ _ (Nat.le_refl _) (by omega)) hnodup hqueue (Nat.le_max_left ..)
  have hpool : ∀ a ∈ x.pool, rest a = true := by
    intro a ha
    have hpool := (hgood.mem_pool a).1 ha
    refine (hrest a).2 ⟨hgood.allocated_of_place (by rw [hpool]; nofun), fun hmem => ?_⟩
    obtain ⟨i, hi⟩ := hplace a hmem
    rw [hpool] at hi
    cases hi
  obtain ⟨last, hdelete', hlast⟩ := deleteList_chained (max queue.length x.pool.length) hgood.pool_chained hgood.pool_nodup
    hpool (Nat.le_max_right ..)
  refine ⟨max queue.length x.pool.length, last, ?_, fun a => ?_⟩
  · rw [Queue.destroy, ← hhead, hdelete, Option.bind_some, hgood.top_value, hdelete']
  · by_contra hne
    obtain ⟨ha, hpool⟩ := (hlast a).1 (Bool.eq_true_of_not_eq_false hne)
    obtain ⟨ha, hnot⟩ := (hrest a).1 ha
    rcases hall a ha with hin | hin
    · obtain ⟨i, hi, hi', rfl, _⟩ := hgood.inQueue hin
      exact hnot (List.mem_map.2 ⟨i, List.mem_range'_1.2 ⟨hi, by omega⟩, rfl⟩)
    · exact hpool ((hgood.mem_pool a).2 (hgood.inPool.1 hin))

end Destroy

/-! ### The life of the nodes -/

/-- In every state of a run: an allocated node is in exactly one place; every node has been used in the order of a life, so
it enters the pool once for each time it is linked, and only after `head_` has been moved past it and its value has been
moved out; a node whose value a pusher is about to write is in the hands of that pusher and nowhere else; and if no operation
is in progress, the destructors of the queue and of its pool delete every allocated node, and none twice. -/
theorem node_recycling [DecidableEq Tid] (c : Logic.Conf Tid (Mem T) (Pc T)) (log : Addr → List Use)
    (h : (recordedSystem T Tid).Reachable (c, log)) :
    (∀ a, c.mem.allocated a = true → ∃! p, At c a p) ∧
      (∀ a, ∃ l, life (log a) = some l) ∧
      (∀ t value a, c.pc t = .newSetValue value a → At c a (.held t) ∧ ∀ p, At c a p → p = .held t) ∧
      ((∀ t, (c.pc t).Outside) → ∃ fuel rest, destroy fuel c.mem = some rest ∧ ∀ a, rest a = false) := by
  obtain ⟨l, hlife, hstage, _⟩ := stages_of_recorded h
  obtain ⟨x, hgood, hpc⟩ := good_of_reachable (reachable_of_recorded h)
  have hplaced := hgood.placed hpc
  refine ⟨fun a ha => ?_, fun a => ⟨l a, hlife a⟩, fun t value a ht => ?_, fun hout => ?_⟩
  · obtain ⟨p, hp⟩ := (hstage a).at ha
    exact ⟨p, hp, fun q hq => At.unique hgood hplaced hq hp⟩
  · have hheld : At c a (.held t) := by
      refine .inl ?_
      rw [ht]
      rfl
    exact ⟨hheld, fun p hp => At.unique hgood hplaced hp hheld⟩
  · refine hgood.destroy fun a ha => ?_
    obtain ⟨p, hp⟩ := (hstage a).at ha
    cases p with
    | queue => exact .inl hp
    | pool => exact .inr hp
    | held t =>
      simp only [At, (hout t).role] at hp
      rcases hp with hp | hp | hp <;> cases hp
    | detached =>
      obtain ⟨_, t, howes⟩ := hp
      rw [(hout t).role] at howes
      rcases howes with howes | howes | howes <;> cases howes

/-- A value is pushed and popped: the dummy has been passed and is in the pool, and nothing is left after the destructors. -/
theorem node_recycling_single : ∃ (c : Logic.Conf Nat (Mem Nat) (Pc Nat)) (log : Addr → List Use),
    (recordedSystem Nat Nat).Reachable (c, log) ∧ log 0 = [.construct, .pass, .enter] ∧ log 1 = [.fill, .link, .take] ∧
      (∃! p, At c 0 p) ∧ (∃! p, At c 1 p) ∧ ∃ fuel rest, destroy fuel c.mem = some rest ∧ ∀ a, rest a = false := by
  have hinit : (recordedSystem Nat Nat).Reachable
      (⟨Mem.new 0, fun _ => .idle⟩, fun a => if a = 0 then [.construct] else []) := .init ⟨⟨0, rfl, rfl⟩, fun _ => rfl⟩
  have hpush := recorded_act hinit 0 (.push (by trivial) 7)
  have hnewTop := recorded_act hpush 0 (.step ⟨false, 0, none⟩ (by trivial) nofun)
  have halloc := recorded_act hnewTop 0 (.step ⟨false, 1, none⟩ (by trivial) (fun _ _ => rfl))
  have hloadTail := recorded_act halloc 0 (.step ⟨false, 0, none⟩ (by trivial) nofun)
  have hloadNext := recorded_act hloadTail 0 (.step ⟨false, 0, none⟩ (by trivial) nofun)
  have hcheck := recorded_act hloadNext 0 (.step ⟨false, 0, none⟩ (by exact Nat.zero_lt_succ _) nofun)
  have hlink := recorded_act hcheck 0 (.step ⟨false, 0, none⟩ (by rintro b ⟨⟩; exact Nat.zero_lt_succ _) nofun)
  have hswing := recorded_act hlink 0 (.step ⟨false, 0, none⟩ (by exact Nat.zero_lt_succ _) nofun)
  have hpop := recorded_act hswing 1 (.tryPop (by trivial))
  have hloadHead := recorded_act hpop 1 (.step ⟨false, 0, none⟩ (by trivial) nofun)
  have hheadNext := recorded_act hloadHead 1 (.step ⟨false, 0, none⟩ (by trivial) nofun)
  have hpopTail := recorded_act hheadNext 1 (.step ⟨false, 0, none⟩ (by trivial) nofun)
  have hcheckHead := recorded_act hpopTail 1 (.step ⟨false, 0, none⟩ (by exact Nat.zero_lt_succ _) nofun)
  have hcas := recorded_act hcheckHead 1 (.step ⟨false, 0, none⟩ (by exact Nat.zero_lt_succ _) nofun)
  have hdrop := recorded_act hcas 1 (.step ⟨false, 0, none⟩ (by trivial) nofun)
  have hpoolTop := recorded_act hdrop 1 (.step ⟨false, 0, none⟩ (by trivial) nofun)
  have hpoolOwn := recorded_act hpoolTop 1 (.step ⟨false, 0, none⟩ (by trivial) nofun)
  have hpoolStore := recorded_act hpoolOwn 1 (.step ⟨false, 0, none⟩ (by trivial) nofun)
  have hpoolCas := recorded_act hpoolStore 1 (.step ⟨false, 0, none⟩ (by exact Nat.zero_lt_succ _) nofun)
  have htake := recorded_act hpoolCas 1 (.step ⟨false, 0, none⟩ (by trivial) nofun)
  have hret := recorded_act htake 1 (.step ⟨false, 0, none⟩ (by trivial) nofun)
  obtain ⟨hplace, _, _, hdestroy⟩ := node_recycling _ _ hret
  refine ⟨_, _, hret, rfl, rfl, hplace 0 rfl, hplace 1 rfl, hdestroy fun t => ?_⟩
  match t with
  | 0 => trivial
  | 1 => trivial
  | _ + 2 => trivial

end CppConcur.LockFree.Queue
