import CppConcur.WorkStealing.Pool
import CppConcur.WorkStealing.QueueInvariant

/-!
# Who pushes to a local queue

All pools of a process take the indices of their threads from one counter: a pool with `threads` workers gets the range of
`threads` indices that starts at `thread_idx_offset_`, and a worker stores its index in the thread-local
`current_thread_idx`, which is 0 in every other thread. `Submit` finds the caller's worker by a comparison of the two, so
that only a worker itself pushes to its local queue and touches its LIFO slot. In the model of one pool, a worker of
another pool is therefore a client.

A pool is known by its number in the order of construction. Not part of the source: `role` is the worker whose `Work` a
thread runs, and `log` are the accesses to local queues and LIFO slots so far. `SetCurrentThreadIdx` is part of the start of
the thread, which does nothing before it. Whether the LIFO slot that `Push` swaps with was occupied is left open.
-/

namespace CppConcur.WorkStealing.Ownership

open Pool (Hint)

/-- The fields of a `ThreadPool` that `Submit` compares with the index of the calling thread. -/
structure ThreadPool where
  threads : Nat
  threadIdxOffset : Nat

/-- An access by thread `t` to worker `w` of pool `p`. -/
inductive Access (Tid : Type*) where
  | lifoSlot (p w : Nat) (t : Tid)
  | tryPush (p w : Nat) (t : Tid)

/-- `thread_index_offset`, the pools constructed so far, and `current_thread_idx` of every thread. -/
structure State (Tid : Type*) where
  threadIndexOffset : Nat
  pools : List ThreadPool
  currentThreadIdx : Tid → Nat
  role : Tid → Option (Nat × Nat)
  log : List (Access Tid)

variable {Tid : Type*}

/-- The constructor of a pool. -/
def State.construct (s : State Tid) (threads : Nat) : State Tid :=
  { s with
    threadIndexOffset := add64 s.threadIndexOffset threads
    pools := s.pools ++ [{ threads, threadIdxOffset := add64 s.threadIndexOffset 1 }] }

/-- The worker whose `Push` is called by `Submit` in a thread with this index; without one the task goes to the global
queue. -/
def ThreadPool.submit (pool : ThreadPool) (currentThreadIdx : Nat) : Option Nat :=
  if currentThreadIdx < pool.threadIdxOffset ∨ add64 pool.threadIdxOffset pool.threads ≤ currentThreadIdx then none
  else some (sub64 currentThreadIdx pool.threadIdxOffset)

/-- The accesses of `Worker::Push`. -/
def push (p w : Nat) (t : Tid) (occupied : Bool) : Hint → List (Access Tid)
  | .yield => []
  | .next => .lifoSlot p w t :: if occupied then [.tryPush p w t] else []
  | .upToYou => [.tryPush p w t]

/-- The start of the thread of worker `w` of pool `p`, with `SetCurrentThreadIdx`. -/
def State.startWorker [DecidableEq Tid] (s : State Tid) (t : Tid) (p w : Nat) (pool : ThreadPool) : State Tid :=
  { s with
    role := Function.update s.role t (some (p, w))
    currentThreadIdx := Function.update s.currentThreadIdx t (add64 pool.threadIdxOffset w) }

inductive Step [DecidableEq Tid] (s : State Tid) : State Tid → Prop
  | construct (threads : Nat) (hthreads : threads < word) : Step s (s.construct threads)
  | startWorker {p w : Nat} {pool : ThreadPool} (t : Tid) (hpool : s.pools[p]? = some pool) (hw : w < pool.threads)
      (hthread : s.role t = none) (hworker : ∀ u, s.role u ≠ some (p, w)) : Step s (s.startWorker t p w pool)
  | submit {p : Nat} {pool : ThreadPool} (t : Tid) (hint : Hint) (occupied : Bool) (hpool : s.pools[p]? = some pool) :
      Step s { s with
        log := s.log ++
          match pool.submit (s.currentThreadIdx t) with
          | none => []
          | some w => push p w t occupied hint }
  -- `TryPickTaskFromLifoSlot` and the pushes of `TryStealTasks`, in the thread of the worker
  | pickLifo {p w : Nat} (t : Tid) (hrole : s.role t = some (p, w)) : Step s { s with log := s.log ++ [.lifoSlot p w t] }
  | keepStolen {p w : Nat} (t : Tid) (hrole : s.role t = some (p, w)) : Step s { s with log := s.log ++ [.tryPush p w t] }

def State.start : State Tid where
  threadIndexOffset := 0
  pools := []
  currentThreadIdx := fun _ => 0
  role := fun _ => none
  log := []

/-- Any constructions of pools, starts of workers and calls of `Submit` by any threads. -/
def system [DecidableEq Tid] : Logic.System (State Tid) where
  init s := s = .start
  step := Step

/-! ### The ranges of indices -/

/-- The threads of the first `p` pools. -/
def before (pools : List ThreadPool) (p : Nat) : Nat := ((pools.take p).map ThreadPool.threads).sum

/-- The threads of all pools. -/
def State.total (s : State Tid) : Nat := (s.pools.map ThreadPool.threads).sum

section Ranges

variable {pools : List ThreadPool} {p q : Nat} {pool : ThreadPool}

theorem before_mono (pools : List ThreadPool) : Monotone (before pools) := by
  refine monotone_nat_of_le_succ fun p => ?_
  rw [before, before, List.take_add_one, List.map_append, List.sum_append]
  exact Nat.le_add_right _ _

theorem before_succ (hpool : pools[p]? = some pool) : before pools (p + 1) = before pools p + pool.threads := by
  rw [before, List.take_add_one, hpool, List.map_append, List.sum_append]
  rfl

theorem before_le_total (pools : List ThreadPool) (p : Nat) : before pools p ≤ (pools.map ThreadPool.threads).sum := by
  conv_rhs => rw [← List.take_append_drop p pools, List.map_append, List.sum_append]
  exact Nat.le_add_right _ _

/-- Pools that are constructed later do not move the ranges of the others. -/
theorem before_append (pools later : List ThreadPool) (hp : p ≤ pools.length) :
    before (pools ++ later) p = before pools p := by
  rw [before, before, List.take_append_of_le_length hp]

/-- The ranges of two pools have no index in common. -/
theorem eq_of_mem_range {v w : Nat} {pool' : ThreadPool} (hp : pools[p]? = some pool) (hq : pools[q]? = some pool')
    (hv : v < pool.threads) (hw : w < pool'.threads) (heq : before pools p + v = before pools q + w) : p = q := by
  have hsuccp := before_succ hp
  have hsuccq := before_succ hq
  rcases Nat.lt_trichotomy p q with hlt | heq | hlt
  · have hle := before_mono pools (show p + 1 ≤ q from hlt)
    omega
  · exact heq
  · have hle := before_mono pools (show q + 1 ≤ p from hlt)
    omega

end Ranges

/-! ### What every step keeps -/

/-- The range of a pool begins after the threads of all earlier pools, a worker has its index in the range of its pool, and
the accesses are by the workers' own threads. -/
structure Inv (s : State Tid) : Prop where
  counter : s.threadIndexOffset = s.total
  offset : ∀ p pool, s.pools[p]? = some pool → pool.threadIdxOffset = before s.pools p + 1
  client : ∀ t, s.role t = none → s.currentThreadIdx t = 0
  worker : ∀ t p w, s.role t = some (p, w) →
    ∃ pool, s.pools[p]? = some pool ∧ w < pool.threads ∧ s.currentThreadIdx t = before s.pools p + 1 + w
  alone : ∀ t u worker, s.role t = some worker → s.role u = some worker → t = u
  log : ∀ p w t, (.lifoSlot p w t ∈ s.log ∨ .tryPush p w t ∈ s.log) → s.role t = some (p, w)

section Steps

variable {s s' : State Tid} {p w : Nat} {pool : ThreadPool} {t : Tid}

/-- `Submit` calls `Push` exactly for a worker of the pool, and on that worker. -/
theorem Inv.submit_eq_some_iff (h : Inv s) (hsum : s.total < word - 1) (hpool : s.pools[p]? = some pool) (t : Tid)
    (w : Nat) :
    pool.submit (s.currentThreadIdx t) = some w ↔ s.role t = some (p, w) := by
  have hoffset := h.offset p pool hpool
  have hend : add64 pool.threadIdxOffset pool.threads = before s.pools p + 1 + pool.threads := by
    have hsucc := before_succ hpool
    have hle : before s.pools (p + 1) ≤ s.total := before_le_total s.pools (p + 1)
    rw [hoffset, add64_eq (by omega)]
  rw [ThreadPool.submit, hend, hoffset]
  cases hrole : s.role t with
  | none =>
    rw [h.client t hrole, if_pos (.inl (Nat.succ_pos _))]
    exact ⟨nofun, nofun⟩
  | some worker =>
    obtain ⟨q, v⟩ := worker
    obtain ⟨pool', hpool', hv, hidx⟩ := h.worker t q v hrole
    by_cases hqp : q = p
    · subst hqp
      obtain rfl : pool' = pool := Option.some.inj (hpool'.symm.trans hpool)
      have hle : before s.pools (q + 1) ≤ s.total := before_le_total s.pools (q + 1)
      have hsucc := before_succ hpool
      rw [hidx, if_neg (by omega), sub64_eq (by omega) (by omega), Nat.add_sub_cancel_left]
      simp only [Option.some.injEq, Prod.mk.injEq, true_and]
    · have hout : s.currentThreadIdx t < before s.pools p + 1 ∨ before s.pools p + 1 + pool.threads ≤ s.currentThreadIdx t := by
        by_contra hrange
        rw [hidx] at hrange
        exact hqp (eq_of_mem_range hpool' hpool (v := v) (w := before s.pools q + v - before s.pools p) hv
          (by omega) (by omega))
      rw [if_pos hout]
      exact ⟨nofun, fun heq => absurd (congrArg Prod.fst (Option.some.inj heq)) hqp⟩

/-- The thread as the model of one pool sees it. -/
def State.threadOf (s : State Tid) (p : Nat) (pool : ThreadPool) (t : Tid) : Pool.Thread pool.threads Tid :=
  match s.role t with
  | none => .client t
  | some (q, w) => if h : q = p ∧ w < pool.threads then .worker ⟨w, h.2⟩ else .client t

/-- In the model of a pool, the threads that push to their own worker are the workers. -/
theorem Inv.threadOf_eq_worker_iff (h : Inv s) (hsum : s.total < word - 1) (hpool : s.pools[p]? = some pool) (t : Tid)
    (i : Fin pool.threads) : s.threadOf p pool t = .worker i ↔ pool.submit (s.currentThreadIdx t) = some i.val := by
  rw [h.submit_eq_some_iff hsum hpool, State.threadOf]
  split
  · rename_i hrole
    rw [hrole]
    exact ⟨nofun, nofun⟩
  · rename_i q w hrole
    rw [hrole]
    split
    · rename_i hmine
      obtain ⟨rfl, hw⟩ := hmine
      simp only [Pool.Thread.worker.injEq, Option.some.injEq, Prod.mk.injEq, true_and, Fin.ext_iff]
    · rename_i hmine
      refine ⟨nofun, fun heq => absurd ?_ hmine⟩
      cases heq
      exact ⟨rfl, i.isLt⟩

theorem total_construct (s : State Tid) (threads : Nat) : (s.construct threads).total = s.total + threads := by
  simp only [State.total, State.construct, List.map_append, List.sum_append, List.map_cons, List.map_nil, List.sum_singleton]

theorem Inv.construct (h : Inv s) (threads : Nat) (hsum : s.total + threads < word - 1) : Inv (s.construct threads) where
  counter := by
    rw [total_construct, State.construct, h.counter]
    exact add64_eq (by omega)
  offset := by
    intro p pool hpool
    rcases Nat.lt_or_ge p s.pools.length with hp | hp
    · rw [State.construct, List.getElem?_append_left hp] at hpool
      rw [State.construct, before_append _ _ hp.le]
      exact h.offset p pool hpool
    · -- the new pool
      have hlt : p < (s.construct threads).pools.length := (List.getElem?_eq_some_iff.1 hpool).1
      rw [State.construct, List.length_append, List.length_singleton] at hlt
      obtain rfl : p = s.pools.length := by omega
      rw [State.construct, List.getElem?_concat_length] at hpool
      obtain rfl := Option.some.inj hpool
      rw [State.construct, before_append _ _ le_rfl, before, List.take_length, h.counter]
      exact add64_eq (by omega)
  client := h.client
  worker := by
    intro t p w hrole
    obtain ⟨pool, hpool, hw, hidx⟩ := h.worker t p w hrole
    have hp : p < s.pools.length := (List.getElem?_eq_some_iff.1 hpool).1
    refine ⟨pool, ?_, hw, ?_⟩
    · rw [State.construct, List.getElem?_append_left hp, hpool]
    · rw [State.construct, before_append _ _ hp.le]
      exact hidx
  alone := h.alone
  log := h.log

theorem Inv.startWorker [DecidableEq Tid] (h : Inv s) (hsum : s.total < word - 1) (hpool : s.pools[p]? = some pool)
    (hw : w < pool.threads) (hthread : s.role t = none) (hworker : ∀ u, s.role u ≠ some (p, w)) :
    Inv (s.startWorker t p w pool) where
  counter := h.counter
  offset := h.offset
  client := by
    intro u hu
    by_cases hut : u = t
    · subst hut
      simp only [State.startWorker, Function.update_self] at hu
      cases hu
    · simp only [State.startWorker, ne_eq, hut, not_false_eq_true, Function.update_of_ne] at hu ⊢
      exact h.client u hu
  worker := by
    intro u q v hu
    by_cases hut : u = t
    · subst hut
      simp only [State.startWorker, Function.update_self] at hu
      cases hu
      have hle : before s.pools (p + 1) ≤ s.total := before_le_total s.pools (p + 1)
      have hsucc := before_succ hpool
      refine ⟨pool, hpool, hw, ?_⟩
      simp only [State.startWorker, Function.update_self]
      rw [h.offset p pool hpool, add64_eq (by omega)]
    · simp only [State.startWorker, ne_eq, hut, not_false_eq_true, Function.update_of_ne] at hu ⊢
      exact h.worker u q v hu
  alone := by
    intro u v worker hu hv
    have hrole : ∀ x, x ≠ t → (s.startWorker t p w pool).role x = s.role x := fun x hx => Function.update_of_ne hx ..
    have hself : (s.startWorker t p w pool).role t = some (p, w) := Function.update_self ..
    by_cases hut : u = t
    · by_cases hvt : v = t
      · exact hut.trans hvt.symm
      · rw [hut, hself] at hu
        rw [hrole v hvt, ← hu] at hv
        exact absurd hv (hworker v)
    · by_cases hvt : v = t
      · rw [hvt, hself] at hv
        rw [hrole u hut, ← hv] at hu
        exact absurd hu (hworker u)
      · rw [hrole u hut] at hu
        rw [hrole v hvt] at hv
        exact h.alone u v worker hu hv
  log := by
    intro q v u hmem
    have hrole := h.log q v u hmem
    have hut : u ≠ t := by
      rintro rfl
      rw [hthread] at hrole
      cases hrole
    simp only [State.startWorker, ne_eq, hut, not_false_eq_true, Function.update_of_ne]
    exact hrole

theorem Inv.append_log (h : Inv s) (accesses : List (Access Tid))
    (hown : ∀ p w t, (.lifoSlot p w t ∈ accesses ∨ .tryPush p w t ∈ accesses) → s.role t = some (p, w)) :
    Inv { s with log := s.log ++ accesses } :=
  { h with
    log := by
      intro p w t hmem
      rw [List.mem_append, List.mem_append] at hmem
      rcases hmem with (hold | hnew) | (hold | hnew)
      · exact h.log p w t (.inl hold)
      · exact hown p w t (.inl hnew)
      · exact h.log p w t (.inr hold)
      · exact hown p w t (.inr hnew) }

/-- All accesses of a `Push` are to its worker. -/
theorem eq_of_mem_push {occupied : Bool} {hint : Hint} {q v : Nat} {u : Tid}
    (hmem : .lifoSlot q v u ∈ push p w t occupied hint ∨ .tryPush q v u ∈ push p w t occupied hint) :
    u = t ∧ (q, v) = (p, w) := by
  cases hint <;> cases occupied <;> simp [push] at hmem <;> obtain ⟨rfl, rfl, rfl⟩ := hmem <;> exact ⟨rfl, rfl⟩

theorem Inv.submit (h : Inv s) (hsum : s.total < word - 1) (hpool : s.pools[p]? = some pool) (t : Tid) (hint : Hint)
    (occupied : Bool) :
    Inv { s with
      log := s.log ++
        match pool.submit (s.currentThreadIdx t) with
        | none => []
        | some w => push p w t occupied hint } := by
  refine h.append_log _ fun q v u hmem => ?_
  split at hmem
  · rcases hmem with hmem | hmem <;> cases hmem
  · rename_i w hsubmit
    obtain ⟨rfl, heq⟩ := eq_of_mem_push hmem
    rw [heq]
    exact (h.submit_eq_some_iff hsum hpool u w).1 hsubmit

theorem total_le_of_step [DecidableEq Tid] (hstep : Step s s') : s.total ≤ s'.total := by
  cases hstep with
  | construct threads hthreads =>
    rw [total_construct]
    exact Nat.le_add_right _ _
  | _ => exact le_rfl

theorem Inv.step [DecidableEq Tid] (h : Inv s) (hsum : s'.total < word - 1) (hstep : Step s s') : Inv s' := by
  have hsum₀ : s.total < word - 1 := (total_le_of_step hstep).trans_lt hsum
  cases hstep with
  | construct threads hthreads => exact h.construct threads (by rwa [total_construct] at hsum)
  | startWorker t hpool hw hthread hworker => exact h.startWorker hsum₀ hpool hw hthread hworker
  | submit t hint occupied hpool => exact h.submit hsum₀ hpool t hint occupied
  | pickLifo t hrole =>
    refine h.append_log _ fun q v u hmem => ?_
    simp at hmem
    obtain ⟨rfl, rfl, rfl⟩ := hmem
    exact hrole
  | keepStolen t hrole =>
    refine h.append_log _ fun q v u hmem => ?_
    simp at hmem
    obtain ⟨rfl, rfl, rfl⟩ := hmem
    exact hrole

end Steps

/-! ### Every process -/

section Reachable

variable [DecidableEq Tid] {s : State Tid}

/-- The invariant holds as long as the indices do not wrap. -/
def Bounded (s : State Tid) : Prop := s.total < word - 1 → Inv s

theorem bounded_of_reachable (h : system.Reachable s) : Bounded s := by
  refine h.invariant ?_ ?_
  · rintro s rfl -
    exact {
      counter := rfl
      offset := nofun
      client := fun _ _ => rfl
      worker := nofun
      alone := nofun
      log := fun _ _ _ hmem => by rcases hmem with hmem | hmem <;> cases hmem }
  · intro s s' _ hinv hstep hsum
    exact (hinv ((total_le_of_step hstep).trans_lt hsum)).step hsum hstep

/-- As long as all pools together have fewer than `2^64 - 1` threads: `Submit` on a pool calls `Push` exactly if the caller
is a worker of that pool, and on its own worker; and all accesses to a local queue as its producer, or to a LIFO slot, are by
one thread. -/
theorem single_producer (h : system.Reachable s) (hsum : s.total < 2 ^ 64 - 1) :
    (∀ p pool t w, s.pools[p]? = some pool →
      (pool.submit (s.currentThreadIdx t) = some w ↔ s.role t = some (p, w))) ∧
    ∀ p w t u, (.lifoSlot p w t ∈ s.log ∨ .tryPush p w t ∈ s.log) → (.lifoSlot p w u ∈ s.log ∨ .tryPush p w u ∈ s.log) →
      t = u := by
  have hinv := bounded_of_reachable h hsum
  constructor
  · intro p pool t w hpool
    exact hinv.submit_eq_some_iff hsum hpool t w
  · intro p w t u ht hu
    exact hinv.alone t u (p, w) (hinv.log p w t ht) (hinv.log p w u hu)

/-- A worker of the first of two pools submits to both: its own pool has it push to its worker. -/
theorem single_producer_cross : ∃ s : State Nat, system.Reachable s ∧ s.total < 2 ^ 64 - 1 ∧ s.log = [.tryPush 0 0 7] ∧
    ∃ own other, s.pools = [own, other] ∧ own.submit (s.currentThreadIdx 7) = some 0 ∧
      ¬ other.submit (s.currentThreadIdx 7) = some 0 := by
  have hstart : system.Reachable (.start : State Nat) := .init rfl
  have hfirst := hstart.step (.construct 1 (by decide))
  have hsecond := hfirst.step (.construct 1 (by decide))
  have hworker := hsecond.step (.startWorker (p := 0) (w := 0) 7 rfl (by decide) rfl nofun)
  have hown := hworker.step (.submit (p := 0) 7 .upToYou false rfl)
  have hother := hown.step (.submit (p := 1) 7 .upToYou false rfl)
  have hproducer := (single_producer hother (by decide)).1
  refine ⟨_, hother, by decide, rfl, _, _, rfl, (hproducer 0 _ 7 0 rfl).2 rfl, fun hpush => ?_⟩
  cases (hproducer 1 _ 7 0 rfl).1 hpush

/-- With `2^64 - 1` threads the end of the last range wraps to 0, and a worker of the last pool is taken for a client. -/
theorem last_worker_not_found : ∃ s : State Nat, system.Reachable s ∧ s.total < 2 ^ 64 ∧
    ∃ pool, s.pools[1]? = some pool ∧ s.role 7 = some (1, 0) ∧ pool.submit (s.currentThreadIdx 7) = none := by
  have hstart : system.Reachable (.start : State Nat) := .init rfl
  have hfirst := hstart.step (.construct (2 ^ 64 - 2) (by decide))
  have hsecond := hfirst.step (.construct 1 (by decide))
  have hworker := hsecond.step (.startWorker (p := 1) (w := 0) 7 rfl (by decide) rfl nofun)
  exact ⟨_, hworker, by decide, _, rfl, rfl, by decide⟩

end Reachable

end CppConcur.WorkStealing.Ownership
