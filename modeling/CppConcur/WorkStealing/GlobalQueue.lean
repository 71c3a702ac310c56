import CppConcur.Intrusive.Family
import CppConcur.Thread.SpinLock

/-!
# The global queue of the thread pool

`GlobalQueue` at the level of pointers: an intrusive list behind a `SpinLock`. `PushMany` links its tasks to a list of its
own before it takes the lock, and appends that list with the lock. A task is pushed only when it is not in the queue, nor
in a call; the pool models the queue as a sequence of tasks that is changed in single steps.
-/

namespace CppConcur.WorkStealing.GlobalQueue

open Logic Linearizable Intrusive

variable {Tid Node : Type}

/-- `queue_`, and the `buf_list` of each thread. -/
inductive Lists (Tid : Type)
  | queue
  | buffer (t : Tid)
  deriving DecidableEq

inductive Op (Node : Type)
  | pushOne (task : Node)
  | pushMany (buffer : List Node)
  | tryPopOne
  | grab (size : Nat)

inductive Res (Node : Type)
  | done
  | task (n : Option Node)
  | tasks (out : List (Option Node))

/-! ### The methods -/

/-- The loop of `PushMany`. -/
def pushAll (l : Lists Tid) : List Node → Prog Node (Lists Tid) Unit
  | [] => return ()
  | task :: rest => do
    pushBack l task
    pushAll l rest

/-- The loop of `Grab`. -/
def popMany [DecidableEq Node] : Nat → Prog Node (Lists Tid) (List (Option Node))
  | 0 => return []
  | k + 1 => do
    let task ← popFront .queue
    let rest ← popMany k
    return task :: rest

/-- The destructor of a list, which asserts that the list is empty. -/
def destroy (l : Lists Tid) : Prog Node (Lists Tid) Unit := do
  if ← isEmpty l then
    return ()
  else
    Code.stuck

def Op.before (t : Tid) : Op Node → Prog Node (Lists Tid) Unit
  | pushMany buffer => do
    reset (.buffer t)
    pushAll (.buffer t) buffer
  | pushOne _ => return ()
  | tryPopOne => return ()
  | grab _ => return ()

def Op.inside [DecidableEq Node] (t : Tid) : Op Node → Prog Node (Lists Tid) (Res Node)
  | pushOne task => do
    pushBack .queue task
    return .done
  | pushMany _ => do
    append .queue (.buffer t)
    return .done
  | tryPopOne => return .task (← popFront .queue)
  | grab size => do
    let queued ← getSize .queue
    return .tasks (← popMany (min size queued))

def Op.after (t : Tid) : Op Node → Prog Node (Lists Tid) Unit
  | pushMany _ => destroy (.buffer t)
  | pushOne _ => return ()
  | tryPopOne => return ()
  | grab _ => return ()

/-- The cells that come with a call: the links of the tasks, and the list on the stack of the caller. -/
def Op.given (t : Tid) : Op Node → Set (Cell Node (Lists Tid))
  | pushOne task => links [task]
  | pushMany buffer => cells (.buffer t) buffer
  | tryPopOne => ∅
  | grab _ => ∅

/-- The cells that the caller has when a call returns. -/
def Op.back (t : Tid) : Op Node → Res Node → Set (Cell Node (Lists Tid))
  | pushMany _, _ => fields (.buffer t)
  | _, .task n => links n.toList
  | _, .tasks out => links out.reduceOption
  | _, .done => ∅

/-- The tasks that are pushed together are different. -/
def Op.Allowed : Op Node → Prop
  | pushMany buffer => buffer.Nodup
  | _ => True

def object [DecidableEq Node] : Thread.SpinLock.Object Tid (Op Node) (Res Node) (Cell Node (Lists Tid)) Val where
  before t op := op.before t
  inside t op := op.inside t
  after t op := op.after t
  allowed op := op.Allowed
  given t op := op.given t
  back t op r := op.back t r

/-- The sequential queue. -/
def Op.apply (v : List Node) : Op Node → Res Node × List Node
  | pushOne task => (.done, v ++ [task])
  | pushMany buffer => (.done, v ++ buffer)
  | tryPopOne => (.task v.head?, v.tail)
  | grab size => (.tasks ((v.take size).map some), v.drop size)

def queueSpec : Spec (List Node) (Op Node) (Res Node) where
  init := []
  next v op r v' := op.apply v = (r, v')

/-- Threads that share a queue. It has been constructed, and all tasks are outside. -/
def system (Tid Node : Type) [DecidableEq Tid] [DecidableEq Node] :=
  Thread.SpinLock.system (object : Thread.SpinLock.Object Tid (Op Node) (Res Node) (Cell Node (Lists Tid)) Val)
    (fun m => m (.head .queue) = none ∧ m (.tail .queue) = none ∧ m (.size .queue) = 0) (fields .queue)ᶜ

/-! ### What the loops do -/

section Specifications

variable {m : Memory Node (Lists Tid)} {l : Lists Tid} {xs : List Node}

/-- The links of the tasks of the caller are not those of the queue. -/
theorem not_mem_of_disjoint {own : Set (Cell Node (Lists Tid))} {n : Node} (h : Disjoint (cells l xs) own)
    (hn : .next n ∈ own) : n ∉ xs := fun hmem => Set.disjoint_left.mp h (.inr ⟨n, hmem, rfl⟩) hn

/-- The new queue has no cells outside. -/
theorem cells_nil_disjoint : Disjoint (cells l ([] : List Node)) (fields l)ᶜ :=
  Set.disjoint_compl_right_iff_subset.mpr (Set.union_subset subset_rfl fun _ ⟨_, hn, _⟩ => absurd hn List.not_mem_nil)

/-- Two lists have different fields. -/
theorem cells_fields_disjoint {k : Lists Tid} (hne : l ≠ k) : Disjoint (cells l xs) (fields k) := by
  rw [Set.disjoint_left]
  rintro c (hc | ⟨n, -, rfl⟩) hc'
  · simp only [mem_fields] at hc hc'
    rcases hc with rfl | rfl | rfl <;> simp [hne] at hc'
  · simp at hc'

/-- The first tasks leave the queue with their links. -/
theorem leave_cells (k : Nat) (hnodup : xs.Nodup) :
    Disjoint (cells l (xs.drop k)) (links (xs.take k)) ∧ cells l (xs.drop k) ∪ links (xs.take k) = cells l xs := by
  constructor
  · rw [Set.disjoint_left]
    rintro _ hc ⟨n, hn, rfl⟩
    rw [← List.take_append_drop k xs] at hnodup
    exact (List.nodup_append.mp hnodup).2.2 n hn n (by simpa using hc) rfl
  · rw [← cells_append]
    have hmem : ∀ n, n ∈ xs.drop k ++ xs.take k ↔ n ∈ xs := fun n => by
      rw [List.mem_append, or_comm, ← List.mem_append, List.take_append_drop]
    exact (cells_mono fun n hn => (hmem n).mp hn).antisymm (cells_mono fun n hn => (hmem n).mpr hn)

variable [DecidableEq Tid] [DecidableEq Node]

theorem pushAll_spec {tasks : List Node} (h : Represents m l xs) (hnodup : (xs ++ tasks).Nodup) :
    (pushAll l tasks).wp (cells l (xs ++ tasks)) (fun _ m' => Represents m' l (xs ++ tasks)) m := by
  induction tasks generalizing m xs with
  | nil => simpa [pushAll] using h
  | cons task rest ih =>
    rw [List.append_cons] at hnodup ⊢
    have hnew : task ∉ xs := fun hmem =>
      (List.nodup_append.mp (List.nodup_append.mp hnodup).1).2.2 task hmem task (List.mem_singleton_self _) rfl
    rw [pushAll, Code.wp_bind]
    exact (pushBack_spec h hnew).mono (cells_mono (List.subset_append_left _ _)) fun _ m' hrep => ih hrep hnodup

theorem popMany_spec {k : Nat} (h : Represents m .queue xs) (hk : k ≤ xs.length) :
    (popMany k).wp (cells .queue xs)
      (fun r m' => r = (xs.take k).map some ∧ Represents m' .queue (xs.drop k)) m := by
  induction k generalizing m xs with
  | zero => simpa [popMany] using h
  | succ k ih =>
    cases xs with
    | nil => simp at hk
    | cons task rest =>
      rw [popMany, Code.wp_bind]
      refine (popFront_spec h).mono subset_rfl ?_
      rintro _ m' ⟨rfl, hrep, -⟩
      rw [Code.wp_bind]
      refine (ih hrep (Nat.le_of_succ_le_succ hk)).mono (cells_mono (List.subset_cons_self _ _)) ?_
      rintro _ _ ⟨rfl, hrest⟩
      exact ⟨rfl, hrest⟩

/-- What `PushMany` has prepared when it takes the lock. -/
def Ready (t : Tid) (m : Memory Node (Lists Tid)) : Op Node → Prop
  | .pushMany buffer => Represents m (.buffer t) buffer
  | _ => True

theorem before_spec (t : Tid) (op : Op Node) (hallowed : op.Allowed) :
    (op.before t).wp (op.given t) (fun _ m' => Ready t m' op) m := by
  cases op with
  | pushMany buffer =>
    have hpush : ∀ m' : Memory Node (Lists Tid), Represents m' (.buffer t) [] →
        (pushAll (.buffer t) buffer).wp (cells (.buffer t) buffer) (fun _ m' => Represents m' (.buffer t) buffer) m' :=
      fun _ hempty => pushAll_spec hempty hallowed
    simp only [Op.before, Op.given, Code.wp_bind, wp_reset]
    refine ⟨by simp, by simp, by simp, hpush _ ?_⟩
    constructor <;> simp [Linked]
  | pushOne | tryPopOne | grab => exact trivial

theorem inside_spec (t : Tid) (op : Op Node) (h : Represents m .queue xs) (hready : Ready t m op)
    (hdisj : Disjoint (cells .queue xs) (op.given t)) :
    (op.inside t).wp (cells .queue xs ∪ op.given t) (fun r m' => ∃ v' K, op.apply xs = (r, v') ∧
      Represents m' .queue v' ∧ Disjoint (cells .queue v') K ∧ cells .queue v' ∪ K = cells .queue xs ∪ op.given t ∧
      op.back t r ⊆ K ∧ (op.after t).wp K (fun _ _ => True) m') m := by
  cases op with
  | pushOne task =>
    have hnew : task ∉ xs := not_mem_of_disjoint hdisj (by simp [Op.given])
    rw [Op.inside, Code.wp_bind]
    refine (pushBack_spec h hnew).mono cells_append.subset fun _ m' hrep => ?_
    refine ⟨_, ∅, rfl, hrep, Set.disjoint_empty _, ?_, subset_rfl, trivial⟩
    rw [Set.union_empty, cells_append, Op.given]
  | pushMany buffer =>
    have hnew : xs.Disjoint buffer := fun n hn hn' => not_mem_of_disjoint hdisj (by simp [Op.given, hn']) hn
    rw [Op.inside, Code.wp_bind]
    refine (append_spec h hready (by simp) hnew).mono subset_rfl fun _ m' hrep => ?_
    refine ⟨_, fields (.buffer t), rfl, hrep.1, ?_, ?_, subset_rfl, ?_⟩
    · exact cells_fields_disjoint (by simp)
    · rw [cells_append, Op.given, cells, cells, Set.union_assoc, Set.union_comm (links buffer), ← Set.union_assoc]
    · simp [Op.after, destroy, hrep.2.head]
  | tryPopOne =>
    rw [Op.inside, Code.wp_bind]
    refine (popFront_spec h).mono Set.subset_union_left ?_
    rintro _ m' ⟨rfl, hrep, -⟩
    obtain ⟨hapart, hcells⟩ := leave_cells (l := (.queue : Lists Tid)) 1 h.nodup
    rw [List.drop_one] at hapart hcells
    refine ⟨_, links (xs.take 1), rfl, hrep, hapart, hcells.trans (Set.union_empty _).symm, ?_, trivial⟩
    cases xs <;> exact subset_rfl
  | grab size =>
    simp only [Op.inside, Code.wp_bind, Code.wp_load]
    refine ⟨by simp, ?_⟩
    rw [h.size]
    refine (popMany_spec h (Nat.min_le_right _ _)).mono Set.subset_union_left ?_
    rintro _ m' ⟨rfl, hrep⟩
    have htake : xs.take (min size xs.length) = xs.take size := List.take_eq_take_iff.mpr (by omega)
    have hdrop : xs.drop (min size xs.length) = xs.drop size := List.drop_eq_drop_iff.mpr (by omega)
    rw [hdrop] at hrep
    rw [htake]
    obtain ⟨hapart, hcells⟩ := leave_cells (l := (.queue : Lists Tid)) size h.nodup
    have hout : ((xs.take size).map some).reduceOption = xs.take size := by
      change ((xs.take size).map some).filterMap id = _
      rw [List.filterMap_map]
      exact List.filterMap_some
    exact ⟨_, links (xs.take size), rfl, hrep, hapart, hcells.trans (Set.union_empty _).symm, (congrArg links hout).subset, trivial⟩

def lawful : Thread.SpinLock.Lawful
    (object : Thread.SpinLock.Object Tid (Op Node) (Res Node) (Cell Node (Lists Tid)) Val) queueSpec where
  own v := cells .queue v
  inv v m := Represents m .queue v
  ready t op m := Ready t m op
  inv_congr v m m' hsame h := h.congr hsame
  ready_congr t op m m' hsame h := by
    cases op with
    | pushMany buffer => exact Represents.congr h hsame
    | pushOne | tryPopOne | grab => exact trivial
  before_spec t op m hallowed := before_spec t op hallowed
  inside_spec t op v m _ h hready hdisj := inside_spec t op h hready hdisj

end Specifications

/-- For any number of threads, interleaved at single loads and stores, the global queue is linearizable: the unlocking
steps are an order of the calls in which a sequential queue gives the same answers, consistent with real time. The tasks of
one `PushMany` stay together. One thread at a time is inside the lock; none of them dereferences a null pointer or fails
the assertion of a list that is destroyed; and when the lock is free, the list in memory is the sequential queue. -/
theorem globalQueue_linearizable [DecidableEq Tid] [DecidableEq Node]
    {c : Conf Tid (Thread.SpinLock.Mem Tid (Op Node) (Res Node) (Cell Node (Lists Tid)) Val)
      (Thread.SpinLock.Pc (Op Node) (Res Node) (Cell Node (Lists Tid)) Val)}
    (h : (system Tid Node).Reachable c) :
    Explains (commits c.mem.log) c.mem.log ∧
      (∃ v, queueSpec.Run (commits c.mem.log) v ∧ (c.mem.locked = false → Represents c.mem.cell .queue v)) ∧
      (∀ t u, (c.pc t).Inside → (c.pc u).Inside → t = u) ∧ ∀ t, ¬ (c.pc t).Stuck := by
  obtain ⟨x, hgood, hpc⟩ := Thread.SpinLock.Lawful.good_of_reachable (L := lawful) rfl
    (fun m ⟨hhead, htail, hsize⟩ => ⟨hhead, htail, hsize, trivial, List.nodup_nil⟩) cells_nil_disjoint h
  refine ⟨hgood.legal.explains, ⟨x.value, hgood.legal.run, hgood.inv_of_unlocked⟩, ?_, fun t => (hpc t).not_stuck⟩
  exact fun t u ht hu => Option.some.inj (((hpc t).holder ht).symm.trans ((hpc u).holder hu))

/-- One thread pushes two tasks together and takes one of them. -/
theorem globalQueue_linearizable_pushed :
    ∃ c, (system Unit Nat).Reachable c ∧ c.mem.locked = false ∧
      c.mem.log = [.call ((), 0) (.pushMany [1, 2]), .commit ⟨((), 0), .pushMany [1, 2], .done⟩, .ret ((), 0) .done,
        .call ((), 1) .tryPopOne, .commit ⟨((), 1), .tryPopOne, .task (some 1)⟩, .ret ((), 1) (.task (some 1))] ∧
      Explains (commits c.mem.log) c.mem.log := by
  have hinit : (system Unit Nat).Reachable ⟨⟨false, Memory.new, (fields .queue)ᶜ, fun _ => 0, []⟩, fun _ => .idle⟩ :=
    .init ⟨⟨rfl, ⟨rfl, rfl, rfl⟩, rfl, rfl⟩, fun _ => rfl⟩
  have hgiven : cells (.buffer ()) [1, 2] ⊆ (fields (.queue : Lists Unit) : Set (Cell Nat (Lists Unit)))ᶜ :=
    Set.subset_compl_iff_disjoint_right.mpr (cells_fields_disjoint (by simp))
  have hpushed := Thread.SpinLock.solo () (Op.pushMany [1, 2]) hinit rfl rfl (by simp [object, Op.Allowed]) hgiven rfl rfl rfl
  have hpopped := Thread.SpinLock.solo () Op.tryPopOne hpushed rfl rfl trivial (Set.empty_subset _) rfl rfl rfl
  exact ⟨_, hpopped, rfl, rfl, (globalQueue_linearizable hpopped).1⟩

end CppConcur.WorkStealing.GlobalQueue
