import CppConcur.LockFree.Queue
import Mathlib.Data.List.Nodup

/-!
# What the lock-free queue keeps

Every linked node gets a position: the dummy of the constructor has position `0`, the node linked by
the `i`-th push has position `i + 1`, and an address has a new position each time its node is linked
again. `head_` is at the position that counts the successful compare-exchanges on it, `tail_` at some
position between it and the last one.

A node is recycled after two increments of `try_del_count`: one by the thread that moved `head_` onto
it, after it has taken the value, and one by the thread that moved `head_` past it. `Aux` tracks both
for each position, and with them where every node is: in the list or detached from it and not yet
recycled (`linked`), in the pool, or in the hands of one thread.

What a thread has read of a node may be stale in every way, since the node may have been recycled and
linked again. So an assertion only says what a loaded value means if the cell it was loaded from, or
the cell the thread will check, has not been written since; and the stamps decide just that.
-/

namespace CppConcur.LockFree.Queue

variable {T Tid : Type*}

/-- Where a node is. -/
inductive Place (Tid : Type*) where
  | free
  | pool
  | held (t : Tid)
  | linked (position : Nat)

/-- The auxiliary value of the proof. -/
structure Aux (Tid : Type*) where
  /-- The node at each position. -/
  chain : Nat → Addr
  /-- The position of `tail_`. -/
  tailPos : Nat
  place : Addr → Place Tid
  pool : List Addr
  /-- How often the stamp of the `next` of a node has been incremented. -/
  tick : Addr → Nat
  /-- The value at a position has been moved out. -/
  valueTaken : Nat → Bool
  /-- The thread that moved the value out has incremented `try_del_count`. -/
  valueDone : Nat → Bool
  /-- The thread that moved `head_` past a position has incremented `try_del_count`. -/
  passedDone : Nat → Bool
  /-- Which thread made the successful compare-exchange on `head_` at a position. -/
  popper : Nat → Option Tid

/-- The node at a position has not been recycled. -/
def Aux.Live (x : Aux Tid) (i : Nat) : Prop := ¬ (x.valueDone i = true ∧ x.passedDone i = true)

/-- The nodes of a list are linked by their `next` pointers, and the last one has none. -/
def Chained (node : Addr → Node T) : List Addr → Prop
  | [] => True
  | a :: rest => (node a).next.value.rawPtr = rest.head? ∧ Chained node rest

/-- The invariant of the memory. -/
structure Good (m : Mem T) (x : Aux Tid) : Prop where
  head_le_tail : m.popped.length ≤ x.tailPos
  tail_le : x.tailPos ≤ m.pushed.length
  head_value : m.head.value = ⟨some (x.chain m.popped.length), m.head.updates % stamps⟩
  tail_value : m.tail.value = ⟨some (x.chain x.tailPos), m.tail.updates % stamps⟩
  top_value : m.top.value = ⟨x.pool.head?, m.top.updates % stamps⟩
  next_stamp : ∀ a, (m.node a).next.value.stamp = x.tick a % stamps
  next_ptr : ∀ i, m.popped.length ≤ i → i < m.pushed.length →
    (m.node (x.chain i)).next.value.rawPtr = some (x.chain (i + 1))
  next_last : (m.node (x.chain m.pushed.length)).next.value.rawPtr = none
  place_chain : ∀ i, i ≤ m.pushed.length → x.Live i → x.place (x.chain i) = .linked i
  linked_pos : ∀ a i, x.place a = .linked i → i ≤ m.pushed.length ∧ x.chain i = a ∧ x.Live i
  passed_lt : ∀ i, x.passedDone i = true → i < m.popped.length
  taken_le : ∀ i, x.valueTaken i = true → i ≤ m.popped.length
  taken_of_done : ∀ i, x.valueDone i = true → x.valueTaken i = true
  value : ∀ i, i < m.pushed.length → x.valueTaken (i + 1) = false →
    (m.node (x.chain (i + 1))).value = m.pushed[i]?
  tryDel_linked : ∀ a i, x.place a = .linked i →
    (m.node a).tryDelCount % 2 = if x.valueDone i = true ∨ x.passedDone i = true then 1 else 0
  tryDel_pool : ∀ a, x.place a = .pool → (m.node a).tryDelCount % 2 = 0
  tryDel_held : ∀ a t, x.place a = .held t → (m.node a).tryDelCount % 2 = 0
  pool_nodup : x.pool.Nodup
  mem_pool : ∀ a, a ∈ x.pool ↔ x.place a = .pool
  pool_chained : Chained m.node x.pool
  free_of_not_allocated : ∀ a, m.allocated a = false → x.place a = .free
  next_free : ∀ a, x.place a = .free → x.tick a = 0 ∧ (m.node a).next.updates = 0
  popped_value : ∀ (k : Nat) (val : Option T), m.popped[k]? = some (some val) → val = m.pushed[k]?

/-! ### What a loaded value means -/

/-- A local variable loaded from a cell that increments its stamp with every write. -/
def Seen (cell : AtomicStampedPtr Addr) (seen : Loaded Addr) : Prop :=
  seen.time ≤ cell.updates ∧ (cell.updates = seen.time → cell.value = seen.value) ∧
    seen.value.stamp = seen.time % stamps

/-- A local variable loaded from the `next` of a node, when its stamp had been incremented `tick` times. -/
structure SeenNext (m : Mem T) (x : Aux Tid) (a : Addr) (seen : Loaded Addr) (tick : Nat) : Prop where
  stamp : seen.value.stamp = tick % stamps
  tick_le : tick ≤ x.tick a
  time_le : seen.time ≤ (m.node a).next.updates
  ticks_le : x.tick a + seen.time ≤ tick + (m.node a).next.updates

/-- A new node in the hands of a pusher, ready to be linked. -/
def Ready (m : Mem T) (x : Aux Tid) (t : Tid) (value : T) (a : Addr) : Prop :=
  x.place a = .held t ∧ (m.node a).value = some value ∧ (m.node a).next.value.rawPtr = none

/-- The successor a thread has read of the node a cell points to, as long as the cell does not change. -/
def NextOf (m : Mem T) (cell : AtomicStampedPtr Addr) (seen : Loaded Addr) (b : Addr) : Prop :=
  ∃ a, seen.value.rawPtr = some a ∧ (cell.updates = seen.time → (m.node a).next.value.rawPtr = some b)

/-- A thread that has moved `head_` and has not yet taken the value it claimed. -/
structure Ticket (m : Mem T) (x : Aux Tid) (t : Tid) (headNext : Loaded Addr) (k : Nat) : Prop where
  popper : x.popper k = some t
  lt : k < m.popped.length
  pending : m.popped[k]? = some none
  not_done : x.valueDone (k + 1) = false
  not_taken : x.valueTaken (k + 1) = false
  ptr : headNext.value.rawPtr = some (x.chain (k + 1))

/-- A thread that has taken the value it claimed and not yet returned it. -/
structure Claimed (m : Mem T) (x : Aux Tid) (t : Tid) (val : Option T) (k : Nat) : Prop where
  popper : x.popper k = some t
  lt : k < m.popped.length
  pending : m.popped[k]? = some none
  val : val = m.pushed[k]?

/-- What the rest of a `TryPop` after `ToPool` relies on. -/
def AfterOk (m : Mem T) (x : Aux Tid) (t : Tid) : After T → Prop
  | .takeValue headNext k => Ticket m x t headNext k
  | .ret val k => Claimed m x t val k

/-- What a thread knows at each step of an operation. -/
def Assertion (t : Tid) (m : Mem T) (x : Aux Tid) : Pc T → Prop
  | .newLoadNext _ currTop => Seen m.top currTop ∧ ∃ a, currTop.value.rawPtr = some a
  | .newCasTop _ currTop next => Seen m.top currTop ∧ ∃ a, currTop.value.rawPtr = some a ∧
      (m.top.updates = currTop.time → (m.node a).next.value.rawPtr = next.value.rawPtr)
  | .newSetValue _ a => x.place a = .held t
  | .newLoadOwn value a => x.place a = .held t ∧ (m.node a).value = some value
  | .newStoreOwn value a oldNext =>
      x.place a = .held t ∧ (m.node a).value = some value ∧ (m.node a).next.value = oldNext.value
  | .pushLoadTail value a => Ready m x t value a
  | .pushLoadNext value a oldTail => Ready m x t value a ∧ Seen m.tail oldTail ∧ ∃ b, oldTail.value.rawPtr = some b
  | .pushCheckTail value a oldTail oldTailNext => Ready m x t value a ∧ Seen m.tail oldTail ∧
      ∃ b, oldTail.value.rawPtr = some b ∧ ∃ tick, SeenNext m x b oldTailNext tick ∧
        (m.tail.updates = oldTail.time →
          (x.tick b = tick → (m.node b).next.value.rawPtr = oldTailNext.value.rawPtr) ∧
          ∀ c, oldTailNext.value.rawPtr = some c → (m.node b).next.value.rawPtr = some c)
  | .pushLink value a oldTail oldTailNext => Ready m x t value a ∧ Seen m.tail oldTail ∧
      ∃ b, oldTail.value.rawPtr = some b ∧ ∃ tick, SeenNext m x b oldTailNext tick ∧
        (x.tick b = tick → x.place b = .linked m.pushed.length)
  | .pushHelp value a oldTail oldTailNext => Ready m x t value a ∧ Seen m.tail oldTail ∧
      ∃ b, oldTailNext.value.rawPtr = some b ∧ NextOf m m.tail oldTail b
  | .pushSwing a oldTail => Seen m.tail oldTail ∧ NextOf m m.tail oldTail a
  | .popLoadNext headOld => Seen m.head headOld ∧ ∃ a, headOld.value.rawPtr = some a
  | .popLoadTail headOld headNext sawEmpty => Seen m.head headOld ∧ (∃ a, headOld.value.rawPtr = some a) ∧
      (m.head.updates = headOld.time → headNext.value.rawPtr = none → sawEmpty = true) ∧
      ∀ b, headNext.value.rawPtr = some b → NextOf m m.head headOld b
  | .popCheckHead headOld headNext tailOld sawEmpty => Seen m.head headOld ∧ Seen m.tail tailOld ∧
      (∃ a, headOld.value.rawPtr = some a) ∧
      (m.head.updates = headOld.time → headNext.value.rawPtr = none → sawEmpty = true) ∧
      (∀ b, headNext.value.rawPtr = some b → NextOf m m.head headOld b) ∧
      (m.head.updates = headOld.time → headOld.value.rawPtr ≠ tailOld.value.rawPtr → m.popped.length < x.tailPos)
  | .popCasHead headOld headNext => Seen m.head headOld ∧
      (∃ b, headNext.value.rawPtr = some b ∧ NextOf m m.head headOld b) ∧
      (m.head.updates = headOld.time → m.popped.length < x.tailPos)
  | .popHelp headNext tailOld => Seen m.tail tailOld ∧
      ∃ b, headNext.value.rawPtr = some b ∧ NextOf m m.tail tailOld b
  | .popDropHead headOld headNext k => Ticket m x t headNext k ∧ x.passedDone k = false ∧
      headOld.value.rawPtr = some (x.chain k)
  | .popTakeValue headNext k => Ticket m x t headNext k
  | .popDropNext headNext val k => Claimed m x t val k ∧ x.valueTaken (k + 1) = true ∧
      x.valueDone (k + 1) = false ∧ headNext.value.rawPtr = some (x.chain (k + 1))
  | .popNull sawEmpty => sawEmpty = true
  | .poolLoadTop a after => x.place a = .held t ∧ AfterOk m x t after
  | .poolLoadOwn a oldTop after => x.place a = .held t ∧ Seen m.top oldTop ∧ AfterOk m x t after
  | .poolStore a oldTop oldNext after => x.place a = .held t ∧ Seen m.top oldTop ∧
      ((m.node a).next.value.stamp = oldNext.value.stamp ∨
        (m.node a).next.value.stamp = (oldNext.value.stamp + 1) % stamps) ∧ AfterOk m x t after
  | .poolCas a oldTop oldNext after => x.place a = .held t ∧ Seen m.top oldTop ∧
      (m.node a).next.value = ⟨oldTop.value.rawPtr, (oldNext.value.stamp + 1) % stamps⟩ ∧ AfterOk m x t after
  | .crash => False
  | _ => True

/-! ### How an action of another thread changes the memory -/

/-- A cell after any number of writes. -/
def CellEvolves (c c' : AtomicStampedPtr Addr) : Prop :=
  c.updates ≤ c'.updates ∧ (c'.updates = c.updates → c'.value = c.value)

/-- What a thread may rely on when other threads act. -/
structure Evolves (u : Tid) (m : Mem T) (x : Aux Tid) (m' : Mem T) (x' : Aux Tid) : Prop where
  head : CellEvolves m.head m'.head
  tail : CellEvolves m.tail m'.tail
  top : CellEvolves m.top m'.top
  popped_le : m.popped.length ≤ m'.popped.length
  popped_eq : m'.head.updates = m.head.updates → m'.popped.length = m.popped.length
  tailPos_le : x.tailPos ≤ x'.tailPos
  tailPos_eq : m'.tail.updates = m.tail.updates → x'.tailPos = x.tailPos
  pushed : ∃ values, m'.pushed = m.pushed ++ values
  chain : ∀ i, i ≤ m.pushed.length → x'.chain i = x.chain i
  tick : ∀ a, x.tick a ≤ x'.tick a ∧ (m.node a).next.updates ≤ (m'.node a).next.updates ∧
    x'.tick a + (m.node a).next.updates ≤ x.tick a + (m'.node a).next.updates
  held : ∀ a, x.place a = .held u → x'.place a = .held u ∧ m'.node a = m.node a
  last : ∀ a, x.place a = .linked m.pushed.length → x'.tick a = x.tick a → x'.place a = .linked m'.pushed.length
  next : ∀ i, m'.popped.length ≤ i → i ≤ m.pushed.length →
    (x'.tick (x.chain i) = x.tick (x.chain i) →
      (m'.node (x.chain i)).next.value.rawPtr = (m.node (x.chain i)).next.value.rawPtr) ∧
    ∀ b, (m.node (x.chain i)).next.value.rawPtr = some b → (m'.node (x.chain i)).next.value.rawPtr = some b
  topNext : m'.top.updates = m.top.updates → ∀ a, m.top.value.rawPtr = some a →
    (m'.node a).next.value = (m.node a).next.value
  tickets : ∀ k, k < m.popped.length → x.popper k = some u → x'.popper k = some u ∧ m'.popped[k]? = m.popped[k]? ∧
    x'.passedDone k = x.passedDone k ∧ x'.valueDone (k + 1) = x.valueDone (k + 1) ∧
    x'.valueTaken (k + 1) = x.valueTaken (k + 1)

theorem CellEvolves.refl (c : AtomicStampedPtr Addr) : CellEvolves c c := ⟨le_rfl, fun _ => rfl⟩

theorem CellEvolves.store (c : AtomicStampedPtr Addr) (p : StampedPtr Addr) : CellEvolves c (c.store p) :=
  ⟨Nat.le_succ _, fun h => absurd h (Nat.succ_ne_self _)⟩

theorem Seen.stable {c c' : AtomicStampedPtr Addr} {seen : Loaded Addr} (h : CellEvolves c c') (hseen : Seen c seen) :
    Seen c' seen := by
  obtain ⟨hle, heq⟩ := h
  obtain ⟨htime, hvalue, hstamp⟩ := hseen
  refine ⟨htime.trans hle, fun hupdates => ?_, hstamp⟩
  rw [heq (by omega), hvalue (by omega)]

/-- A cell that has not been written since a load of it, after other threads have acted. -/
theorem Seen.updates_eq_of_evolves {c c' : AtomicStampedPtr Addr} {seen : Loaded Addr} (h : CellEvolves c c')
    (hseen : Seen c seen) (heq : c'.updates = seen.time) : c'.updates = c.updates ∧ c.updates = seen.time := by
  have := h.1
  have := hseen.1
  omega

section Stable

variable {u : Tid} {m m' : Mem T} {x x' : Aux Tid}

theorem Evolves.pushed_le (h : Evolves u m x m' x') : m.pushed.length ≤ m'.pushed.length := by
  obtain ⟨values, hvalues⟩ := h.pushed
  rw [hvalues, List.length_append]
  omega

theorem Evolves.pushed_getElem? (h : Evolves u m x m' x') {i : Nat} (hi : i < m.pushed.length) :
    m'.pushed[i]? = m.pushed[i]? := by
  obtain ⟨values, hvalues⟩ := h.pushed
  rw [hvalues, List.getElem?_append_left hi]

theorem Ready.stable (h : Evolves u m x m' x') {value : T} {a : Addr} (hready : Ready m x u value a) :
    Ready m' x' u value a := by
  obtain ⟨hplace, hvalue, hnext⟩ := hready
  obtain ⟨hplace', hnode⟩ := h.held a hplace
  refine ⟨hplace', ?_, ?_⟩
  · rw [hnode]; exact hvalue
  · rw [hnode]; exact hnext

theorem SeenNext.stable (h : Evolves u m x m' x') {a : Addr} {seen : Loaded Addr} {tick : Nat}
    (hseen : SeenNext m x a seen tick) : SeenNext m' x' a seen tick := by
  obtain ⟨htick, hupdates, hboth⟩ := h.tick a
  have := hseen.tick_le
  have := hseen.time_le
  have := hseen.ticks_le
  exact ⟨hseen.stamp, by omega, by omega, by omega⟩

/-- The successor of the node `tail_` points to stays what a thread has read, while `tail_` does not change. -/
theorem NextOf.stable_tail (h : Evolves u m x m' x') (hgood : Good m x) (hgood' : Good m' x') {seen : Loaded Addr}
    {b : Addr} (hseen : Seen m.tail seen) (hnext : NextOf m m.tail seen b) : NextOf m' m'.tail seen b := by
  obtain ⟨a, ha, hb⟩ := hnext
  refine ⟨a, ha, fun heq => ?_⟩
  obtain ⟨heq', hold⟩ := hseen.updates_eq_of_evolves h.tail heq
  have hpos := h.tailPos_eq heq'
  have hle := hgood'.head_le_tail
  have hptr : x.chain x.tailPos = a := by
    have hvalue := hseen.2.1 hold
    rw [hgood.tail_value] at hvalue
    rw [← hvalue] at ha
    exact Option.some.inj ha
  have hstable := (h.next x.tailPos (by omega) hgood.tail_le).2 b
  rw [hptr] at hstable
  exact hstable (hb hold)

/-- The same for the node `head_` points to. -/
theorem NextOf.stable_head (h : Evolves u m x m' x') (hgood : Good m x) {seen : Loaded Addr}
    {b : Addr} (hseen : Seen m.head seen) (hnext : NextOf m m.head seen b) : NextOf m' m'.head seen b := by
  obtain ⟨a, ha, hb⟩ := hnext
  refine ⟨a, ha, fun heq => ?_⟩
  obtain ⟨heq', hold⟩ := hseen.updates_eq_of_evolves h.head heq
  have hpos := h.popped_eq heq'
  have hle := hgood.head_le_tail.trans hgood.tail_le
  have hptr : x.chain m.popped.length = a := by
    have hvalue := hseen.2.1 hold
    rw [hgood.head_value] at hvalue
    rw [← hvalue] at ha
    exact Option.some.inj ha
  have hstable := (h.next m.popped.length (by omega) hle).2 b
  rw [hptr] at hstable
  exact hstable (hb hold)

theorem Ticket.stable (h : Evolves u m x m' x') (hgood : Good m x) {headNext : Loaded Addr} {k : Nat}
    (hticket : Ticket m x u headNext k) : Ticket m' x' u headNext k := by
  obtain ⟨hpopper, hpending, -, hdone, htaken⟩ := h.tickets k hticket.lt hticket.popper
  have hle := hgood.head_le_tail.trans hgood.tail_le
  have hlt := hticket.lt
  refine ⟨hpopper, hlt.trans_le h.popped_le, hpending.trans hticket.pending, hdone.trans hticket.not_done,
    htaken.trans hticket.not_taken, ?_⟩
  rw [h.chain (k + 1) (by omega)]
  exact hticket.ptr

theorem Claimed.stable (h : Evolves u m x m' x') (hgood : Good m x) {val : Option T} {k : Nat}
    (hclaimed : Claimed m x u val k) : Claimed m' x' u val k := by
  obtain ⟨hpopper, hpending, -⟩ := h.tickets k hclaimed.lt hclaimed.popper
  have hle := hgood.head_le_tail.trans hgood.tail_le
  have hlt := hclaimed.lt
  refine ⟨hpopper, hlt.trans_le h.popped_le, hpending.trans hclaimed.pending, ?_⟩
  rw [h.pushed_getElem? (by omega)]
  exact hclaimed.val

theorem AfterOk.stable (h : Evolves u m x m' x') (hgood : Good m x) {after : After T}
    (hafter : AfterOk m x u after) : AfterOk m' x' u after := by
  cases after with
  | takeValue headNext k => exact Ticket.stable h hgood hafter
  | ret val k => exact Claimed.stable h hgood hafter

/-- No action of another thread interferes with what a thread knows. -/
theorem Assertion.stable (h : Evolves u m x m' x') (hgood : Good m x) (hgood' : Good m' x') {pc : Pc T}
    (hpc : Assertion u m x pc) : Assertion u m' x' pc := by
  cases pc with
  | newLoadNext value currTop => exact ⟨hpc.1.stable h.top, hpc.2⟩
  | newCasTop value currTop next =>
    obtain ⟨hseen, a, ha, hnext⟩ := hpc
    refine ⟨hseen.stable h.top, a, ha, fun heq => ?_⟩
    obtain ⟨heq', hold⟩ := hseen.updates_eq_of_evolves h.top heq
    have htop : m.top.value.rawPtr = some a := by rw [hseen.2.1 hold]; exact ha
    rw [h.topNext heq' a htop]
    exact hnext hold
  | newSetValue value a => exact (h.held a hpc).1
  | newLoadOwn value a =>
    obtain ⟨hplace, hnode⟩ := h.held a hpc.1
    exact ⟨hplace, by rw [hnode]; exact hpc.2⟩
  | newStoreOwn value a oldNext =>
    obtain ⟨hplace, hnode⟩ := h.held a hpc.1
    exact ⟨hplace, by rw [hnode]; exact hpc.2.1, by rw [hnode]; exact hpc.2.2⟩
  | pushLoadTail value a => exact Ready.stable h hpc
  | pushLoadNext value a oldTail => exact ⟨hpc.1.stable h, hpc.2.1.stable h.tail, hpc.2.2⟩
  | pushCheckTail value a oldTail oldTailNext =>
    obtain ⟨hready, hseen, b, hb, tick, hseenNext, hnext⟩ := hpc
    refine ⟨hready.stable h, hseen.stable h.tail, b, hb, tick, hseenNext.stable h, fun heq => ?_⟩
    obtain ⟨heq', hold⟩ := hseen.updates_eq_of_evolves h.tail heq
    obtain ⟨hsame, hsome⟩ := hnext hold
    have htick := (h.tick b).1
    have hle := hseenNext.tick_le
    have hptr : x.chain x.tailPos = b := by
      have hvalue := hseen.2.1 hold
      rw [hgood.tail_value] at hvalue
      rw [← hvalue] at hb
      exact Option.some.inj hb
    have hpos : m'.popped.length ≤ x.tailPos := by
      have := hgood'.head_le_tail
      have := h.tailPos_eq heq'
      omega
    obtain ⟨hkeep, hmono⟩ := h.next x.tailPos hpos hgood.tail_le
    rw [hptr] at hkeep hmono
    refine ⟨fun htick' => ?_, fun c hc => hmono c (hsome c hc)⟩
    rw [hkeep (by omega), hsame (by omega)]
  | pushLink value a oldTail oldTailNext =>
    obtain ⟨hready, hseen, b, hb, tick, hseenNext, hlast⟩ := hpc
    refine ⟨hready.stable h, hseen.stable h.tail, b, hb, tick, hseenNext.stable h, fun htick => ?_⟩
    have := (h.tick b).1
    have := hseenNext.tick_le
    exact h.last b (hlast (by omega)) (by omega)
  | pushHelp value a oldTail oldTailNext =>
    obtain ⟨hready, hseen, b, hb, hnext⟩ := hpc
    exact ⟨hready.stable h, hseen.stable h.tail, b, hb, hnext.stable_tail h hgood hgood' hseen⟩
  | pushSwing a oldTail => exact ⟨hpc.1.stable h.tail, hpc.2.stable_tail h hgood hgood' hpc.1⟩
  | popLoadNext headOld => exact ⟨hpc.1.stable h.head, hpc.2⟩
  | popLoadTail headOld headNext sawEmpty =>
    obtain ⟨hseen, hptr, hempty, hnext⟩ := hpc
    refine ⟨hseen.stable h.head, hptr, fun heq => ?_, fun b hb => (hnext b hb).stable_head h hgood hseen⟩
    exact hempty (hseen.updates_eq_of_evolves h.head heq).2
  | popCheckHead headOld headNext tailOld sawEmpty =>
    obtain ⟨hseen, hseenTail, hptr, hempty, hnext, hbefore⟩ := hpc
    refine ⟨hseen.stable h.head, hseenTail.stable h.tail, hptr, fun heq => ?_,
      fun b hb => (hnext b hb).stable_head h hgood hseen, fun heq hne => ?_⟩
    · exact hempty (hseen.updates_eq_of_evolves h.head heq).2
    · obtain ⟨heq', hold⟩ := hseen.updates_eq_of_evolves h.head heq
      have := hbefore hold hne
      have := h.popped_eq heq'
      have := h.tailPos_le
      omega
  | popCasHead headOld headNext =>
    obtain ⟨hseen, ⟨b, hb, hnext⟩, hbefore⟩ := hpc
    refine ⟨hseen.stable h.head, ⟨b, hb, hnext.stable_head h hgood hseen⟩, fun heq => ?_⟩
    obtain ⟨heq', hold⟩ := hseen.updates_eq_of_evolves h.head heq
    have := hbefore hold
    have := h.popped_eq heq'
    have := h.tailPos_le
    omega
  | popHelp headNext tailOld =>
    obtain ⟨hseen, b, hb, hnext⟩ := hpc
    exact ⟨hseen.stable h.tail, b, hb, hnext.stable_tail h hgood hgood' hseen⟩
  | popDropHead headOld headNext k =>
    obtain ⟨hticket, hpassed, hptr⟩ := hpc
    have hlt := hticket.lt
    have hle := hgood.head_le_tail.trans hgood.tail_le
    refine ⟨hticket.stable h hgood, ?_, ?_⟩
    · exact (h.tickets k hlt hticket.popper).2.2.1.trans hpassed
    · rw [h.chain k (by omega)]
      exact hptr
  | popTakeValue headNext k => exact Ticket.stable h hgood hpc
  | popDropNext headNext val k =>
    obtain ⟨hclaimed, htaken, hdone, hptr⟩ := hpc
    have hlt := hclaimed.lt
    have hle := hgood.head_le_tail.trans hgood.tail_le
    obtain ⟨-, -, -, hdone', htaken'⟩ := h.tickets k hlt hclaimed.popper
    refine ⟨hclaimed.stable h hgood, htaken'.trans htaken, hdone'.trans hdone, ?_⟩
    rw [h.chain (k + 1) (by omega)]
    exact hptr
  | popNull sawEmpty => exact hpc
  | poolLoadTop a after => exact ⟨(h.held a hpc.1).1, hpc.2.stable h hgood⟩
  | poolLoadOwn a oldTop after =>
    exact ⟨(h.held a hpc.1).1, hpc.2.1.stable h.top, hpc.2.2.stable h hgood⟩
  | poolStore a oldTop oldNext after =>
    obtain ⟨hplace, hnode⟩ := h.held a hpc.1
    exact ⟨hplace, hpc.2.1.stable h.top, by rw [hnode]; exact hpc.2.2.1, hpc.2.2.2.stable h hgood⟩
  | poolCas a oldTop oldNext after =>
    obtain ⟨hplace, hnode⟩ := h.held a hpc.1
    exact ⟨hplace, hpc.2.1.stable h.top, by rw [hnode]; exact hpc.2.2.1, hpc.2.2.2.stable h hgood⟩
  | crash => exact hpc
  | _ => trivial

end Stable

end CppConcur.LockFree.Queue
