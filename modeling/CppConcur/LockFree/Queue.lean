import CppConcur.Logic.Transition
import CppConcur.LockFree.StampedPtr

/-!
# The lock-free queue

`LockFreeQueue`: the queue of Michael and Scott over nodes that are recycled through a `LockFreePool`.
Each step of `step` is one atomic access of the source (or one access to a field that a single thread
holds at that time), with the private computation that follows it. A `Choice` fixes what the source
leaves open: whether a `compare_exchange_weak` fails spuriously, which address `new Node` returns, and
what moving a value out of a node leaves behind.

The histories are `pushed`, the values in the order of the compare-exchanges that link their nodes, and
`popped`, one entry for every successful compare-exchange on `head_` in the order they happen: `none`
until the `TryPop` that made it has returned, then the value it returned. A `TryPop` also records, when
it loads the successor of the head, whether the queue is empty at that instant.
-/

namespace CppConcur.LockFree.Queue

/-- Addresses of nodes. -/
abbrev Addr := Nat

/-- `detail::Node`. -/
structure Node (T : Type*) where
  value : Option T
  next : AtomicStampedPtr Addr
  tryDelCount : Nat

/-- A node as `new Node(value)` leaves it. -/
def Node.new {T : Type*} (value : Option T) : Node T := ⟨value, ⟨⟨none, 0⟩, 0⟩, 0⟩

namespace Node

variable {T : Type*} (n : Node T)

/-- Write `value`. -/
def setValue (value : Option T) : Node T := { n with value := value }

/-- Write `next`. -/
def storeNext (p : StampedPtr Addr) : Node T := { n with next := n.next.store p }

/-- Increment `try_del_count`. -/
def bumpTryDel : Node T := { n with tryDelCount := n.tryDelCount + 1 }

end Node

/-- The fields of the queue and of its pool, the nodes, and the histories. -/
structure Mem (T : Type*) where
  head : AtomicStampedPtr Addr
  tail : AtomicStampedPtr Addr
  top : AtomicStampedPtr Addr
  node : Addr → Node T
  allocated : Addr → Bool
  pushed : List T
  popped : List (Option (Option T))

variable {T : Type*}

/-- What the constructor leaves, with the dummy node at a given address. -/
def Mem.new (dummy : Addr) : Mem T where
  head := ⟨⟨some dummy, 0⟩, 0⟩
  tail := ⟨⟨some dummy, 0⟩, 0⟩
  top := ⟨⟨none, 0⟩, 0⟩
  node := fun _ => { Node.new none with tryDelCount := 1 }
  allocated := fun a => a = dummy
  pushed := []
  popped := []

/-- The queue holds no value: every linked value has been claimed. -/
def Mem.isEmpty (m : Mem T) : Bool := m.popped.length = m.pushed.length

/-- What is left of a `TryPop` after `ToPool` has returned. -/
inductive After (T : Type*) where
  | takeValue (headNext : Loaded Addr) (ticket : Nat)
  | ret (val : Option T) (ticket : Nat)

/-- Where a thread is in `Push` or `TryPop`, with its local variables. -/
inductive Pc (T : Type*) where
  | idle
  | newLoadTop (value : T)
  | newLoadNext (value : T) (currTop : Loaded Addr)
  | newCasTop (value : T) (currTop next : Loaded Addr)
  | newAlloc (value : T)
  | newSetValue (value : T) (newNode : Addr)
  | newLoadOwn (value : T) (newNode : Addr)
  | newStoreOwn (value : T) (newNode : Addr) (oldNext : Loaded Addr)
  | pushLoadTail (value : T) (newNode : Addr)
  | pushLoadNext (value : T) (newNode : Addr) (oldTail : Loaded Addr)
  | pushCheckTail (value : T) (newNode : Addr) (oldTail oldTailNext : Loaded Addr)
  | pushLink (value : T) (newNode : Addr) (oldTail oldTailNext : Loaded Addr)
  | pushHelp (value : T) (newNode : Addr) (oldTail oldTailNext : Loaded Addr)
  | pushSwing (newNode : Addr) (oldTail : Loaded Addr)
  | pushRet
  | popLoadHead
  | popLoadNext (headOld : Loaded Addr)
  | popLoadTail (headOld headNext : Loaded Addr) (sawEmpty : Bool)
  | popCheckHead (headOld headNext tailOld : Loaded Addr) (sawEmpty : Bool)
  | popCasHead (headOld headNext : Loaded Addr)
  | popHelp (headNext tailOld : Loaded Addr)
  | popDropHead (headOld headNext : Loaded Addr) (ticket : Nat)
  | popTakeValue (headNext : Loaded Addr) (ticket : Nat)
  | popDropNext (headNext : Loaded Addr) (val : Option T) (ticket : Nat)
  | popRet (val : Option T)
  | popNull (sawEmpty : Bool)
  | poolLoadTop (node : Addr) (after : After T)
  | poolLoadOwn (node : Addr) (oldTop : Loaded Addr) (after : After T)
  | poolStore (node : Addr) (oldTop oldNext : Loaded Addr) (after : After T)
  | poolCas (node : Addr) (oldTop oldNext : Loaded Addr) (after : After T)
  | crash

/-- What the source leaves open at a step. -/
structure Choice (T : Type*) where
  spurious : Bool
  addr : Addr
  moved : Option T

namespace Mem

variable (m : Mem T)

/-- Write one node. -/
def setNode (a : Addr) (n : Node T) : Mem T := { m with node := Function.update m.node a n }

/-- Link a node that carries a value behind another one. -/
def link (a : Addr) (p : StampedPtr Addr) (value : T) : Mem T :=
  { m with node := Function.update m.node a ((m.node a).storeNext p), pushed := m.pushed ++ [value] }

/-- Whether `try_del_count.fetch_add(1) % 2 == 1`. -/
def lastTryDel (a : Addr) : Bool := (m.node a).tryDelCount % 2 = 1

end Mem

/-- The return of a `TryPop` that has claimed a value. -/
def Mem.record (m : Mem T) (val : Option T) (ticket : Nat) : Mem T :=
  { m with popped := m.popped.set ticket (some val) }

/-- Continue a `TryPop` after `ToPool`, or after it was not the thread that recycles. -/
def resume (m : Mem T) : After T → Mem T × Pc T
  | .takeValue headNext ticket => (m, .popTakeValue headNext ticket)
  | .ret val ticket => (m.record val ticket, .popRet val)

/-- One atomic step of `Push` or `TryPop`. -/
def step (m : Mem T) (choice : Choice T) : Pc T → Mem T × Pc T
  -- `NewNode`: take a node from the pool or allocate one
  | .newLoadTop value =>
      if m.top.value.rawPtr = none then (m, .newAlloc value) else (m, .newLoadNext value m.top.load)
  | .newLoadNext value currTop =>
      match currTop.value.rawPtr with
      | some a => (m, .newCasTop value currTop (m.node a).next.load)
      | none => (m, .crash)
  | .newCasTop value currTop next =>
      match currTop.value.rawPtr with
      | some a =>
          if m.top.Matches currTop ∧ choice.spurious = false then
            ({ m with top := m.top.store ⟨next.value.rawPtr, currTop.value.stamp + 1⟩ }, .newSetValue value a)
          else (m, .newLoadTop value)
      | none => (m, .crash)
  | .newAlloc value =>
      ({ m with
          node := Function.update m.node choice.addr (Node.new (some value))
          allocated := Function.update m.allocated choice.addr true }, .pushLoadTail value choice.addr)
  | .newSetValue value a => (m.setNode a ((m.node a).setValue (some value)), .newLoadOwn value a)
  | .newLoadOwn value a => (m, .newStoreOwn value a (m.node a).next.load)
  | .newStoreOwn value a oldNext => (m.setNode a ((m.node a).storeNext ⟨none, oldNext.value.stamp + 1⟩), .pushLoadTail value a)
  -- `Push`
  | .pushLoadTail value a => (m, .pushLoadNext value a m.tail.load)
  | .pushLoadNext value a oldTail =>
      match oldTail.value.rawPtr with
      | some b => (m, .pushCheckTail value a oldTail (m.node b).next.load)
      | none => (m, .crash)
  | .pushCheckTail value a oldTail oldTailNext =>
      if m.tail.value ≠ oldTail.value then (m, .pushLoadTail value a)
      else if oldTailNext.value.rawPtr = none then (m, .pushLink value a oldTail oldTailNext)
      else (m, .pushHelp value a oldTail oldTailNext)
  | .pushLink value a oldTail oldTailNext =>
      match oldTail.value.rawPtr with
      | some b =>
          if (m.node b).next.Matches oldTailNext ∧ choice.spurious = false then
            (m.link b ⟨some a, oldTailNext.value.stamp + 1⟩ value, .pushSwing a oldTail)
          else (m, .pushLoadTail value a)
      | none => (m, .crash)
  | .pushHelp value a oldTail oldTailNext =>
      if m.tail.Matches oldTail ∧ choice.spurious = false then
        ({ m with tail := m.tail.store ⟨oldTailNext.value.rawPtr, oldTail.value.stamp + 1⟩ }, .pushLoadTail value a)
      else (m, .pushLoadTail value a)
  | .pushSwing a oldTail =>
      if m.tail.Matches oldTail ∧ choice.spurious = false then
        ({ m with tail := m.tail.store ⟨some a, oldTail.value.stamp + 1⟩ }, .pushRet)
      else (m, .pushRet)
  -- `TryPop`
  | .popLoadHead => (m, .popLoadNext m.head.load)
  | .popLoadNext headOld =>
      match headOld.value.rawPtr with
      | some a => (m, .popLoadTail headOld (m.node a).next.load m.isEmpty)
      | none => (m, .crash)
  | .popLoadTail headOld headNext sawEmpty => (m, .popCheckHead headOld headNext m.tail.load sawEmpty)
  | .popCheckHead headOld headNext tailOld sawEmpty =>
      if m.head.value ≠ headOld.value then (m, .popLoadHead)
      else if headNext.value.rawPtr = none then
        if headOld.value.rawPtr ≠ tailOld.value.rawPtr then (m, .popLoadHead) else (m, .popNull sawEmpty)
      else if headOld.value.rawPtr ≠ tailOld.value.rawPtr then (m, .popCasHead headOld headNext)
      else (m, .popHelp headNext tailOld)
  | .popCasHead headOld headNext =>
      if m.head.Matches headOld ∧ choice.spurious = false then
        ({ m with
            head := m.head.store ⟨headNext.value.rawPtr, headOld.value.stamp + 1⟩
            popped := m.popped ++ [none] }, .popDropHead headOld headNext m.popped.length)
      else (m, .popLoadHead)
  | .popHelp headNext tailOld =>
      if m.tail.Matches tailOld ∧ choice.spurious = false then
        ({ m with tail := m.tail.store ⟨headNext.value.rawPtr, tailOld.value.stamp + 1⟩ }, .popLoadHead)
      else (m, .popLoadHead)
  | .popDropHead headOld headNext ticket =>
      match headOld.value.rawPtr with
      | some a =>
          if m.lastTryDel a then (m.setNode a (m.node a).bumpTryDel, .poolLoadTop a (.takeValue headNext ticket))
          else (m.setNode a (m.node a).bumpTryDel, .popTakeValue headNext ticket)
      | none => (m, .crash)
  | .popTakeValue headNext ticket =>
      match headNext.value.rawPtr with
      | some b =>
          (m.setNode b ((m.node b).setValue choice.moved), .popDropNext headNext (m.node b).value ticket)
      | none => (m, .crash)
  | .popDropNext headNext val ticket =>
      match headNext.value.rawPtr with
      | some b =>
          if m.lastTryDel b then (m.setNode b (m.node b).bumpTryDel, .poolLoadTop b (.ret val ticket))
          else resume (m.setNode b (m.node b).bumpTryDel) (.ret val ticket)
      | none => (m, .crash)
  -- `ToPool`
  | .poolLoadTop a after => (m, .poolLoadOwn a m.top.load after)
  | .poolLoadOwn a oldTop after => (m, .poolStore a oldTop (m.node a).next.load after)
  | .poolStore a oldTop oldNext after =>
      (m.setNode a ((m.node a).storeNext ⟨oldTop.value.rawPtr, oldNext.value.stamp + 1⟩),
        .poolCas a oldTop oldNext after)
  | .poolCas a oldTop oldNext after =>
      if m.top.Matches oldTop ∧ choice.spurious = false then
        resume { m with top := m.top.store ⟨some a, oldTop.value.stamp + 1⟩ } after
      else (m, .poolStore a m.top.load oldNext after)
  | pc => (m, pc)

/-- The assumption on stamps: fewer than `2^16` writes to a cell between a thread's load of it and
the check or compare-exchange of that thread. -/
def Fresh (m : Mem T) : Pc T → Prop
  | .newCasTop _ currTop _ => m.top.Fresh currTop
  | .pushCheckTail _ _ oldTail _ => m.tail.Fresh oldTail
  | .pushLink _ _ oldTail oldTailNext => ∀ b, oldTail.value.rawPtr = some b → (m.node b).next.Fresh oldTailNext
  | .pushHelp _ _ oldTail _ => m.tail.Fresh oldTail
  | .pushSwing _ oldTail => m.tail.Fresh oldTail
  | .popCheckHead headOld _ _ _ => m.head.Fresh headOld
  | .popCasHead headOld _ => m.head.Fresh headOld
  | .popHelp _ tailOld => m.tail.Fresh tailOld
  | .poolCas _ oldTop _ _ => m.top.Fresh oldTop
  | _ => True

/-- A thread that is in no operation. -/
def Pc.Outside : Pc T → Prop
  | .idle | .pushRet | .popRet _ | .popNull _ => True
  | _ => False

/-- The actions of a thread: call `Push` or `TryPop`, or do the next step of the call it is in. An
allocation returns an address that is not in use. -/
inductive Act (m : Mem T) : Pc T → Mem T → Pc T → Prop
  | push {pc : Pc T} (hout : pc.Outside) (value : T) : Act m pc m (.newLoadTop value)
  | tryPop {pc : Pc T} (hout : pc.Outside) : Act m pc m .popLoadHead
  | step {pc : Pc T} (choice : Choice T) (hfresh : Fresh m pc)
      (halloc : ∀ value, pc = .newAlloc value → m.allocated choice.addr = false) :
      Act m pc (step m choice pc).1 (step m choice pc).2

/-- Any number of threads on one queue. -/
def system (T : Type*) (Tid : Type*) [DecidableEq Tid] : Logic.System (Logic.Conf Tid (Mem T) (Pc T)) :=
  Logic.Program.system (fun _ m pc m' pc' => Act m pc m' pc')
    (fun c => (∃ dummy, c.mem = Mem.new dummy) ∧ ∀ t, c.pc t = .idle)

end CppConcur.LockFree.Queue
