import CppConcur.Logic.Transition
import Mathlib.Data.List.Basic

/-!
# Hazard pointers and the lock-free stack

`LockFreeStack` with the hazard pointers it uses: `Push`, `TryPop` with `PtrGuard::Protect`,
`Mutator::Retire` and `Mutator::Scan`, and the destructor with `Mutator::CleanUp`. There are any number of
stacks; the hazard slots and the retired lists belong to threads and are shared by all of them.

Each step is one atomic operation of the source, one access to a node, or one deletion. An allocation
returns any address that is not in use, so addresses of freed nodes come back; a compare-exchange may
fail spuriously. A thread takes the next of the `kMaxThreads` thread states when it makes its first
mutator, and the process is aborted if there is none left.

Not part of the source: `ident` numbers the allocations, so that two nodes with one address are told
apart; `history` are the successful compare-exchanges on the tops, and `claimed` is the value of the node
the thread has popped; `guarded` is the node a thread holds protected, from the return of the `Protect`
that yielded it to the next store to the slot; `user` is the stack a thread operates on, and `destroyer`
the thread that has called the destructor of a stack. A stack is destroyed only when no thread uses it.
-/

namespace CppConcur.LockFree.Hazard

/-- The address of a node. -/
abbrev Addr := Nat

/-- `kMaxHazardPtrs`. -/
def maxHazardPtrs : Nat := 4

/-- `kMaxThreads`. -/
def maxThreads : Nat := 32

/-- `scan_freq_`. -/
def scanFreq : Nat := 8 * maxHazardPtrs * 2

/-- A successful compare-exchange on the top of a stack, with the number of the node and its value. -/
inductive Event (S α : Type*) where
  | push (s : S) (node : Nat) (value : α)
  | pop (s : S) (node : Nat) (value : α)

/-- The nodes, the tops of the stacks, `thread_states` and `thread_state_next_idx`, the thread-local
`thread_idx`, and the histories. -/
structure Mem (Tid S α : Type*) where
  alive : Addr → Bool
  value : Addr → α
  next : Addr → Option Addr
  top : S → Option Addr
  slot : Nat → Nat → Option Addr
  retired : Nat → List Addr
  nextIdx : Nat
  idx : Tid → Option Nat
  ident : Addr → Nat
  allocated : Nat
  history : List (Event S α)
  claimed : Tid → Option α
  guarded : Tid → Option Addr
  user : Tid → Option S
  destroyer : S → Option Tid

/-- Where a thread is, with its local variables. -/
inductive Pc (S α : Type*) where
  | idle
  -- `Push`
  | pushNew (s : S) (v : α)
  | pushLoad (s : S) (a : Addr)
  | pushCas (s : S) (a : Addr)
  -- `TryPop`
  | popMutator (s : S)
  | protectLoad (s : S)
  | protectSet (s : S) (obj : Option Addr)
  | protectCheck (s : S) (obj : Option Addr)
  | popNext (s : S) (a : Addr)
  | popCas (s : S) (a : Addr) (next : Option Addr)
  | popTake (a : Addr)
  | popRetire (a : Addr) (v : α)
  | scanSlot (v : α) (i j : Nat) (hazards : List Addr)
  | scanLoop (v : α) (k : Nat) (hazards : List Addr)
  | popReset (v : α)
  | popGuard (v : α)
  | popNull (sawEmpty : Bool)
  -- the destructor
  | destroyLoad (s : S)
  | destroyLoop (s : S) (curr : Option Addr)
  | destroyDelete (s : S) (curr : Addr) (next : Option Addr)
  | cleanUpMutator
  | cleanUp
  | aborted

variable {Tid S α : Type*} [DecidableEq Tid] [DecidableEq S]

/-- The nodes on a stack after these events, the top first. -/
def contents (s : S) (history : List (Event S α)) : List (Nat × α) :=
  history.foldl (fun nodes event =>
    match event with
    | .push s' node value => if s' = s then (node, value) :: nodes else nodes
    | .pop s' _ _ => if s' = s then nodes.tail else nodes) []

/-- The effect of `std::swap(retired[k], retired.back())` and `retired.pop_back()`. -/
def swapPop (retired : List Addr) (k : Nat) : List Addr :=
  match retired.getLast? with
  | none => retired
  | some last => (retired.set k last).dropLast

/-- The two loops of `Scan` over the slots of all thread states. -/
def scanNext (v : α) (i j : Nat) (hazards : List Addr) : Pc S α :=
  if j + 1 < maxHazardPtrs then .scanSlot v i (j + 1) hazards
  else if i + 1 < maxThreads then .scanSlot v (i + 1) 0 hazards
  else .scanLoop v 0 hazards

/-- `MakeMutator`: the index of the thread's state. -/
inductive MakeMutator (t : Tid) (m : Mem Tid S α) : Mem Tid S α → Prop
  | old {i : Nat} (hidx : m.idx t = some i) : MakeMutator t m m
  | new (hidx : m.idx t = none) (hroom : m.nextIdx < maxThreads) :
      MakeMutator t m { m with idx := Function.update m.idx t (some m.nextIdx), nextIdx := m.nextIdx + 1 }

/-- The actions of a thread. -/
inductive Act (t : Tid) (m : Mem Tid S α) : Pc S α → Mem Tid S α → Pc S α → Prop
  -- `Push`
  | push (s : S) (v : α) (hlive : m.destroyer s = none) :
      Act t m .idle { m with user := Function.update m.user t (some s) } (.pushNew s v)
  | pushNew {s : S} {v : α} (a : Addr) (hfree : m.alive a = false) :
      Act t m (.pushNew s v)
        { m with
          alive := Function.update m.alive a true
          value := Function.update m.value a v
          next := Function.update m.next a none
          ident := Function.update m.ident a m.allocated
          allocated := m.allocated + 1 } (.pushLoad s a)
  | pushLoad {s : S} {a : Addr} :
      Act t m (.pushLoad s a) { m with next := Function.update m.next a (m.top s) } (.pushCas s a)
  | pushCas {s : S} {a : Addr} (heq : m.top s = m.next a) :
      Act t m (.pushCas s a)
        { m with
          top := Function.update m.top s (some a)
          history := m.history ++ [.push s (m.ident a) (m.value a)]
          user := Function.update m.user t none } .idle
  | pushFail {s : S} {a : Addr} :
      Act t m (.pushCas s a) { m with next := Function.update m.next a (m.top s) } (.pushCas s a)
  -- `TryPop` and `Protect`
  | tryPop (s : S) (hlive : m.destroyer s = none) :
      Act t m .idle { m with user := Function.update m.user t (some s) } (.popMutator s)
  | popMutator {s : S} {m' : Mem Tid S α} (hmutator : MakeMutator t m m') : Act t m (.popMutator s) m' (.protectLoad s)
  | popAbort {s : S} (hidx : m.idx t = none) (hfull : maxThreads ≤ m.nextIdx) : Act t m (.popMutator s) m .aborted
  | protectLoad {s : S} : Act t m (.protectLoad s) m (.protectSet s (m.top s))
  | protectSet {s : S} {obj : Option Addr} {i : Nat} (hidx : m.idx t = some i) :
      Act t m (.protectSet s obj)
        { m with
          slot := Function.update m.slot i (Function.update (m.slot i) 0 obj)
          guarded := Function.update m.guarded t none } (.protectCheck s obj)
  | protectNull {s : S} (heq : m.top s = none) :
      Act t m (.protectCheck s none) m (.popNull (contents s m.history).isEmpty)
  | protectDone {s : S} {a : Addr} (heq : m.top s = some a) :
      Act t m (.protectCheck s (some a)) { m with guarded := Function.update m.guarded t (some a) } (.popNext s a)
  | protectAgain {s : S} {obj : Option Addr} (hne : m.top s ≠ obj) :
      Act t m (.protectCheck s obj) m (.protectSet s (m.top s))
  | popNext {s : S} {a : Addr} : Act t m (.popNext s a) m (.popCas s a (m.next a))
  | popCas {s : S} {a : Addr} {next : Option Addr} (heq : m.top s = some a) :
      Act t m (.popCas s a next)
        { m with
          top := Function.update m.top s next
          history := m.history ++ [.pop s (m.ident a) (m.value a)]
          claimed := Function.update m.claimed t (some (m.value a)) } (.popTake a)
  | popFail {s : S} {a : Addr} {next : Option Addr} : Act t m (.popCas s a next) m (.protectLoad s)
  | popTake {a : Addr} : Act t m (.popTake a) m (.popRetire a (m.value a))
  -- `Retire` and `Scan`
  | popRetire {a : Addr} {v : α} {i : Nat} (hidx : m.idx t = some i) :
      Act t m (.popRetire a v) { m with retired := Function.update m.retired i (m.retired i ++ [a]) }
        (if scanFreq < (m.retired i ++ [a]).length then .scanSlot v 0 0 [] else .popReset v)
  | scanSlot {v : α} {i j : Nat} {hazards : List Addr} :
      Act t m (.scanSlot v i j hazards) m (scanNext v i j ((m.slot i j).toList ++ hazards))
  | scanKeep {v : α} {k : Nat} {hazards : List Addr} {i : Nat} {a : Addr} (hidx : m.idx t = some i)
      (hentry : (m.retired i)[k]? = some a) (hhazard : a ∈ hazards) :
      Act t m (.scanLoop v k hazards) m (.scanLoop v (k + 1) hazards)
  | scanFree {v : α} {k : Nat} {hazards : List Addr} {i : Nat} {a : Addr} (hidx : m.idx t = some i)
      (hentry : (m.retired i)[k]? = some a) (hclear : a ∉ hazards) :
      Act t m (.scanLoop v k hazards)
        { m with
          alive := Function.update m.alive a false
          retired := Function.update m.retired i (swapPop (m.retired i) k) } (.scanLoop v k hazards)
  | scanDone {v : α} {k : Nat} {hazards : List Addr} {i : Nat} (hidx : m.idx t = some i)
      (hend : (m.retired i).length ≤ k) : Act t m (.scanLoop v k hazards) m (.popReset v)
  -- `Reset` and the destructor of the guard
  | popReset {v : α} {i : Nat} (hidx : m.idx t = some i) :
      Act t m (.popReset v)
        { m with
          slot := Function.update m.slot i (Function.update (m.slot i) 0 none)
          guarded := Function.update m.guarded t none } (.popGuard v)
  | popGuard {v : α} {i : Nat} (hidx : m.idx t = some i) :
      Act t m (.popGuard v)
        { m with
          slot := Function.update m.slot i (Function.update (m.slot i) 0 none)
          guarded := Function.update m.guarded t none
          user := Function.update m.user t none } .idle
  | popNull {sawEmpty : Bool} {i : Nat} (hidx : m.idx t = some i) :
      Act t m (.popNull sawEmpty)
        { m with
          slot := Function.update m.slot i (Function.update (m.slot i) 0 none)
          guarded := Function.update m.guarded t none
          user := Function.update m.user t none } .idle
  -- the destructor of a stack, and `CleanUp`
  | destroy (s : S) (hlive : m.destroyer s = none) (hunused : ∀ u, m.user u ≠ some s) :
      Act t m .idle { m with destroyer := Function.update m.destroyer s (some t) } (.destroyLoad s)
  | destroyLoad {s : S} : Act t m (.destroyLoad s) m (.destroyLoop s (m.top s))
  | destroyNode {s : S} {a : Addr} : Act t m (.destroyLoop s (some a)) m (.destroyDelete s a (m.next a))
  | destroyDelete {s : S} {a : Addr} {next : Option Addr} :
      Act t m (.destroyDelete s a next) { m with alive := Function.update m.alive a false } (.destroyLoop s next)
  | destroyDone {s : S} : Act t m (.destroyLoop s none) m .cleanUpMutator
  | cleanUpMutator {m' : Mem Tid S α} (hmutator : MakeMutator t m m') : Act t m .cleanUpMutator m' .cleanUp
  | cleanUpAbort (hidx : m.idx t = none) (hfull : maxThreads ≤ m.nextIdx) : Act t m .cleanUpMutator m .aborted
  | cleanUpFree {i : Nat} {a : Addr} {rest : List Addr} (hidx : m.idx t = some i) (hretired : m.retired i = a :: rest) :
      Act t m .cleanUp
        { m with
          alive := Function.update m.alive a false
          retired := Function.update m.retired i rest } .cleanUp
  | cleanUpDone {i : Nat} (hidx : m.idx t = some i) (hretired : m.retired i = []) : Act t m .cleanUp m .idle

/-- The state before the first operation: no node is allocated and the memory of nodes holds anything. -/
structure Initial (c : Logic.Conf Tid (Mem Tid S α) (Pc S α)) : Prop where
  alive : ∀ a, c.mem.alive a = false
  top : ∀ s, c.mem.top s = none
  slot : ∀ i j, c.mem.slot i j = none
  retired : ∀ i, c.mem.retired i = []
  nextIdx : c.mem.nextIdx = 0
  idx : ∀ t, c.mem.idx t = none
  allocated : c.mem.allocated = 0
  history : c.mem.history = []
  guarded : ∀ t, c.mem.guarded t = none
  user : ∀ t, c.mem.user t = none
  destroyer : ∀ s, c.mem.destroyer s = none
  pc : ∀ t, c.pc t = .idle

/-- Every interleaving of threads that operate on the stacks and destroy them. -/
def system (Tid S α : Type*) [DecidableEq Tid] [DecidableEq S] : Logic.System (Logic.Conf Tid (Mem Tid S α) (Pc S α)) :=
  Logic.Program.system Act Initial

end CppConcur.LockFree.Hazard
