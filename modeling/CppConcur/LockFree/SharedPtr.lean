import CppConcur.Logic.Transition
import CppConcur.LockFree.StampedPtr
import Mathlib.Algebra.Group.Prod
import Mathlib.Algebra.Ring.Int.Defs

/-!
# Shared pointers with a split reference count

`SharedPtr` and `AtomicSharedPtr`. A block carries a pair of counts in one word: `strong` counts the
cells that point at it, and `transient` together with the stamps of these cells counts the handles. A
`Load` of a cell increments the stamp only; what a cell has collected in its stamp is added to
`transient` when the cell gives the block up, or when the stamp has become large.

Each step is one atomic access of the source with the private computation that follows it. A handle is
an object that a caller owns: `none` is an object that has not been constructed or has been destroyed.
Callers use handles as C++ requires: two operations run on one handle at the same time only if both
copy from it. A parameter that is passed by value is a handle of its own that the operation destroys.

Stamps stay below `2^16` and the counts do not overflow, so a packed word is the stamped pointer it
holds and a count is an integer.
-/

namespace CppConcur.LockFree.SharedPtr

/-- Addresses of blocks. -/
abbrev Addr := Nat

/-- `detail::SplitCount`: `transient` and `strong`. -/
abbrev SplitCount := Int × Int

/-- The cells, the handles and the blocks. `fault` is set when a block that is not live is used or
deleted. -/
structure Mem (Cell Handle : Type*) where
  cell : Cell → StampedPtr Addr
  handle : Handle → Option (Option Addr)
  counter : Addr → SplitCount
  live : Addr → Bool
  fault : Bool

variable {Cell Handle : Type*}

/-- Cells that hold a null pointer, no handles and no blocks. -/
def Mem.new : Mem Cell Handle where
  cell := fun _ => ⟨none, 0⟩
  handle := fun _ => none
  counter := fun _ => 0
  live := fun _ => false
  fault := false

/-- What is left of an operation after the `Reset` of a handle or the cleanup of a cell's old value. -/
inductive Rest (Handle : Type*) where
  /-- Return. -/
  | ret
  /-- The handle just reset is being destroyed. -/
  | destroyed (h : Handle)
  /-- Destroy a parameter. -/
  | drop (h : Handle)
  /-- `expected = Load()`: assign what was loaded, then destroy the parameter `desired`. -/
  | assign (expected : Handle) (p : Option Addr) (desired : Handle)

/-- Where the result of `Load` goes. -/
inductive LoadTo (Handle : Type*) where
  | handle (h : Handle)
  | expected (expected desired : Handle)

/-- What follows a change of the counts of a block. -/
inductive Cont (Cell Handle : Type*) where
  /-- `MakeShared` (without a source) and the copy constructor. -/
  | handle (h : Handle) (source : Option Handle)
  | reset (h : Handle) (rest : Rest Handle)
  | exchange (c : Cell) (target : Option Handle)
  | cleanup (rest : Rest Handle)
  | cas (c : Cell) (expected desired : Handle) (old : StampedPtr Addr)
  | undo (c : Cell) (expected desired : Handle)
  | flush (c : Cell) (stamp : Nat) (dest : LoadTo Handle)
  | flushed (dest : LoadTo Handle)

/-- Where a thread is in an operation, with its local variables. -/
inductive Pc (Cell Handle : Type*) where
  | idle
  | make (h : Handle)
  | addLoad (b : Addr) (add : SplitCount) (k : Cont Cell Handle)
  | addCas (b : Addr) (add old : SplitCount) (k : Cont Cell Handle)
  | delete (b : Addr) (rest : Rest Handle)
  | incLoad (c : Cell) (dest : LoadTo Handle)
  | incCas (c : Cell) (old : StampedPtr Addr) (dest : LoadTo Handle)
  | flushCas (c : Cell) (b : Addr) (stamp : Nat) (dest : LoadTo Handle)
  | exchange (c : Cell) (target : Option Handle) (p : Option Addr)
  | casLoad (c : Cell) (expected desired : Handle)
  | cas (c : Cell) (expected desired : Handle) (p : Option Addr) (old : StampedPtr Addr)

/-! ### The private parts of the operations -/

/-- `FetchAddTransient`. -/
def fetchAddTransient (b : Addr) (add : Int) (k : Cont Cell Handle) : Pc Cell Handle := .addLoad b (add, 0) k

/-- `FetchAddStrong`. -/
def fetchAddStrong (b : Addr) (add : Int) (k : Cont Cell Handle) : Pc Cell Handle := .addLoad b (0, add) k

/-- `FetchAddTransientAndStrong`. -/
def fetchAddTransientAndStrong (b : Addr) (transientAdd strongAdd : Int) (k : Cont Cell Handle) : Pc Cell Handle :=
  .addLoad b (transientAdd, strongAdd) k

section Private

variable [DecidableEq Cell] [DecidableEq Handle] (m : Mem Cell Handle)

/-- Write the `block_` of a handle, or construct or destroy it. -/
def Mem.setHandle (h : Handle) (p : Option (Option Addr)) : Mem Cell Handle :=
  { m with handle := Function.update m.handle h p }

/-- Write a cell. -/
def Mem.setCell (c : Cell) (p : StampedPtr Addr) : Mem Cell Handle :=
  { m with cell := Function.update m.cell c p }

/-- Access the counts of a block. -/
def Mem.setCounter (b : Addr) (count : SplitCount) : Mem Cell Handle :=
  { m with counter := Function.update m.counter b count }

/-- Use a block. -/
def Mem.touch (b : Addr) : Mem Cell Handle := { m with fault := m.fault || !m.live b }

/-- `~SharedPtr`. -/
def dropHandle (h : Handle) : Mem Cell Handle × Pc Cell Handle :=
  match m.handle h with
  | some (some b) => (m, fetchAddTransient b (-1) (.reset h (.destroyed h)))
  | _ => (m.setHandle h none, .idle)

/-- Return from an operation. -/
def finish : Rest Handle → Mem Cell Handle × Pc Cell Handle
  | .ret => (m, .idle)
  | .destroyed h => (m.setHandle h none, .idle)
  | .drop h => dropHandle m h
  | .assign expected p desired => dropHandle (m.setHandle expected (some p)) desired

/-- `SharedPtr::Reset`. -/
def resetHandle (h : Handle) (rest : Rest Handle) : Mem Cell Handle × Pc Cell Handle :=
  match m.handle h with
  | some (some b) => (m, fetchAddTransient b (-1) (.reset h rest))
  | _ => finish m rest

/-- `AtomicSharedPtr::CleanupStampedBlock`. -/
def cleanupStampedBlock (sp : StampedPtr Addr) (rest : Rest Handle) : Mem Cell Handle × Pc Cell Handle :=
  match sp.rawPtr with
  | none => finish m rest
  | some b => (m, fetchAddTransientAndStrong b sp.stamp (-1) (.cleanup rest))

/-- The end of `AtomicSharedPtr::Load`. -/
def loaded (p : Option Addr) : LoadTo Handle → Mem Cell Handle × Pc Cell Handle
  | .handle h => (m.setHandle h (some p), .idle)
  | .expected expected desired => resetHandle m expected (.assign expected p desired)

/-- `AtomicSharedPtr::TryUpdateTransient`, up to its compare-exchange. -/
def tryUpdateTransient (c : Cell) (old : StampedPtr Addr) (dest : LoadTo Handle) : Mem Cell Handle × Pc Cell Handle :=
  match old.rawPtr with
  | none => loaded m none dest
  | some b => (m, fetchAddTransientAndStrong b old.stamp 1 (.flush c old.stamp dest))

/-- Delete a block if both counts are zero. -/
def deleteIfZero (b : Addr) (rest : Rest Handle) : Mem Cell Handle × Pc Cell Handle :=
  if m.counter b = 0 then (m, .delete b rest) else finish m rest

/-- Continue after the counts of a block have been changed. -/
def resume (b : Addr) : Cont Cell Handle → Mem Cell Handle × Pc Cell Handle
  | .handle h _ => (m.setHandle h (some (some b)), .idle)
  | .reset h rest => deleteIfZero (m.setHandle h (some none)) b rest
  | .exchange c target => (m, .exchange c target (some b))
  | .cleanup rest => deleteIfZero m b rest
  | .cas c expected desired old => (m, .cas c expected desired (some b) old)
  | .undo c expected desired => (m, .incLoad c (.expected expected desired))
  | .flush c stamp dest => (m, .flushCas c b stamp dest)
  | .flushed dest => loaded m (some b) dest

/-- The end of a parameter that is passed by value; `none` is the null pointer that `~AtomicSharedPtr` stores. -/
def Rest.ofTarget : Option Handle → Rest Handle
  | none => .ret
  | some h => .drop h

end Private

/-! ### The steps -/

/-- What the source leaves open at a step: whether a weak compare-exchange fails, and the address that
an allocation returns. -/
structure Choice where
  spurious : Bool
  addr : Addr

section Steps

variable [DecidableEq Cell] [DecidableEq Handle] (m : Mem Cell Handle)

/-- One atomic step of an operation. -/
def step (choice : Choice) : Pc Cell Handle → Mem Cell Handle × Pc Cell Handle
  | .idle => (m, .idle)
  | .make h =>
      ({ m with
          counter := Function.update m.counter choice.addr 0
          live := Function.update m.live choice.addr true }, fetchAddTransient choice.addr 1 (.handle h none))
  -- the loop of `FetchAddTransientAndStrong`
  | .addLoad b add k => (m.touch b, .addCas b add (m.counter b) k)
  | .addCas b add old k =>
      if m.counter b = old ∧ choice.spurious = false then
        resume ((m.touch b).setCounter b (old + add)) b k
      else (m.touch b, .addCas b add (m.counter b) k)
  | .delete b rest => finish { m.touch b with live := Function.update m.live b false } rest
  -- `Load`, with the loop of `FetchIncrement`
  | .incLoad c dest => (m, .incCas c (m.cell c) dest)
  | .incCas c old dest =>
      if m.cell c = old ∧ choice.spurious = false then
        if old.stamp + 1 > 10000 then
          tryUpdateTransient (m.setCell c ⟨old.rawPtr, old.stamp + 1⟩) c ⟨old.rawPtr, old.stamp + 1⟩ dest
        else loaded (m.setCell c ⟨old.rawPtr, old.stamp + 1⟩) old.rawPtr dest
      else (m, .incCas c (m.cell c) dest)
  | .flushCas c b stamp dest =>
      if m.cell c = ⟨some b, stamp⟩ ∧ choice.spurious = false then
        (m.setCell c ⟨some b, 0⟩, fetchAddStrong b (-1) (.flushed dest))
      else (m, fetchAddTransientAndStrong b (-stamp) (-1) (.flushed dest))
  -- `Store`
  | .exchange c target p => cleanupStampedBlock (m.setCell c ⟨p, 0⟩) (m.cell c) (.ofTarget target)
  -- `CompareExchangeWeak`
  | .casLoad c expected desired =>
      let old : StampedPtr Addr := ⟨(m.handle expected).getD none, (m.cell c).stamp⟩
      match m.handle desired with
      | some (some b) => (m, fetchAddStrong b 1 (.cas c expected desired old))
      | _ => (m, .cas c expected desired none old)
  | .cas c expected desired p old =>
      if m.cell c = old ∧ choice.spurious = false then
        cleanupStampedBlock (m.setCell c ⟨p, 0⟩) old (.drop desired)
      else
        match p with
        | some b => (m, fetchAddStrong b (-1) (.undo c expected desired))
        | none => (m, .incLoad c (.expected expected desired))

/-- The operations a thread can call. -/
inductive Call (Cell Handle : Type*) where
  | construct (h : Handle)
  | makeShared (h : Handle)
  | copy (h source : Handle)
  | move (h source : Handle)
  | reset (h : Handle)
  | destroy (h : Handle)
  | load (c : Cell) (h : Handle)
  | store (c : Cell) (target : Handle)
  | destroyCell (c : Cell)
  | compareExchangeWeak (c : Cell) (expected desired : Handle)

/-- The call of an operation, up to its first atomic access. -/
def call : Call Cell Handle → Mem Cell Handle × Pc Cell Handle
  | .construct h => (m.setHandle h (some none), .idle)
  | .makeShared h => (m, .make h)
  | .copy h source =>
      match m.handle source with
      | some (some b) => (m, fetchAddTransient b 1 (.handle h (some source)))
      | _ => (m.setHandle h (some none), .idle)
  | .move h source => ((m.setHandle h (m.handle source)).setHandle source (some none), .idle)
  | .reset h => resetHandle m h .ret
  | .destroy h => dropHandle m h
  | .load c h => (m, .incLoad c (.handle h))
  | .store c target =>
      match m.handle target with
      | some (some b) => (m, fetchAddStrong b 1 (.exchange c (some target)))
      | _ => (m, .exchange c (some target) none)
  | .destroyCell c => (m, .exchange c none none)
  | .compareExchangeWeak c expected desired => (m, .casLoad c expected desired)

end Steps

/-! ### Who uses a handle -/

namespace Rest

/-- The handles that the rest of an operation writes. -/
def Writes : Rest Handle → Handle → Prop
  | .ret, _ => False
  | .destroyed h', h => h = h'
  | .drop h', h => h = h'
  | .assign expected _ desired, h => h = expected ∨ h = desired

end Rest

/-- The handles that receive what is loaded. -/
def LoadTo.Writes : LoadTo Handle → Handle → Prop
  | .handle h', h => h = h'
  | .expected e d, h => h = e ∨ h = d

/-- The handles that are written after a change of counts. -/
def Cont.Writes : Cont Cell Handle → Handle → Prop
  | .handle h' _, h => h = h'
  | .reset h' rest, h => h = h' ∨ rest.Writes h
  | .exchange _ target, h => target = some h
  | .cleanup rest, h => rest.Writes h
  | .cas _ expected desired _, h => h = expected ∨ h = desired
  | .undo _ expected desired, h => h = expected ∨ h = desired
  | .flush _ _ dest, h => dest.Writes h
  | .flushed dest, h => dest.Writes h

namespace Pc

/-- The handles that only the operation of this thread may use. -/
def Writes : Pc Cell Handle → Handle → Prop
  | .idle, _ => False
  | .make h', h => h = h'
  | .addLoad _ _ k, h => k.Writes h
  | .addCas _ _ _ k, h => k.Writes h
  | .delete _ rest, h => rest.Writes h
  | .incLoad _ dest, h => dest.Writes h
  | .incCas _ _ dest, h => dest.Writes h
  | .flushCas _ _ _ dest, h => dest.Writes h
  | .exchange _ target _, h => target = some h
  | .casLoad _ expected desired, h => h = expected ∨ h = desired
  | .cas _ expected desired _ _, h => h = expected ∨ h = desired

/-- The handles that the operation of this thread copies from. -/
def Reads : Pc Cell Handle → Handle → Prop
  | .addLoad _ _ (.handle _ source), h => source = some h
  | .addCas _ _ _ (.handle _ source), h => source = some h
  | _, _ => False

end Pc

namespace Call

/-- The handles an operation constructs, changes or destroys. -/
def Writes : Call Cell Handle → Handle → Prop
  | .construct h', h | .makeShared h', h | .copy h' _, h | .reset h', h | .destroy h', h | .load _ h', h
  | .store _ h', h => h = h'
  | .move h' source, h | .compareExchangeWeak _ h' source, h => h = h' ∨ h = source
  | .destroyCell _, _ => False

/-- The handles an operation copies from. -/
def Reads : Call Cell Handle → Handle → Prop
  | .copy _ source, h => h = source
  | _, _ => False

/-- The state of the handles that an operation requires: constructed or not yet constructed. -/
def Ready (m : Mem Cell Handle) : Call Cell Handle → Prop
  | .construct h | .makeShared h | .load _ h => m.handle h = none
  | .copy h source | .move h source => m.handle h = none ∧ m.handle source ≠ none
  | .reset h | .destroy h | .store _ h => m.handle h ≠ none
  | .destroyCell _ => True
  | .compareExchangeWeak _ expected desired =>
      expected ≠ desired ∧ m.handle expected ≠ none ∧ m.handle desired ≠ none

end Call

section System

variable {Tid : Type*} [DecidableEq Tid] [DecidableEq Cell] [DecidableEq Handle]

/-- An operation may start: its handles are in the state it requires and no other operation is in the way. -/
structure Allowed (s : Logic.Conf Tid (Mem Cell Handle) (Pc Cell Handle)) (t : Tid) (op : Call Cell Handle) : Prop where
  idle : s.pc t = .idle
  ready : op.Ready s.mem
  writes : ∀ h, op.Writes h → ∀ u, ¬ (s.pc u).Writes h ∧ ¬ (s.pc u).Reads h
  reads : ∀ h, op.Reads h → ∀ u, ¬ (s.pc u).Writes h

/-- The actions of a thread: call an operation, or do the next step of the operation it is in. An
allocation returns an address that is not in use, and the stamps of the cells stay below `2^16`. -/
inductive Act (s : Logic.Conf Tid (Mem Cell Handle) (Pc Cell Handle)) (t : Tid) :
    Mem Cell Handle → Pc Cell Handle → Prop
  | call (op : Call Cell Handle) (hallowed : Allowed s t op) : Act s t (call s.mem op).1 (call s.mem op).2
  | step (choice : Choice) (halloc : ∀ h, s.pc t = .make h → s.mem.live choice.addr = false)
      (hstamp : ∀ c, ((step s.mem choice (s.pc t)).1.cell c).stamp < stamps) :
      Act s t (step s.mem choice (s.pc t)).1 (step s.mem choice (s.pc t)).2

/-- Any number of threads, cells and handles. -/
def system (Tid Cell Handle : Type*) [DecidableEq Tid] [DecidableEq Cell] [DecidableEq Handle] :
    Logic.System (Logic.Conf Tid (Mem Cell Handle) (Pc Cell Handle)) where
  init s := s = ⟨.new, fun _ => .idle⟩
  step s s' := ∃ t m' pc', Act s t m' pc' ∧ s' = ⟨m', Function.update s.pc t pc'⟩

end System

end CppConcur.LockFree.SharedPtr
