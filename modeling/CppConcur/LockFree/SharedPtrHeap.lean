import CppConcur.LockFree.SharedPtr
import CppConcur.Logic.RefCount
import CppConcur.Logic.Worklist

/-!
# The handles inside an object, and assignment

`SharedPtr` as one thread uses it, over an explicit heap: a block holds the handles that are members of
its object, and to delete the block is to destroy them, which may delete further blocks in turn. The
handles of a program are all those it has constructed, whether they are variables or members.

A call of `Reset` is a task, and the tasks that wait are the calls that have not returned. Each use of a
handle that is destroyed, or of a block that is freed, is a fault. For objects without members this is the
`Reset` of the concurrent model, executed by a thread that runs alone.

Cells do not occur: `strong` and the stamps that the cells have collected for a block are there and stay
as they are. The members of an object are handles, and its destructor does nothing but destroy them.
-/

namespace CppConcur.LockFree.SharedPtr

open Logic

/-- What an assignment does, as far as the order of it matters. -/
inductive Heap.Event (Handle : Type*) where
  /-- `FetchAddTransient` on the counts of a block. -/
  | add (b : Addr) (n : Int)
  /-- A block is freed. -/
  | free (b : Addr)
  /-- The right-hand side is read. -/
  | read (x : Handle)
  deriving DecidableEq

/-- The handles that are constructed with their `block_`, and the blocks that are allocated with the
members of their object in the order in which they are destroyed, their counts, and the sum of the
stamps of the cells that hold them. -/
structure Heap (Handle : Type*) where
  handles : Finset Handle
  block : Handle → Option Addr
  blocks : Finset Addr
  members : Addr → List Handle
  counter : Addr → SplitCount
  stamps : Addr → Nat
  fault : Bool
  events : List (Heap.Event Handle)

namespace Heap

/-- The calls that have not returned. -/
inductive Task (Handle : Type*) where
  /-- `Reset` of a handle. -/
  | reset (x : Handle)
  /-- The rest of `Reset` after the block is dealt with: `block_ = nullptr`. -/
  | clear (x : Handle)
  /-- The lifetime of a handle ends after its destructor. -/
  | destroy (x : Handle)
  /-- The memory of a block is given back after the destructor of its object. -/
  | free (b : Addr)
  deriving DecidableEq

variable {Handle : Type*} [DecidableEq Handle]

section Operations

variable (h : Heap Handle)

/-- Use a handle. -/
def use (x : Handle) : Heap Handle := { h with fault := h.fault || decide (x ∉ h.handles) }

/-- Write `block_`. -/
def setBlock (x : Handle) (b : Option Addr) : Heap Handle :=
  { h.use x with block := Function.update h.block x b }

/-- `FetchAddTransient`. -/
def fetchAddTransient (b : Addr) (add : Int) : Heap Handle :=
  { h with
    counter := Function.update h.counter b ((h.counter b).1 + add, (h.counter b).2)
    fault := h.fault || decide (b ∉ h.blocks)
    events := h.events ++ [.add b add] }

/-- `~SharedPtr` of each member of an object. -/
def destructors (xs : List Handle) : List (Task Handle) := xs.flatMap fun x => [.reset x, .destroy x]

/-- Perform a task, with the calls it makes. -/
def step (h : Heap Handle) : Task Handle → Heap Handle × List (Task Handle)
  | .reset x =>
    match h.block x with
    | none => (h.use x, [])
    | some b =>
      let h' := (h.use x).fetchAddTransient b (-1)
      if h'.counter b = 0 then (h', destructors (h.members b) ++ [.free b, .clear x])
      else (h', [.clear x])
  | .clear x => (h.setBlock x none, [])
  | .destroy x => ({ h with handles := h.handles.erase x }, [])
  | .free b =>
    ({ h with
      blocks := h.blocks.erase b
      fault := h.fault || decide (b ∉ h.blocks)
      events := h.events ++ [.free b] }, [])

/-- `SharedPtr::Reset`. -/
def reset (fuel : Nat) (x : Handle) : Option (Heap Handle) := Worklist.run step fuel h [.reset x]

/-- Read `block_` of the right-hand side of an assignment. -/
def read (q : Handle) : Heap Handle := { h.use q with events := h.events ++ [.read q] }

/-- The statements of the copy assignment after `Reset`. -/
def copyFrom (p that : Handle) : Heap Handle :=
  match h.block that with
  | none => (h.read that).setBlock p none
  | some b => ((h.read that).setBlock p (some b)).fetchAddTransient b 1

/-- The statements of the move assignment after `Reset`. -/
def moveFrom (p that : Handle) : Heap Handle :=
  ((h.read that).setBlock p (h.block that)).setBlock that none

/-- `SharedPtr& operator=(const SharedPtr& that)`, with the events of this call. -/
def copyAssign (fuel : Nat) (p that : Handle) : Option (Heap Handle) :=
  (reset { h with events := [] } fuel p).map fun h => h.copyFrom p that

/-- `SharedPtr& operator=(SharedPtr&& that)`, with the events of this call. -/
def moveAssign (fuel : Nat) (p that : Handle) : Option (Heap Handle) :=
  (reset { h with events := [] } fuel p).map fun h => h.moveFrom p that

/-! ### What a heap should be -/

/-- The heap as a graph of handles. A block is pinned by the cells that hold it. -/
def graph : RefCount.Graph Handle Addr where
  handles := h.handles
  target := h.block
  blocks := h.blocks
  members := h.members
  pinned b := (h.counter b).2 ≠ 0

/-- The handles that a block counts: those counted in `transient`, and those that the stamps of the cells
account for. -/
def count (b : Addr) : Int := (h.counter b).1 + h.stamps b

/-- Every block counts the handles that refer to it. -/
def Balanced : Prop := ∀ b ∈ h.blocks, h.count b = (h.graph.refs b).card

/-- Handles refer to allocated blocks, the members of objects are handles of their own, and the counts
are right. -/
structure Intact : Prop where
  fault : h.fault = false
  mem_blocks : ∀ x ∈ h.handles, ∀ b, h.block x = some b → b ∈ h.blocks
  mem_handles : ∀ b ∈ h.blocks, ∀ x ∈ h.members b, x ∈ h.handles
  nodup : ∀ b ∈ h.blocks, (h.members b).Nodup
  disjoint : ∀ b ∈ h.blocks, ∀ c ∈ h.blocks, ∀ x ∈ h.members b, x ∈ h.members c → b = c
  stamps : ∀ b ∈ h.blocks, (h.counter b).2 = 0 → h.stamps b = 0
  balanced : h.Balanced

end Operations

/-! ### The tasks of an object's destruction -/

omit [DecidableEq Handle] in
@[simp] theorem mem_destructors {xs : List Handle} {t : Task Handle} :
    t ∈ destructors xs ↔ ∃ x ∈ xs, t = .reset x ∨ t = .destroy x := by
  simp [destructors]

omit [DecidableEq Handle] in
theorem nodup_destructors {xs : List Handle} (h : xs.Nodup) : (destructors xs).Nodup := by
  induction xs with
  | nil => exact List.nodup_nil
  | cons x xs ih =>
    obtain ⟨hx, hxs⟩ := List.nodup_cons.mp h
    have hnot : ∀ t ∈ destructors xs, t ≠ .reset x ∧ t ≠ .destroy x := by
      rintro t ht
      obtain ⟨y, hy, rfl | rfl⟩ := mem_destructors.mp ht <;> simp [ne_of_mem_of_not_mem hy hx]
    have htail := ih hxs
    simp only [destructors, List.flatMap_cons] at htail hnot ⊢
    grind

/-! ### `Reset` of a thread that runs alone -/

section Alone

variable {Cell : Type*} [DecidableEq Cell] {h : Heap Handle} {m : Mem Cell Handle} {x : Handle} {b : Addr}

/-- The memory of the concurrent operations holds the same handles and blocks. -/
structure Shows (h : Heap Handle) (m : Mem Cell Handle) : Prop where
  handle : ∀ x, m.handle x = if x ∈ h.handles then some (h.block x) else none
  counter : m.counter = h.counter
  live : ∀ b, m.live b = decide (b ∈ h.blocks)
  fault : m.fault = h.fault

/-- The steps of a thread that nobody disturbs. -/
def alone (c : Mem Cell Handle × Pc Cell Handle) : Mem Cell Handle × Pc Cell Handle :=
  SharedPtr.step c.1 ⟨false, 0⟩ c.2

omit [DecidableEq Cell] [DecidableEq Handle] in
theorem touch_touch (m : Mem Cell Handle) (b : Addr) : (m.touch b).touch b = m.touch b := by
  simp [Mem.touch]

theorem use_of_mem (hx : x ∈ h.handles) : h.use x = h := by
  simp [use, hx]

omit [DecidableEq Cell] in
theorem Shows.setHandle (hs : Shows h m) (hx : x ∈ h.handles) (p : Option Addr) :
    Shows (h.setBlock x p) (m.setHandle x (some p)) where
  handle y := by
    by_cases hy : y = x
    · subst hy
      simp [setBlock, use, Mem.setHandle, hx]
    · simpa [setBlock, use, Mem.setHandle, hy] using hs.handle y
  counter := hs.counter
  live := hs.live
  fault := by simp [setBlock, use, Mem.setHandle, hx, hs.fault]

omit [DecidableEq Cell] in
theorem Shows.setCounter (hs : Shows h m) (b : Addr) (add : Int) :
    Shows (h.fetchAddTransient b add) ((m.touch b).setCounter b (m.counter b + (add, 0))) where
  handle := hs.handle
  counter := by
    have hsum : h.counter b + (add, 0) = ((h.counter b).1 + add, (h.counter b).2) := by simp [Prod.ext_iff]
    simp only [fetchAddTransient, Mem.setCounter, Mem.touch, hs.counter, hsum]
  live := hs.live
  fault := by simp [fetchAddTransient, Mem.setCounter, Mem.touch, hs.fault, hs.live]

omit [DecidableEq Cell] in
theorem Shows.free (hs : Shows h m) (b : Addr) :
    Shows (step h (.free b)).1 { m.touch b with live := Function.update m.live b false } where
  handle := hs.handle
  counter := hs.counter
  live c := by
    by_cases hc : c = b
    · subst hc
      simp [step]
    · simpa [step, hc] using hs.live c
  fault := by simp [step, Mem.touch, hs.fault, hs.live]

/-- `Reset` on the heap is `Reset` as the concurrent model has it, for objects that have no members. -/
theorem reset_alone (hs : Shows h m) (hx : x ∈ h.handles) (hmembers : ∀ b, h.members b = []) :
    ∃ h' k m', h.reset 4 x = some h' ∧ alone^[k] (resetHandle m x .ret) = (m', .idle) ∧ Shows h' m' := by
  have hhandle : m.handle x = some (h.block x) := by rw [hs.handle, if_pos hx]
  cases hxb : h.block x with
  | none =>
    refine ⟨h, 0, m, ?_, ?_, hs⟩
    · simp [reset, step, hxb, use_of_mem hx]
    · simp [resetHandle, hhandle, hxb, finish]
  | some b =>
    have hcounted := hs.setCounter b (-1)
    have hshown := hcounted.setHandle hx none
    have hadd : alone^[2] (resetHandle m x .ret) =
        deleteIfZero (((m.touch b).setCounter b (m.counter b + (-1, 0))).setHandle x (some none)) b .ret := by
      have hload : (m.touch b).counter b = m.counter b := rfl
      simp [alone, resetHandle, hhandle, hxb, SharedPtr.fetchAddTransient, SharedPtr.step, resume, touch_touch, hload]
    by_cases hzero : (h.fetchAddTransient b (-1)).counter b = 0
    · -- The heap frees the block before it clears the handle, the other model after that.
      refine ⟨_, 3, _, ?_, ?_, hshown.free b⟩
      · have hfirst : step h (.reset x) = (h.fetchAddTransient b (-1), [.free b, .clear x]) := by
          simp [step, hxb, use_of_mem hx, hzero, hmembers, destructors]
        rw [reset, Worklist.run_cons, hfirst]
        simp [step, setBlock, use, fetchAddTransient, hx]
      · have hdelete : (((m.touch b).setCounter b (m.counter b + (-1, 0))).setHandle x (some none)).counter b = 0 :=
          (congrFun hshown.counter b).trans hzero
        rw [Function.iterate_succ_apply', hadd, deleteIfZero, if_pos hdelete]
        rfl
    · refine ⟨_, 2, _, ?_, ?_, hshown⟩
      · simp [reset, step, hxb, use_of_mem hx, hzero]
      · have hkeep : (((m.touch b).setCounter b (m.counter b + (-1, 0))).setHandle x (some none)).counter b ≠ 0 :=
          (congrFun hshown.counter b).trans_ne hzero
        rw [hadd, deleteIfZero, if_neg hkeep]
        rfl

end Alone

end Heap

end CppConcur.LockFree.SharedPtr
