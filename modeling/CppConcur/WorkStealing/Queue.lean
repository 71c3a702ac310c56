import CppConcur.Logic.Transition
import Mathlib.Algebra.Group.Nat.Defs
import Mathlib.Data.List.Basic

/-!
# The work-stealing queue

`WorkStealingQueue<Capacity>`: a ring buffer with one producer and any number of consumers. Each
step of `step` is one atomic load, store, `fetch_add` or compare-exchange of the source, together
with the private computation that follows it, so any interleaving of the steps of any threads is an
interleaving of the source at that granularity. The counters are 64-bit words: differences and sums
wrap as they do in the source.

A slot holds a `TaskBase*`, with `none` for the null pointer. The histories `pushed` and `handed`
are not part of the source: they record the tasks whose `TryPush` returned true, and the tasks the
consumers received in the order of the compare-exchanges on `head_` that claimed them.
-/

namespace CppConcur.WorkStealing

variable {α : Type*}

/-- The number of values of a `uint64_t`. -/
def word : Nat := 2 ^ 64

/-- Addition of `uint64_t`. -/
def add64 (x y : Nat) : Nat := (x + y) % word

/-- Subtraction of `uint64_t`, which wraps below zero. -/
def sub64 (x y : Nat) : Nat := (x + (word - y)) % word

/-- The shared memory of one queue: `head_`, `tail_`, `buffer_`, and the two histories. -/
structure Queue (α : Type*) where
  head : Nat
  tail : Nat
  buffer : Nat → Option α
  pushed : List α
  handed : List (Option α)

/-- A queue as its constructor leaves it. -/
def Queue.empty : Queue α where
  head := 0
  tail := 0
  buffer := fun _ => none
  pushed := []
  handed := []

/-- Where a thread is in an operation of the queue, with its local variables. -/
inductive Pc (α : Type*) where
  | idle
  | pushLoadTail (task : α)
  | pushLoadHead (task : α) (currentTail : Nat)
  | pushStore (task : α) (currentTail : Nat)
  | pushBump (task : α)
  | pushRet (ok : Bool)
  | popLoadHead
  | popLoadTail (oldHead : Nat)
  | popLoadSlot (oldHead : Nat)
  | popCas (oldHead : Nat) (task : Option α)
  | popRet (task : Option α)
  | grabLoadTail (out : List (Option α))
  | grabLoadHead (out : List (Option α)) (newHead : Nat)
  | grabCopy (out : List (Option α)) (oldHead newHead maxGrab i : Nat)
  | grabCas (out : List (Option α)) (oldHead newHead maxGrab : Nat)
  | grabRet (out : List (Option α)) (grabbed : Nat)
  | sizeLoadHead
  | sizeLoadTail (oldHead : Nat)
  | sizeRet (size : Nat)

/-- The loop at the end of `Grab` that moves the claimed tasks to the front of the output buffer. -/
def shift (out : List (Option α)) (offset : Nat) : Nat → List (Option α)
  | 0 => out
  | i + 1 => (shift out offset i).set i ((shift out offset i).getD (offset + i) none)

/-- The head of the inner loop of `Grab`: claim while tasks of the copied range are left, else start over. -/
def grabLoop (out : List (Option α)) (oldHead newHead maxGrab : Nat) : Pc α :=
  if oldHead < newHead then .grabCas out oldHead newHead maxGrab else .grabLoadTail out

/-- One atomic step of `TryPush`, `TryPop`, `Grab` or `SizeEstimate`. -/
def step (cap : Nat) (q : Queue α) : Pc α → Queue α × Pc α
  | .pushLoadTail task => (q, .pushLoadHead task q.tail)
  | .pushLoadHead task currentTail =>
      if sub64 currentTail q.head = cap then (q, .pushRet false) else (q, .pushStore task currentTail)
  | .pushStore task currentTail =>
      ({ q with buffer := Function.update q.buffer (currentTail % cap) (some task) }, .pushBump task)
  | .pushBump task => ({ q with tail := add64 q.tail 1, pushed := q.pushed ++ [task] }, .pushRet true)
  | .popLoadHead => (q, .popLoadTail q.head)
  | .popLoadTail oldHead => if q.tail = oldHead then (q, .popRet none) else (q, .popLoadSlot oldHead)
  | .popLoadSlot oldHead => (q, .popCas oldHead (q.buffer (oldHead % cap)))
  | .popCas oldHead task =>
      if q.head = oldHead then
        ({ q with head := add64 oldHead 1, handed := q.handed ++ [task] }, .popRet task)
      else (q, .popLoadTail q.head)
  | .grabLoadTail out => (q, .grabLoadHead out q.tail)
  | .grabLoadHead out newHead =>
      let maxGrab := min out.length (sub64 newHead q.head)
      if maxGrab = 0 then (q, .grabRet out 0)
      else (q, .grabCopy out q.head (min newHead (add64 q.head maxGrab)) maxGrab 0)
  | .grabCopy out oldHead newHead maxGrab i =>
      let out' := out.set i (q.buffer (add64 oldHead i % cap))
      if i + 1 < maxGrab then (q, .grabCopy out' oldHead newHead maxGrab (i + 1))
      else (q, grabLoop out' oldHead newHead maxGrab)
  | .grabCas out oldHead newHead maxGrab =>
      if q.head = oldHead then
        let grabbed := sub64 newHead oldHead
        let out' := shift out (maxGrab - grabbed) grabbed
        ({ q with head := newHead, handed := q.handed ++ out'.take grabbed }, .grabRet out' grabbed)
      else (q, grabLoop out q.head newHead maxGrab)
  | .sizeLoadHead => (q, .sizeLoadTail q.head)
  | .sizeLoadTail oldHead => (q, .sizeRet (sub64 q.tail oldHead))
  | pc => (q, pc)

/-- A thread outside the operations: it has not called one yet or the last one has returned. -/
def Pc.Outside : Pc α → Prop
  | .idle | .pushRet _ | .popRet _ | .grabRet _ _ | .sizeRet _ => True
  | _ => False

/-- The start of a call. Only the producer calls `TryPush`; the output buffer of `Grab` has any size and contents. -/
inductive Call (isProducer : Prop) : Pc α → Prop
  | tryPush (task : α) (hproducer : isProducer) : Call isProducer (.pushLoadTail task)
  | tryPop : Call isProducer .popLoadHead
  | grab (out : List (Option α)) : Call isProducer (.grabLoadTail out)
  | sizeEstimate : Call isProducer .sizeLoadHead

/-- The actions of a thread: start an operation, or do the next atomic step of the one it is in, as
long as there are fewer than `2^64` pushes. -/
inductive Act (cap : Nat) (isProducer : Prop) (q : Queue α) : Pc α → Queue α → Pc α → Prop
  | call {pc pc' : Pc α} (hout : pc.Outside) (hcall : Call isProducer pc') : Act cap isProducer q pc q pc'
  | step {pc : Pc α} (hbound : (step cap q pc).1.pushed.length < word) :
      Act cap isProducer q pc (step cap q pc).1 (step cap q pc).2

/-- Any interleaving of one producer and any consumers, the producer being one of them or not. -/
def system {Tid : Type*} [DecidableEq Tid] (cap : Nat) (producer : Tid) :
    Logic.System (Logic.Conf Tid (Queue α) (Pc α)) :=
  Logic.Program.system (fun t q pc q' pc' => Act cap (t = producer) q pc q' pc')
    (fun c => c.mem = Queue.empty ∧ ∀ t, c.pc t = .idle)

end CppConcur.WorkStealing
