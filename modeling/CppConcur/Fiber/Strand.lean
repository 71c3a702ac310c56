import CppConcur.Logic.Transition

/-!
# Strands

`fiber::Strand`: fibers hand critical sections to whichever of them owns the strand. Each step of `step`
is one atomic access to `waiters_head_`, the start or the end of a critical section, or the scheduling of
a fiber, with the private computation around it. A fiber is one thread of control here: what its awaiter
does after the fiber is suspended happens before the fiber is resumed, since the awaiter publishes the
waiter or schedules the fiber in its last step.

Every call of `Combine` has a number, which stands for its critical section. The histories `started`,
`finished` and `scheduled` list the calls whose critical section has begun, has ended, and whose fiber has
been scheduled; `owners` lists the calls that became the owner while their fiber was suspended. `fault` is
set when a waiter is accessed through the list after it has been destroyed or its fiber has been scheduled,
and when an invalid fiber handle is scheduled.
-/

namespace CppConcur.Fiber.Strand

/-- Addresses of waiters. -/
abbrev Addr := Nat

/-- `waiters_head_`: a null pointer, the dummy, or a pointer with and without the busy bit. -/
inductive Word where
  | null
  | dummy
  | busy (a : Addr)
  | released (a : Addr)
deriving DecidableEq

/-- `Waiter`: its fiber handle and the link of the list. `call` stands for the critical section. -/
structure Waiter (Fib : Type*) where
  fiber : Option Fib
  next : Option Addr
  call : Nat

/-- The word, the waiters, the fibers that have been submitted to their scheduler, and the histories. -/
structure Mem (Fib : Type*) where
  head : Word
  waiter : Addr → Waiter Fib
  live : Addr → Bool
  ready : Fib → Bool
  calls : Nat
  started : List Nat
  finished : List Nat
  scheduled : List Nat
  owners : List Nat
  fault : Bool

/-- Where a fiber is in `Combine`, with its own waiter first. -/
inductive Pc where
  | idle
  | tryLoad (a : Addr)
  | tryCas (a : Addr)
  | runOwn (a : Addr) (batch : Option Addr)
  | takeLoad (a : Addr)
  | takeCas (a : Addr) (batchHead : Word)
  | next (a : Addr) (w : Addr)
  | run (a : Addr) (w : Addr) (rest : Option Addr)
  | releaseLoad (a : Addr) (w : Addr)
  | releaseCas (a : Addr) (w : Addr) (oldHead : Word)
  | schedule (a : Addr) (w : Addr) (rest : Option Addr)
  | awaitLoad (a : Addr)
  | awaitCas (a : Addr) (oldHead : Word)
  | awaitSchedule (a : Addr) (batch : Option Addr)
  | suspended (a : Addr) (owner : Option (Option Addr))
  | endLoad (a : Addr)
  | endCas (a : Addr) (p : Addr)
  | ret (call : Nat)

variable {Fib : Type*}

/-- A strand that no fiber has used. -/
def Mem.new : Mem Fib where
  head := .null
  waiter := fun _ => ⟨none, none, 0⟩
  live := fun _ => false
  ready := fun _ => false
  calls := 0
  started := []
  finished := []
  scheduled := []
  owners := []
  fault := false

/-- `StripBusyBit`, as the pointer to the first waiter of a list. -/
def Word.stripBusyBit : Word → Option Addr
  | .busy a | .released a => some a
  | _ => none

/-- `StripBusyBit`, as the word that is stored. -/
def Word.release : Word → Word
  | .busy a => .released a
  | w => w

namespace Mem

variable (m : Mem Fib)

/-- A waiter that another fiber may still access. -/
def Accessible (a : Addr) : Prop := m.live a = true ∧ (m.waiter a).call ∉ m.scheduled

instance (a : Addr) : Decidable (m.Accessible a) := inferInstanceAs (Decidable (_ ∧ _))

/-- Access a waiter through a pointer of the list. -/
def touch (a : Addr) : Mem Fib := { m with fault := m.fault || !decide (m.Accessible a) }

/-- The start of a critical section. -/
def start (a : Addr) : Mem Fib := { m with started := m.started ++ [(m.waiter a).call] }

/-- The end of a critical section. -/
def finish (a : Addr) : Mem Fib := { m with finished := m.finished ++ [(m.waiter a).call] }

def setHead (w : Word) : Mem Fib := { m with head := w }

/-- `SetNext` on the fiber's own waiter, for what was loaded of `waiters_head_`. -/
def prepare (a : Addr) (oldHead : Word) : Mem Fib :=
  match oldHead with
  | .dummy => { m with waiter := Function.update m.waiter a { m.waiter a with next := none } }
  | .busy p => { m with waiter := Function.update m.waiter a { m.waiter a with next := some p } }
  | _ => m

/-- The fiber becomes the owner while it is suspended. -/
def own (a : Addr) : Mem Fib := { m with head := .dummy, owners := m.owners ++ [(m.waiter a).call] }

/-- `Waiter::Schedule`: the handle gives up its fiber. -/
def schedule [DecidableEq Fib] (a : Addr) : Mem Fib :=
  match (m.waiter a).fiber with
  | some f =>
      { m with
        ready := Function.update m.ready f true
        waiter := Function.update m.waiter a { m.waiter a with fiber := none }
        scheduled := m.scheduled ++ [(m.waiter a).call] }
  | none => { m with fault := true }

/-- The constructor of the waiter of a fiber. -/
def combine (f : Fib) (a : Addr) : Mem Fib :=
  { m with
    waiter := Function.update m.waiter a ⟨some f, none, m.calls⟩
    live := Function.update m.live a true
    calls := m.calls + 1 }

/-- The return of `Combine`, which destroys the waiter. -/
def leave (a : Addr) : Mem Fib := { m with live := Function.update m.live a false }

end Mem

/-- The return of `Combine`. -/
def ret (m : Mem Fib) (a : Addr) : Mem Fib × Pc := (m.leave a, .ret (m.waiter a).call)

/-- The loop of `ProcessBatch` at a pointer to the next waiter. -/
def batch (m : Mem Fib) (a : Addr) : Option Addr → Mem Fib × Pc
  | some w => (m, .next a w)
  | none => ret m a

variable [DecidableEq Fib]

/-- One step of the fiber `f` in `Combine`. -/
def step (f : Fib) (m : Mem Fib) : Pc → Mem Fib × Pc
  | .tryLoad a => if m.head = .null then (m, .tryCas a) else (m, .awaitLoad a)
  | .tryCas a => if m.head = .null then ((m.setHead .dummy).start a, .runOwn a none) else (m, .awaitLoad a)
  | .runOwn a none => (m.finish a, .takeLoad a)
  | .runOwn a (some w) => (m.finish a, .next a w)
  -- `ProcessBatch(nullptr)`
  | .takeLoad a => (m, .takeCas a m.head)
  | .takeCas a batchHead =>
      if m.head = batchHead then
        if batchHead = .dummy then ret (m.setHead .null) a
        else batch (m.setHead .dummy) a batchHead.stripBusyBit
      else (m, .takeCas a m.head)
  -- one round of the loop over the batch
  | .next a w => ((m.touch w).start w, .run a w (m.waiter w).next)
  | .run a w none => ((m.touch w).finish w, .releaseLoad a w)
  | .run a w (some w') => ((m.touch w).finish w, .schedule a w (some w'))
  | .releaseLoad a w => (m, .releaseCas a w m.head)
  | .releaseCas a w oldHead =>
      if m.head = oldHead then
        (m.setHead (if oldHead = .dummy then .null else oldHead.release), .schedule a w none)
      else (m, .releaseCas a w m.head)
  | .schedule a w rest => batch ((m.touch w).schedule w) a rest
  -- the awaiter
  | .awaitLoad a => (m.prepare a m.head, .awaitCas a m.head)
  | .awaitCas a oldHead =>
      if m.head = oldHead then
        match oldHead with
        | .null => (m.own a, .awaitSchedule a none)
        | .dummy | .busy _ => (m.setHead (.busy a), .suspended a none)
        | .released p => (m.own a, .awaitSchedule a (some p))
      else (m.prepare a m.head, .awaitCas a m.head)
  | .awaitSchedule a b => (m.schedule a, .suspended a (some b))
  -- the fiber is resumed
  | .suspended a owner =>
      if m.ready f then
        match owner with
        | none => ({ m with ready := Function.update m.ready f false }, .endLoad a)
        | some b => (({ m with ready := Function.update m.ready f false } : Mem Fib).start a, .runOwn a b)
      else (m, .suspended a owner)
  | .endLoad a =>
      match m.head with
      | .released p => (m, .endCas a p)
      | _ => ret m a
  | .endCas a p => if m.head = .released p then (m.setHead .dummy, .next a p) else ret m a
  | .idle => (m, .idle)
  | .ret c => (m, .ret c)

/-- A fiber that is outside `Combine`. -/
def Pc.Outside : Pc → Prop
  | .idle | .ret _ => True
  | _ => False

/-- The actions of a fiber: call `Combine`, with a waiter at an address that no live waiter has, or do the
next step of the call it is in. -/
inductive Act (f : Fib) (m : Mem Fib) : Pc → Mem Fib → Pc → Prop
  | combine {pc : Pc} (hout : pc.Outside) (a : Addr) (hfree : m.live a = false) :
      Act f m pc (m.combine f a) (.tryLoad a)
  | step {pc : Pc} : Act f m pc (step f m pc).1 (step f m pc).2

/-- Any number of fibers on one strand. -/
def system (Fib : Type*) [DecidableEq Fib] : Logic.System (Logic.Conf Fib (Mem Fib) Pc) :=
  Logic.Program.system (fun f m pc m' pc' => Act f m pc m' pc') (fun c => c.mem = .new ∧ ∀ f, c.pc f = .idle)

end CppConcur.Fiber.Strand
