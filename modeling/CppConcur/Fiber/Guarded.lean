import CppConcur.Fiber.BufferedChannel
import CppConcur.Fiber.Lifecycle
import Mathlib.Algebra.Group.Nat.Defs

/-!
# The primitives with wait lists

`Mutex`, `Event`, `WaitGroup` and `BufferedChannelState` keep the handles of suspended fibers in wait lists under a
spinlock. They have two kinds of methods. `Mutex::Lock` and the two `Wait`s suspend the fiber first; the awaiter
takes the lock and either schedules the fiber again or puts its handle on the list. The other methods take the
lock, change the fields and schedule fibers out of a list; `Send` and `Recv` suspend the fiber while the lock is
held, and the awaiter puts the handle on a list and releases the lock.

A call does one thing at a time: it takes or releases the lock, executes what stands in the locked section up to
the next handle, or schedules one handle. The values that go through a channel are left out here.
-/

namespace CppConcur.Fiber.Guarded

open Logic Lifecycle

/-- The wait lists of the primitives. -/
inductive WaitList
  | waiters
  | senders
  | recvs
  deriving DecidableEq

/-- Which fibers a locked section schedules at its end. -/
inductive Wakes
  | nobody
  /-- the first one on a list, if there is one -/
  | first (l : WaitList)
  /-- all on a list; the lock is released before the last one is scheduled -/
  | all (l : WaitList)

/-- What the awaiter of a method checks with the lock held. -/
structure Check (σ : Type) where
  /-- the fields afterwards, if the fiber may go on -/
  pass : σ → Option σ
  /-- the lock is released before `handle.Schedule` -/
  early : Bool

/-- What a method does with the lock held. -/
structure Section (σ : Type) where
  /-- the condition of the loop around `Suspend` -/
  blocked : σ → Bool
  /-- where the fiber waits meanwhile -/
  list : WaitList
  /-- what follows the loop; it may ask which lists are `NonEmpty` -/
  update : σ → (WaitList → Bool) → σ × Wakes

inductive Method (σ : Type)
  | await (k : Check σ)
  | locked (b : Section σ)

/-- A locked section without a loop. -/
def Section.plain {σ : Type} (update : σ → (WaitList → Bool) → σ × Wakes) : Section σ where
  blocked := fun _ => false
  list := .waiters
  update := update

/-- A class of primitives: its fields and its methods. -/
structure Primitive where
  Fields : Type
  new : Fields
  /-- the names of the methods, with their arguments -/
  Name : Type
  method : Name → Method Fields

/-! ### The classes -/

namespace Mutex

inductive Name
  | lock
  | tryLock
  | unlock

/-- `Mutex::Lock`; the field is `locked_`. -/
def lock : Check Bool where
  pass := fun locked => if !locked then some true else none
  early := false

/-- `Mutex::TryLock`. -/
def tryLock : Section Bool :=
  .plain fun locked _ => if !locked then (true, .nobody) else (locked, .nobody)

/-- `Mutex::Unlock`. -/
def unlock : Section Bool :=
  .plain fun _ nonEmpty => if nonEmpty .waiters then (true, .first .waiters) else (false, .nobody)

def primitive : Primitive where
  Fields := Bool
  new := false
  Name := Name
  method
    | .lock => .await lock
    | .tryLock => .locked tryLock
    | .unlock => .locked unlock

end Mutex

namespace Event

inductive Name
  | wait
  | fire

/-- `Event::Wait`; the field is `fired_`. -/
def wait : Check Bool where
  pass := fun fired => if fired then some fired else none
  early := true

/-- `Event::Fire`. -/
def fire : Section Bool := .plain fun _ _ => (true, .all .waiters)

def primitive : Primitive where
  Fields := Bool
  new := false
  Name := Name
  method
    | .wait => .await wait
    | .fire => .locked fire

end Event

namespace WaitGroup

inductive Name
  | add (count : Nat)
  | done
  | wait

/-- `WaitGroup::Add`; the field is `running_`, a `size_t`. -/
def add (count : Nat) : Section Nat := .plain fun running _ => ((running + count) % 2 ^ 64, .nobody)

/-- `WaitGroup::Done`. -/
def done : Section Nat :=
  .plain fun running _ =>
    let running' := (running + (2 ^ 64 - 1)) % 2 ^ 64
    if running' = 0 then (running', .all .waiters) else (running', .nobody)

/-- `WaitGroup::Wait`. -/
def wait : Check Nat where
  pass := fun running => if running = 0 then some running else none
  early := true

def primitive : Primitive where
  Fields := Nat
  new := 0
  Name := Name
  method
    | .add count => .locked (add count)
    | .done => .locked done
    | .wait => .await wait

end WaitGroup

namespace Channel

open BufferedChannel (next)

inductive Name
  | send
  | recv

structure Fields where
  head : Nat
  tail : Nat

/-- `BufferedChannelState::Send`. -/
def send (capacity : Nat) : Section Fields where
  blocked := fun s => next capacity s.tail = s.head
  list := .senders
  update := fun s _ => ({ s with tail := next capacity s.tail }, .first .recvs)

/-- `BufferedChannelState::Recv`. -/
def recv (capacity : Nat) : Section Fields where
  blocked := fun s => s.tail = s.head
  list := .recvs
  update := fun s _ => ({ s with head := next capacity s.head }, .first .senders)

def primitive (capacity : Nat) : Primitive where
  Fields := Fields
  new := ⟨0, 0⟩
  Name := Name
  method
    | .send => .locked (send capacity)
    | .recv => .locked (recv capacity)

end Channel

/-! ### The calls -/

variable {Call σ : Type}

/-- Who has taken `lock_`. -/
inductive Holder (Call : Type)
  /-- a call, or its awaiter while that has the handle -/
  | held (c : Call)
  /-- the awaiter of a call, when it has scheduled the handle or put it on a list -/
  | leaving (c : Call)

/-- A primitive, and the handles that have been scheduled since their fibers were suspended. -/
structure Mem (Call σ : Type) where
  lock : Option (Holder Call)
  fields : σ
  list : WaitList → List Call
  scheduled : Call → Bool

namespace Mem

/-- `NonEmpty`. -/
def nonEmpty (m : Mem Call σ) (l : WaitList) : Bool := !(m.list l).isEmpty

def setList (m : Mem Call σ) (l : WaitList) (cs : List Call) : Mem Call σ :=
  { m with list := Function.update m.list l cs }

/-- `handle_copy = handle` and `PushBack`; the awaiter still has the lock. -/
def push (m : Mem Call σ) (l : WaitList) (c : Call) : Mem Call σ :=
  { m.setList l (m.list l ++ [c]) with lock := some (.leaving c) }

variable [DecidableEq Call]

/-- `FiberHandle::Schedule`. -/
def schedule (m : Mem Call σ) (c : Call) : Mem Call σ :=
  { m with scheduled := Function.update m.scheduled c true }

/-- `Suspend` returns. -/
def resume (m : Mem Call σ) (c : Call) : Mem Call σ :=
  { m with scheduled := Function.update m.scheduled c false }

end Mem

/-- What follows `Schedule` of a handle that was on a list. -/
inductive Rest
  /-- the next `PopFront` -/
  | pop (l : WaitList)
  /-- `lock_.unlock()` -/
  | unlock
  | ret

/-- Where a call is. -/
inductive Pc (Call σ : Type)
  /-- not made yet -/
  | idle
  /-- before `Suspend`, or before `lock_.lock()` -/
  | call (method : Method σ)
  /-- in the locked section, before the condition of the loop -/
  | held (b : Section σ)
  /-- in the locked section, before `PopFront` -/
  | pop (w : Wakes)
  /-- before `Schedule` of a handle that was on a list -/
  | schedule (w : Call) (rest : Rest)
  /-- the list is empty and `w` was the last on it; before `lock_.unlock()` -/
  | last (w : Option Call)
  /-- before `lock_.unlock()` -/
  | unlock
  | returned
  /-- the awaiter, before `lock_.lock()` -/
  | await (k : Check σ)
  /-- the awaiter, in the locked section -/
  | awaitHeld (k : Check σ)
  /-- the awaiter, between `lock_.unlock()` and `handle.Schedule` -/
  | awaitPass
  /-- the awaiter, called with the lock held -/
  | awaitPush (b : Section σ)
  /-- in `Suspend`, after which the call returns, or goes back to the condition of the loop -/
  | suspended (again : Option (Section σ))

def Pc.afterSchedule : Rest → Pc Call σ
  | .pop l => .pop (.all l)
  | .unlock => .unlock
  | .ret => .returned

/-- What `Fire` and `Done` do after they have released the lock. -/
def Pc.afterUnlock : Option Call → Pc Call σ
  | none => .returned
  | some w => .schedule w .ret

/-- Where a call goes on when `Suspend` returns. -/
def Pc.afterSuspend : Option (Section σ) → Pc Call σ
  | none => .returned
  | some b => .call (.locked b)

section Act

variable [DecidableEq Call]

/-- One step of a call or of its awaiter. -/
inductive Act (c : Call) (m : Mem Call σ) : Pc Call σ → Mem Call σ → Pc Call σ → Prop
  -- a method with a locked section
  | lock {b : Section σ} (hlock : m.lock = none) :
      Act c m (.call (.locked b)) { m with lock := some (.held c) } (.held b)
  | blocked {b : Section σ} (hblocked : b.blocked m.fields = true) : Act c m (.held b) m (.awaitPush b)
  | awaitPush {b : Section σ} : Act c m (.awaitPush b) (m.push b.list c) (.suspended (some b))
  | update {b : Section σ} {x : σ} {w : Wakes} (hblocked : b.blocked m.fields = false)
      (hupdate : b.update m.fields m.nonEmpty = (x, w)) : Act c m (.held b) { m with fields := x } (.pop w)
  | popNobody : Act c m (.pop .nobody) m .unlock
  | popNone {l : WaitList} (hlist : m.list l = []) : Act c m (.pop (.first l)) m .unlock
  | popFirst {l : WaitList} {w : Call} {ws : List Call} (hlist : m.list l = w :: ws) :
      Act c m (.pop (.first l)) (m.setList l ws) (.schedule w .unlock)
  | popLastNone {l : WaitList} (hlist : m.list l = []) : Act c m (.pop (.all l)) m (.last none)
  | popLast {l : WaitList} {w : Call} (hlist : m.list l = [w]) :
      Act c m (.pop (.all l)) (m.setList l []) (.last (some w))
  | popMore {l : WaitList} {w w' : Call} {ws : List Call} (hlist : m.list l = w :: w' :: ws) :
      Act c m (.pop (.all l)) (m.setList l (w' :: ws)) (.schedule w (.pop l))
  | schedule {w : Call} {rest : Rest} : Act c m (.schedule w rest) (m.schedule w) (.afterSchedule rest)
  | lastUnlock {w : Option Call} : Act c m (.last w) { m with lock := none } (.afterUnlock w)
  | unlock : Act c m .unlock { m with lock := none } .returned
  -- a method that suspends first
  | suspend {k : Check σ} : Act c m (.call (.await k)) m (.await k)
  | awaitLock {k : Check σ} (hlock : m.lock = none) :
      Act c m (.await k) { m with lock := some (.held c) } (.awaitHeld k)
  | awaitWait {k : Check σ} (hpass : k.pass m.fields = none) :
      Act c m (.awaitHeld k) (m.push .waiters c) (.suspended none)
  | awaitLate {k : Check σ} {x : σ} (hpass : k.pass m.fields = some x) (hearly : k.early = false) :
      Act c m (.awaitHeld k) ({ m with fields := x, lock := some (.leaving c) }.schedule c) (.suspended none)
  | awaitEarly {k : Check σ} {x : σ} (hpass : k.pass m.fields = some x) (hearly : k.early = true) :
      Act c m (.awaitHeld k) { m with fields := x, lock := none } .awaitPass
  | awaitPass : Act c m .awaitPass (m.schedule c) (.suspended none)
  -- a worker has resumed the fiber
  | resume {again : Option (Section σ)} (hscheduled : m.scheduled c = true) :
      Act c m (.suspended again) (m.resume c) (.afterSuspend again)

/-- The awaiter releases the lock, if it still has it. -/
def leave (c : Call) (m : Mem Call σ) : Mem Call σ :=
  match m.lock with
  | some (.leaving d) => if d = c then { m with lock := none } else m
  | _ => m

end Act

/-! ### What the calls do to the fibers -/

/-- What a call does, as far as its fiber is concerned. -/
def stage (c : Call) (m : Mem Call σ) : Pc Call σ → Stage
  | .idle => .out
  | .call _ => .code
  | .held _ => .code
  | .pop _ => .code
  | .schedule _ _ => .code
  | .last _ => .code
  | .unlock => .code
  | .returned => .out
  | .await _ => .awaiter
  | .awaitHeld _ => .awaiter
  | .awaitPass => .awaiter
  | .awaitPush _ => .awaiter
  | .suspended _ => if m.scheduled c then .woken else .parked

/-- The handle that the next step schedules. -/
def wakes (c : Call) (m : Mem Call σ) : Pc Call σ → Option Call
  | .schedule w _ => some w
  | .awaitHeld k => if (k.pass m.fields).isSome && !k.early then some c else none
  | .awaitPass => some c
  | _ => none

/-- The handle that a call has taken from a list and not scheduled yet. -/
def Pc.hand : Pc Call σ → Option Call
  | .schedule w _ => some w
  | .last w => w
  | _ => none

/-- Where a handle can be: at a position of a list, or with a call that has taken it from there. -/
inductive Spot (Call : Type)
  | list (l : WaitList) (i : Nat)
  | hand (d : Call)

/-- A handle of the call `c` is there. -/
def Holds (m : Mem Call σ) (pc : Call → Pc Call σ) (c : Call) : Spot Call → Prop
  | .list l i => (m.list l)[i]? = some c
  | .hand d => (pc d).hand = some c

/-- A primitive that has just been made. -/
def Primitive.init (G : Primitive) : Conf Call (Mem Call G.Fields) (Pc Call G.Fields) :=
  ⟨⟨none, G.new, fun _ => [], fun _ => false⟩, fun _ => .idle⟩

/-- The primitive and its calls. -/
def Primitive.component [DecidableEq Call] (G : Primitive) : Component Call where
  Mem := Mem Call G.Fields
  Pc := Pc Call G.Fields
  init := G.init
  enter := fun _ m pc m' pc' => m' = m ∧ pc = .idle ∧ ∃ name, pc' = .call (G.method name)
  step := fun c m pc m' pc' => Act c m pc m' pc'
  leave := leave
  stage := stage
  wakes := wakes
  Spot := Spot Call
  holds := Holds

end CppConcur.Fiber.Guarded
