import CppConcur.Logic.Transition

/-!
# The life of a fiber

A fiber is a task of its scheduler. `Fiber::Run` resumes the coroutine on the thread of a worker; when the
coroutine is switched out, `Run` calls `Await` of the awaiter that the fiber has left, with a handle to the
fiber, and when the body has finished, `Run` deletes the fiber. `Await` is still running when the handle it
was given has been scheduled or put on a list, so another thread may resume the fiber in the meantime.

The primitives are described by what their calls do to the fibers: a `Component` has the memory of the
primitive and, for each call, a program whose steps are done by the fiber or by its awaiter. `Lawful` is what
the life of the fibers depends on: which handles a call schedules, and that it schedules only handles that
the primitive was given.
-/

namespace CppConcur.Fiber.Lifecycle

open Logic

/-- What a call of a primitive does, as far as its fiber is concerned. -/
inductive Stage
  /-- not made yet, or returned -/
  | out
  /-- the fiber executes the code of the primitive -/
  | code
  /-- the fiber executes a function of the user inside the call -/
  | user
  /-- the fiber is switched out, and its awaiter has the handle -/
  | awaiter
  /-- the primitive has the handle -/
  | parked
  /-- the handle has been scheduled, and `Suspend` has not returned -/
  | woken
  deriving DecidableEq

/-- The call goes on when its fiber is resumed. -/
def Stage.Runs : Stage → Prop
  | .code | .user | .woken => True
  | .out | .awaiter | .parked => False

/-- A primitive, with a name for each of its calls. -/
structure Component (Call : Type) where
  Mem : Type
  Pc : Type
  init : Conf Call Mem Pc
  /-- a fiber calls a method -/
  enter : Program Call Mem Pc
  step : Program Call Mem Pc
  /-- what an awaiter does after the handle of the call is out of its hands -/
  leave : Call → Mem → Mem
  stage : Call → Mem → Pc → Stage
  /-- the call whose handle is scheduled in the next step -/
  wakes : Call → Mem → Pc → Option Call
  /-- where the primitive keeps handles -/
  Spot : Type
  /-- there is a handle of the call, from where it can still be scheduled -/
  holds : Mem → (Call → Pc) → Call → Spot → Prop

namespace Component

variable {Call : Type} [DecidableEq Call]

/-- Any interleaving of the calls and of their awaiters. -/
inductive Step (C : Component Call) (x : Conf Call C.Mem C.Pc) : Conf Call C.Mem C.Pc → Prop
  | enter {c : Call} {m' : C.Mem} {pc' : C.Pc} (h : C.enter c x.mem (x.pc c) m' pc') :
      Step C x ⟨m', Function.update x.pc c pc'⟩
  | step {c : Call} {m' : C.Mem} {pc' : C.Pc} (h : C.step c x.mem (x.pc c) m' pc') :
      Step C x ⟨m', Function.update x.pc c pc'⟩
  | leave (c : Call) : Step C x ⟨C.leave c x.mem, x.pc⟩

def system (C : Component Call) : System (Conf Call C.Mem C.Pc) where
  init x := x = C.init
  step x x' := C.Step x x'

/-- What the calls of a primitive do to their fibers, in every state of the primitive. -/
structure Lawful (C : Component Call) : Prop where
  init : ∀ c, C.stage c C.init.mem (C.init.pc c) = .out
  enter : ∀ x, C.system.Reachable x → ∀ c m' pc', C.enter c x.mem (x.pc c) m' pc' →
    C.stage c x.mem (x.pc c) = .out ∧ C.stage c m' pc' = .code ∧
      ∀ d, d ≠ c → C.stage d m' (x.pc d) = C.stage d x.mem (x.pc d)
  /-- the fiber goes on, or schedules a handle that the primitive has -/
  code : ∀ x, C.system.Reachable x → ∀ c m' pc', C.step c x.mem (x.pc c) m' pc' →
    (C.stage c x.mem (x.pc c)).Runs →
      (C.wakes c x.mem (x.pc c) = none ∧ C.stage c m' pc' ∈ [Stage.out, .code, .user, .awaiter]) ∨
      ∃ d, d ≠ c ∧ C.wakes c x.mem (x.pc c) = some d ∧ C.stage d x.mem (x.pc d) = .parked ∧
        C.stage d m' (x.pc d) = .woken ∧ C.stage c m' pc' ∈ [Stage.out, .code]
  /-- the awaiter goes on, gives the handle to the primitive, or schedules it -/
  awaiter : ∀ x, C.system.Reachable x → ∀ c m' pc', C.step c x.mem (x.pc c) m' pc' →
    C.stage c x.mem (x.pc c) = .awaiter →
      (C.wakes c x.mem (x.pc c) = none ∧ C.stage c m' pc' ∈ [Stage.awaiter, .parked]) ∨
      C.wakes c x.mem (x.pc c) = some c ∧ C.stage c m' pc' = .woken
  others : ∀ x, C.system.Reachable x → ∀ c m' pc', C.step c x.mem (x.pc c) m' pc' → ∀ d, d ≠ c →
    C.wakes c x.mem (x.pc c) ≠ some d → C.stage d m' (x.pc d) = C.stage d x.mem (x.pc d)
  leave : ∀ c d m pc, C.stage d (C.leave c m) pc = C.stage d m pc
  /-- there is exactly one handle of a call whose fiber is suspended -/
  parked : ∀ x, C.system.Reachable x → ∀ c, C.stage c x.mem (x.pc c) = .parked →
    ∃! spot, C.holds x.mem x.pc c spot
  held : ∀ x, C.system.Reachable x → ∀ c spot, C.holds x.mem x.pc c spot → C.stage c x.mem (x.pc c) = .parked

end Component

/-- The calls of a fiber are numbered. -/
abbrev Call (Fib : Type) := Fib × Nat

/-- A thread of a scheduler. -/
inductive Worker (Fib Obj : Type)
  | idle
  /-- in `coroutine_.Resume()` -/
  | run (f : Fib)
  /-- `coroutine_.Resume()` has returned, and the coroutine is completed -/
  | exited (f : Fib)
  /-- in `Await`, with the handle; the awaiter is that of `Yield` or of a call -/
  | await (f : Fib) (call : Option (Obj × Nat))
  /-- in `Await`, when the handle has been scheduled or given to the primitive -/
  | leave (o : Obj) (c : Call Fib)

/-- Schedulers, threads, fibers and primitives. -/
structure State {Fib Obj : Type} (Tid Sch : Type) (C : Obj → Component (Call Fib)) where
  /-- `NewFiber` has been called -/
  born : Fib → Bool
  /-- `scheduler_` -/
  scheduler : Fib → Sch
  /-- `completed_` of the coroutine -/
  completed : Fib → Bool
  /-- how often the fiber has been deleted -/
  deleted : Fib → Nat
  /-- the calls that the code of the fiber is in, the innermost first -/
  stack : Fib → List (Obj × Nat)
  /-- how many calls the fiber has made -/
  calls : Fib → Nat
  /-- the tasks that have been submitted and not run -/
  queue : Sch → List Fib
  worker : Tid → Worker Fib Obj
  conf : (o : Obj) → Conf (Call Fib) (C o).Mem (C o).Pc

variable {Fib Obj Tid Sch : Type} {C : Obj → Component (Call Fib)}

namespace State

def stage (s : State Tid Sch C) (o : Obj) (c : Call Fib) : Stage :=
  (C o).stage c (s.conf o).mem ((s.conf o).pc c)

/-- The handle that the next step of a call schedules. -/
def wakes (s : State Tid Sch C) (o : Obj) (c : Call Fib) : Option (Call Fib) :=
  (C o).wakes c (s.conf o).mem ((s.conf o).pc c)

/-- The fiber executes code of the user: its own, or a function that was given to a call. -/
def InUser (s : State Tid Sch C) (f : Fib) : Prop :=
  ∀ o n rest, s.stack f = (o, n) :: rest → s.stage o (f, n) = .user

/-- `NewFiber` has been called and the fiber has not been deleted. -/
def Live (s : State Tid Sch C) (f : Fib) : Prop :=
  s.born f = true ∧ s.deleted f = 0

section Updates

variable [DecidableEq Fib] [DecidableEq Obj] [DecidableEq Tid] [DecidableEq Sch]

/-- `Fiber::Schedule`, with a scheduler whose `Submit` only enqueues. -/
def schedule (s : State Tid Sch C) (f : Fib) : State Tid Sch C :=
  { s with queue := Function.update s.queue (s.scheduler f) (s.queue (s.scheduler f) ++ [f]) }

/-- `FiberHandle::Schedule` for the handle of a call. -/
def wake (s : State Tid Sch C) : Option (Call Fib) → State Tid Sch C
  | none => s
  | some d => s.schedule d.1

def goto (s : State Tid Sch C) (t : Tid) (w : Worker Fib Obj) : State Tid Sch C :=
  { s with worker := Function.update s.worker t w }

def setConf (s : State Tid Sch C) (o : Obj) (x : Conf (Call Fib) (C o).Mem (C o).Pc) : State Tid Sch C :=
  { s with conf := Function.update s.conf o x }

/-- A step of a call. -/
def act (s : State Tid Sch C) (o : Obj) (c : Call Fib) (m' : (C o).Mem) (pc' : (C o).Pc) : State Tid Sch C :=
  s.setConf o ⟨m', Function.update (s.conf o).pc c pc'⟩

/-- The call on top of the stack returns. -/
def pop (s : State Tid Sch C) (f : Fib) : State Tid Sch C :=
  { s with stack := Function.update s.stack f (s.stack f).tail }

/-- A call is made. -/
def push (s : State Tid Sch C) (f : Fib) (o : Obj) : State Tid Sch C :=
  { s with
    stack := Function.update s.stack f ((o, s.calls f) :: s.stack f)
    calls := Function.update s.calls f (s.calls f + 1) }

end Updates

end State

section Steps

variable [DecidableEq Fib] [DecidableEq Obj] [DecidableEq Tid] [DecidableEq Sch]

inductive Step (s : State Tid Sch C) : State Tid Sch C → Prop
  /-- `Go`, by a fiber or from outside -/
  | go {f : Fib} (k : Sch) (hborn : s.born f = false) :
      Step s (State.schedule
        { s with born := Function.update s.born f true, scheduler := Function.update s.scheduler f k } f)
  -- a worker runs a task: `Fiber::Run`
  | run {t : Tid} {k : Sch} {f : Fib} (hworker : s.worker t = .idle) (hmem : f ∈ s.queue k) :
      Step s { s.goto t (.run f) with queue := Function.update s.queue k ((s.queue k).erase f) }
  -- `Yield`
  | yield {t : Tid} {f : Fib} (hworker : s.worker t = .run f) (huser : s.InUser f) :
      Step s (s.goto t (.await f none))
  | yieldAwait {t : Tid} {f : Fib} (hworker : s.worker t = .await f none) :
      Step s ((s.goto t .idle).schedule f)
  -- the code of a call
  | call {t : Tid} {f : Fib} {o : Obj} {m' : (C o).Mem} {pc' : (C o).Pc} (hworker : s.worker t = .run f)
      (huser : s.InUser f)
      (henter : (C o).enter (f, s.calls f) (s.conf o).mem ((s.conf o).pc (f, s.calls f)) m' pc') :
      Step s ((s.act o (f, s.calls f) m' pc').push f o)
  | code {t : Tid} {f : Fib} {o : Obj} {n : Nat} {rest : List (Obj × Nat)} {m' : (C o).Mem} {pc' : (C o).Pc}
      (hworker : s.worker t = .run f) (hstack : s.stack f = (o, n) :: rest)
      (hstep : (C o).step (f, n) (s.conf o).mem ((s.conf o).pc (f, n)) m' pc')
      (hstage : (C o).stage (f, n) m' pc' = .code ∨ (C o).stage (f, n) m' pc' = .user) :
      Step s ((s.act o (f, n) m' pc').wake (s.wakes o (f, n)))
  | ret {t : Tid} {f : Fib} {o : Obj} {n : Nat} {rest : List (Obj × Nat)} {m' : (C o).Mem} {pc' : (C o).Pc}
      (hworker : s.worker t = .run f) (hstack : s.stack f = (o, n) :: rest)
      (hstep : (C o).step (f, n) (s.conf o).mem ((s.conf o).pc (f, n)) m' pc')
      (hstage : (C o).stage (f, n) m' pc' = .out) :
      Step s (((s.act o (f, n) m' pc').wake (s.wakes o (f, n))).pop f)
  -- `Suspend`
  | suspend {t : Tid} {f : Fib} {o : Obj} {n : Nat} {rest : List (Obj × Nat)} {m' : (C o).Mem} {pc' : (C o).Pc}
      (hworker : s.worker t = .run f) (hstack : s.stack f = (o, n) :: rest)
      (hstep : (C o).step (f, n) (s.conf o).mem ((s.conf o).pc (f, n)) m' pc')
      (hstage : (C o).stage (f, n) m' pc' = .awaiter) :
      Step s (((s.act o (f, n) m' pc').wake (s.wakes o (f, n))).goto t (.await f (some (o, n))))
  -- `Await`
  | await {t : Tid} {f : Fib} {o : Obj} {n : Nat} {m' : (C o).Mem} {pc' : (C o).Pc}
      (hworker : s.worker t = .await f (some (o, n)))
      (hstep : (C o).step (f, n) (s.conf o).mem ((s.conf o).pc (f, n)) m' pc')
      (hstage : (C o).stage (f, n) m' pc' = .awaiter) :
      Step s ((s.act o (f, n) m' pc').wake (s.wakes o (f, n)))
  | handOver {t : Tid} {f : Fib} {o : Obj} {n : Nat} {m' : (C o).Mem} {pc' : (C o).Pc}
      (hworker : s.worker t = .await f (some (o, n)))
      (hstep : (C o).step (f, n) (s.conf o).mem ((s.conf o).pc (f, n)) m' pc')
      (hstage : (C o).stage (f, n) m' pc' ≠ .awaiter) :
      Step s (((s.act o (f, n) m' pc').wake (s.wakes o (f, n))).goto t (.leave o (f, n)))
  | leave {t : Tid} {o : Obj} {c : Call Fib} (hworker : s.worker t = .leave o c) :
      Step s ((s.setConf o ⟨(C o).leave c (s.conf o).mem, (s.conf o).pc⟩).goto t .idle)
  -- the body returns, and `Run` deletes the fiber
  | finish {t : Tid} {f : Fib} (hworker : s.worker t = .run f) (hstack : s.stack f = []) :
      Step s { s.goto t (.exited f) with completed := Function.update s.completed f true }
  | delete {t : Tid} {f : Fib} (hworker : s.worker t = .exited f) :
      Step s { s.goto t .idle with deleted := Function.update s.deleted f (s.deleted f + 1) }

/-- No fiber yet, and all primitives new. -/
def initial (k : Sch) : State Tid Sch C where
  born := fun _ => false
  scheduler := fun _ => k
  completed := fun _ => false
  deleted := fun _ => 0
  stack := fun _ => []
  calls := fun _ => 0
  queue := fun _ => []
  worker := fun _ => .idle
  conf := fun o => (C o).init

/-- Any number of fibers, threads, schedulers and primitives. -/
def system (Tid Sch : Type) [DecidableEq Tid] [DecidableEq Sch] (C : Obj → Component (Call Fib)) :
    System (State Tid Sch C) where
  init s := ∃ k, s = initial k
  step s s' := Step s s'

end Steps

end CppConcur.Fiber.Lifecycle
