import CppConcur.Logic.Custody
import CppConcur.Logic.Transition

/-!
# The current fiber

`Fiber::Run` stores `this` to the thread-local `current_fiber` and switches to the stack of the fiber. The code of the fiber
finds itself through that variable: `Suspend` saves the context of the caller in the fiber that `Self` returns, and switches
to the context that the `Run` of that fiber has saved. `Run` does not restore `current_fiber`, so all this is right only when
no `Run` returns to the code of a fiber.

A context is a stack, and it can be switched to once after it has been saved. A step that would read a deleted fiber or
switch to a context that is not saved does not exist here: the safety theorem says that no thread comes to such a step.
-/

namespace CppConcur.Fiber.Context

open Logic

/-- The stack of a thread, or the one allocated for a fiber. -/
inductive Stack (Tid Fib : Type)
  | thread (t : Tid)
  | fiber (f : Fib)
  deriving DecidableEq

/-- A call of `Fiber::Run`, as far as it has come. -/
inductive Frame (Fib : Type)
  | enter (f : Fib)
  /-- `current_fiber` has been set -/
  | resume (f : Fib)
  /-- in `SwitchTo`; when the stack is executed again, `Resume` has returned -/
  | switched (f : Fib)
  /-- in `Await`, with the handle -/
  | await (f : Fib)
  /-- in `Await`, when the handle has been scheduled or kept -/
  | awaited

/-- The fiber that the frame owns. -/
def Frame.fiber {Fib : Type} : Frame Fib → Option Fib
  | enter f => some f
  | resume f => some f
  | switched f => some f
  | await f => some f
  | awaited => none

/-- The code of the user under the frame can run. -/
def Frame.User {Fib : Type} : Frame Fib → Prop
  | await _ => True
  | awaited => True
  | _ => False

structure State (Tid Fib Sch : Type) where
  /-- `current_fiber` -/
  currentFiber : Tid → Option Fib
  /-- the stack that the thread executes on -/
  on : Tid → Stack Tid Fib
  /-- the calls of `Run` on a stack, the innermost first -/
  frames : Stack Tid Fib → List (Frame Fib)
  born : Fib → Bool
  deleted : Fib → Bool
  completed : Fib → Bool
  scheduler : Fib → Sch
  coroutineCtx : Fib → Option (Stack Tid Fib)
  originalCtx : Fib → Option (Stack Tid Fib)
  /-- the stack where the awaiter is -/
  awaiter : Fib → Option (Stack Tid Fib)
  /-- the fibers that have been submitted and not run -/
  queue : Sch → List Fib
  /-- the handles that awaiters have kept -/
  handles : List Fib

/-- How tasks are run: whether `Submit` of a scheduler runs the task at once, and whether the code of a fiber can run the loop
of a scheduler. -/
structure Config (Sch : Type) where
  inline : Sch → Bool
  nested : Bool

variable {Tid Fib Sch : Type} [DecidableEq Tid] [DecidableEq Fib] [DecidableEq Sch]

namespace State

variable (s : State Tid Fib Sch)

/-- No call of `Run` is before its `Await` on the stack, so that the code of the user runs there. -/
def User (k : Stack Tid Fib) : Prop := ∀ fr ∈ (s.frames k).head?, fr.User

def Alive (f : Fib) : Prop := s.born f = true ∧ s.deleted f = false

def setFrames (k : Stack Tid Fib) (frames : List (Frame Fib)) : State Tid Fib Sch :=
  { s with frames := Function.update s.frames k frames }

/-- `NewFiber`. -/
def new (f : Fib) (k : Sch) : State Tid Fib Sch :=
  { s with
    born := Function.update s.born f true
    scheduler := Function.update s.scheduler f k
    coroutineCtx := Function.update s.coroutineCtx f (some (.fiber f)) }

/-- `Fiber::Schedule`, called by a thread. -/
def schedule (cfg : Config Sch) (t : Tid) (f : Fib) : State Tid Fib Sch :=
  if cfg.inline (s.scheduler f) then s.setFrames (s.on t) (.enter f :: s.frames (s.on t))
  else { s with queue := Function.update s.queue (s.scheduler f) (s.queue (s.scheduler f) ++ [f]) }

/-- A scheduler takes a task and calls `Run`. -/
def run (t : Tid) (k : Sch) (f : Fib) : State Tid Fib Sch :=
  { s.setFrames (s.on t) (.enter f :: s.frames (s.on t)) with
    queue := Function.update s.queue k ((s.queue k).erase f) }

/-- The first line of `Fiber::Run`. -/
def setCurrent (t : Tid) (f : Fib) (rest : List (Frame Fib)) : State Tid Fib Sch :=
  { s.setFrames (s.on t) (.resume f :: rest) with
    currentFiber := Function.update s.currentFiber t (some f) }

/-- `Coroutine::Resume`. -/
def resume (t : Tid) (f : Fib) (rest : List (Frame Fib)) (k : Stack Tid Fib) : State Tid Fib Sch :=
  { s.setFrames (s.on t) (.switched f :: rest) with
    originalCtx := Function.update s.originalCtx f (some (s.on t))
    coroutineCtx := Function.update s.coroutineCtx f none
    on := Function.update s.on t k }

/-- `Fiber::Suspend` of the fiber `g`. -/
def suspend (t : Tid) (g : Fib) (k : Stack Tid Fib) : State Tid Fib Sch :=
  { s with
    awaiter := Function.update s.awaiter g (some (s.on t))
    coroutineCtx := Function.update s.coroutineCtx g (some (s.on t))
    originalCtx := Function.update s.originalCtx g none
    on := Function.update s.on t k }

/-- The end of `Coroutine::Run`. -/
def finish (t : Tid) (f : Fib) (k : Stack Tid Fib) : State Tid Fib Sch :=
  { s with
    completed := Function.update s.completed f true
    originalCtx := Function.update s.originalCtx f none
    on := Function.update s.on t k }

end State

/-- The steps of the threads. -/
inductive Step (cfg : Config Sch) (s : State Tid Fib Sch) : State Tid Fib Sch → Prop
  /-- `Go` -/
  | go (t : Tid) (f : Fib) (k : Sch) (huser : s.User (s.on t)) (hborn : s.born f = false) :
      Step cfg s ((s.new f k).schedule cfg t f)
  /-- the loop of a thread, or one inside other code -/
  | run (t : Tid) (k : Sch) (f : Fib) (hmem : f ∈ s.queue k)
      (hloop : s.on t = .thread t ∧ s.frames (.thread t) = [] ∨ cfg.nested = true ∧ s.User (s.on t)) :
      Step cfg s (s.run t k f)
  | enter (t : Tid) (f : Fib) (rest : List (Frame Fib)) (htop : s.frames (s.on t) = .enter f :: rest) :
      Step cfg s (s.setCurrent t f rest)
  | resume (t : Tid) (f : Fib) (rest : List (Frame Fib)) (k : Stack Tid Fib) (htop : s.frames (s.on t) = .resume f :: rest)
      (hctx : s.coroutineCtx f = some k) : Step cfg s (s.resume t f rest k)
  /-- `Suspend`, called by the code of a fiber -/
  | suspend (t : Tid) (f g : Fib) (k : Stack Tid Fib) (hon : s.on t = .fiber f) (hbody : s.frames (.fiber f) = [])
      (hself : s.currentFiber t = some g) (hctx : s.originalCtx g = some k) : Step cfg s (s.suspend t g k)
  | finish (t : Tid) (f : Fib) (k : Stack Tid Fib) (hon : s.on t = .fiber f) (hbody : s.frames (.fiber f) = [])
      (hctx : s.originalCtx f = some k) : Step cfg s (s.finish t f k)
  /-- `delete this` -/
  | delete (t : Tid) (f : Fib) (rest : List (Frame Fib)) (htop : s.frames (s.on t) = .switched f :: rest)
      (hcompleted : s.completed f = true) :
      Step cfg s { s.setFrames (s.on t) rest with deleted := Function.update s.deleted f true }
  | await (t : Tid) (f : Fib) (rest : List (Frame Fib)) (htop : s.frames (s.on t) = .switched f :: rest)
      (hcompleted : s.completed f = false) : Step cfg s (s.setFrames (s.on t) (.await f :: rest))
  /-- the awaiter keeps the handle -/
  | keep (t : Tid) (f : Fib) (rest : List (Frame Fib)) (htop : s.frames (s.on t) = .await f :: rest) :
      Step cfg s { s.setFrames (s.on t) (.awaited :: rest) with handles := f :: s.handles }
  /-- the awaiter schedules the handle it was given -/
  | again (t : Tid) (f : Fib) (rest : List (Frame Fib)) (htop : s.frames (s.on t) = .await f :: rest) :
      Step cfg s ((s.setFrames (s.on t) (.awaited :: rest)).schedule cfg t f)
  /-- a handle that was kept is scheduled -/
  | wake (t : Tid) (f : Fib) (huser : s.User (s.on t)) (hmem : f ∈ s.handles) :
      Step cfg s (State.schedule { s with handles := s.handles.erase f } cfg t f)
  | leave (t : Tid) (rest : List (Frame Fib)) (htop : s.frames (s.on t) = .awaited :: rest) :
      Step cfg s (s.setFrames (s.on t) rest)

/-- No fiber is there yet. -/
structure Initial (s : State Tid Fib Sch) : Prop where
  on : ∀ t, s.on t = .thread t
  frames : ∀ k, s.frames k = []
  born : ∀ f, s.born f = false
  deleted : ∀ f, s.deleted f = false
  completed : ∀ f, s.completed f = false
  queue : ∀ k, s.queue k = []
  handles : s.handles = []

/-- The state before any fiber has been created. -/
def State.start (k : Sch) : State Tid Fib Sch where
  currentFiber := fun _ => none
  on := .thread
  frames := fun _ => []
  born := fun _ => false
  deleted := fun _ => false
  completed := fun _ => false
  scheduler := fun _ => k
  coroutineCtx := fun _ => none
  originalCtx := fun _ => none
  awaiter := fun _ => none
  queue := fun _ => []
  handles := []

omit [DecidableEq Tid] [DecidableEq Fib] [DecidableEq Sch] in
theorem initial_start (k : Sch) : Initial (State.start k : State Tid Fib Sch) :=
  ⟨fun _ => rfl, fun _ => rfl, fun _ => rfl, fun _ => rfl, fun _ => rfl, fun _ => rfl, rfl⟩

def system (cfg : Config Sch) : System (State Tid Fib Sch) where
  init := Initial
  step := Step cfg

end CppConcur.Fiber.Context
