import CppConcur.Futures.Expr
import CppConcur.Logic.Transition

/-!
# Running computations

`Materialize` turns an expression into computation and continuation objects that stay connected in
the shape of the expression. A `Run` is this tree of objects while it is being evaluated: which
`Start()` and `Resume()` calls are under way, which tasks wait in a scheduler, and what the objects
have stored. A step is one such call, one task that a scheduler runs, or one promise that is set; any
call under way may go on at any time, so that the order of steps is that of the schedulers, of the
promises and of the threads that run them.

The inputs of a `First` outlive it: when one of them has come, the other is still to come, and then
only destroys the computation. So a configuration is a collection of trees: that of the whole
expression, whose consumer is the demand, and those of the inputs that came second, or have not come
yet, of the `First` nodes that are decided.
-/

namespace CppConcur.Futures

variable {Sched : Type} {α β ε : Type}

/-- The states of `RendezvousStateMachine`. -/
inductive Rendezvous
  | empty
  | produced
  | consumed
  | rendezvous
  deriving DecidableEq

namespace Rendezvous

/-- `Produce`: `fetch_or(Produced)`, and whether the state was `Consumed`. -/
def produce : Rendezvous → Rendezvous × Bool
  | empty => (produced, false)
  | produced => (produced, false)
  | consumed => (rendezvous, true)
  | rendezvous => (rendezvous, false)

/-- `Consume`: `fetch_or(Consumed)`, and whether the state was `Produced`. -/
def consume : Rendezvous → Rendezvous × Bool
  | empty => (consumed, false)
  | produced => (rendezvous, true)
  | consumed => (consumed, false)
  | rendezvous => (rendezvous, false)

/-- The promise has been set. -/
def isSet : Rendezvous → Bool
  | empty => false
  | produced => true
  | consumed => false
  | rendezvous => true

end Rendezvous

/-- The continuations with one input. `inner` is that of the inner future of `Flatten`, with the state
of the outer one; `start` is the consumer of an eager computation, waiting in `Start()`. -/
inductive Cont (Sched : Type) : Type → Type → Type 1
  | map {α β : Type} (f : β → α) : Cont Sched β α
  | mapOk {α β ε : Type} (f : β → α) : Cont Sched (Except ε β) (Except ε α)
  | flatten {α β : Type} (future : β → Future Sched α) : Cont Sched β α
  | inner {α : Type} (s : State Sched) : Cont Sched α α
  | via {α : Type} (s : Sched) : Cont Sched α α
  | box {α : Type} : Cont Sched α α
  | start {α : Type} : Cont Sched α α

/-- The objects of a computation. -/
inductive Run (Sched : Type) : Type → Type 1
  /-- `Ready`, not started -/
  | ready {α : Type} (v : α) : Run Sched α
  /-- `Submit`, not started -/
  | submit {α : Type} (s : Sched) (f : Unit → α) : Run Sched α
  /-- `Contract`, with the value of its promise and the state shared with it -/
  | contract {α : Type} (v : α) (st : Rendezvous) : Run Sched α
  /-- `Start()` of the computation is under way -/
  | begin {α : Type} (r : Run Sched α) : Run Sched α
  /-- `Start()` of the computation is the next call of `Start()` of its consumer -/
  | later {α : Type} (r : Run Sched α) : Run Sched α
  /-- a task waits in the scheduler -/
  | task {α : Type} (t : Task α) (s : Sched) : Run Sched α
  /-- `Resume()` of the consumer is under way -/
  | resume {α : Type} (v : α) (s : State Sched) : Run Sched α
  /-- the input of a continuation -/
  | under {α β : Type} (r : Run Sched β) (k : Cont Sched β α) : Run Sched α
  /-- `Both`, neither input has come -/
  | both {α β : Type} (l : Run Sched α) (r : Run Sched β) : Run Sched (α × β)
  /-- `Both`, the left input has come: `a_` is set and `finished_` is 1 -/
  | bothA {α β : Type} (a : α) (r : Run Sched β) : Run Sched (α × β)
  /-- `Both`, the right input has come: `b_` is set and `finished_` is 1 -/
  | bothB {α β : Type} (l : Run Sched α) (b : β) : Run Sched (α × β)
  /-- `First`, neither input has come -/
  | first {α : Type} (l r : Run Sched α) : Run Sched α
  /-- `Start`, the eager computation runs and its consumer is not started -/
  | eager {α : Type} (r : Run Sched α) : Run Sched α
  /-- `Start`, the eager computation has stored `val_` and `s_` -/
  | eagerDone {α : Type} (v : α) (s : State Sched) : Run Sched α

/-- The objects of a future before `Start()`. Only `Start` runs its computation at once. -/
def Future.init : {α : Type} → Future Sched α → Run Sched α
  | _, .ready v => .ready v
  | _, .submit s f => .submit s f
  | _, .contract v => .contract v .empty
  | _, .map e f => .under e.init (.map f)
  | _, .mapOk e f => .under e.init (.mapOk f)
  | _, .flatten e future => .under e.init (.flatten future)
  | _, .via e s => .under e.init (.via s)
  | _, .box e => .under e.init .box
  | _, .both e₁ e₂ => .both e₁.init e₂.init
  | _, .first e₁ e₂ => .first e₁.init e₂.init
  | _, .start e => .eager (.begin e.init)

/-- A call of `Produce` or `Consume` of a contract: the second one resumes the consumer. -/
def Run.met (v : α) (met : Rendezvous × Bool) : Run Sched α :=
  if met.2 then .resume v none else .contract v met.1

/-- Where `Map` and `MapOk` call their function: in a task of the scheduler of the state, or inline
when there is none. -/
def Task.dispatch (p : Path) (t : Task α) : State Sched → Run Sched α × List (Work Sched)
  | none => (.resume t.run none, t.calls p none)
  | some s => (.task t s, [.task p s])

namespace Cont

/-- The branch from the node of the continuation to its input. -/
def branch : {α β : Type} → Cont Sched β α → Branch
  | _, _, .inner _ => .inner
  | _, _, _ => .input

/-- `Resume()` of a continuation. -/
def resume (p : Path) : {α β : Type} → Cont Sched β α → β → State Sched →
    Run Sched α × List (Work Sched)
  | _, _, .map f, v, s => (Task.map v f).dispatch p s
  | _, _, .mapOk f, v, s => (Task.mapOk v f).dispatch p s
  | _, _, .flatten future, v, s => (.under (.begin (future v).init) (.inner s), [])
  | _, _, .inner s, v, _ => (.resume v s, [])
  | _, _, .via s, v, _ => (.resume v (some s), [])
  | _, _, .box, v, s => (.resume v s, [])
  | _, _, .start, v, s => (.resume v s, [])

end Cont

/-- A tree of a configuration, at its node of the expression. -/
structure Root (Sched : Type) where
  path : Path
  type : Type
  run : Run Sched type

/-- One step inside a tree, with what happens in it and the inputs of `First` it leaves behind. -/
inductive Step : {α : Type} → Path → Run Sched α → List (Work Sched) → List (Root Sched) →
    Run Sched α → Prop
  -- `Start()` of the leaves
  | startReady {α : Type} {p : Path} {v : α} : Step p (.begin (.ready v)) [] [] (.resume v none)
  | startSubmit {α : Type} {p : Path} {s : Sched} {f : Unit → α} :
      Step p (.begin (.submit s f)) [.task p s] [] (.task (.submit f) s)
  | startContract {α : Type} {p : Path} {v : α} {st : Rendezvous} :
      Step p (.begin (.contract v st)) [] [] (.met v st.consume)
  -- the computation of a combinator with one input is that of the input
  | startUnder {α β : Type} {p : Path} {r : Run Sched β} {k : Cont Sched β α} :
      Step p (.begin (.under r k)) [] [] (.under (.begin r) k)
  -- `comp1_.Start(); comp2_.Start()`; the first call returns when its schedulers let it
  | startBoth {α β : Type} {p : Path} {l : Run Sched α} {r : Run Sched β} :
      Step p (.begin (.both l r)) [] [] (.both (.begin l) (.later r))
  | startFirst {α : Type} {p : Path} {l r : Run Sched α} :
      Step p (.begin (.first l r)) [] [] (.first (.begin l) (.later r))
  | next {α : Type} {p : Path} {r : Run Sched α} : Step p (.later r) [] [] (.begin r)
  -- `futex::Wait` on `ready_`
  | startEager {α : Type} {p : Path} {r : Run Sched α} :
      Step p (.begin (.eager r)) [] [] (.under r .start)
  | startEagerDone {α : Type} {p : Path} {v : α} {s : State Sched} :
      Step p (.begin (.eagerDone v s)) [] [] (.resume v s)
  -- a promise is set, and a scheduler runs a task
  | set {α : Type} {p : Path} {v : α} {st : Rendezvous} (hst : st.isSet = false) :
      Step p (.contract v st) [] [] (.met v st.produce)
  | run {α : Type} {p : Path} {t : Task α} {s : Sched} :
      Step p (.task t s) (t.calls p (some s)) [] (.resume t.run (some s))
  -- `Resume()` of the consumers
  | resume {α β : Type} {p : Path} {v : β} {s : State Sched} {k : Cont Sched β α} :
      Step p (.under (.resume v s) k) (.arrive (k.branch :: p) ⟨β, v⟩ s :: (k.resume p v s).2) []
        (k.resume p v s).1
  | bothLeft {α β : Type} {p : Path} {a : α} {s : State Sched} {r : Run Sched β} :
      Step p (.both (.resume a s) r) [.arrive (.left :: p) ⟨α, a⟩ s, .count .both p true 0] [] (.bothA a r)
  | bothRight {α β : Type} {p : Path} {l : Run Sched α} {b : β} {s : State Sched} :
      Step p (.both l (.resume b s)) [.arrive (.right :: p) ⟨β, b⟩ s, .count .both p false 0] []
        (.bothB l b)
  | pairLeft {α β : Type} {p : Path} {a : α} {s : State Sched} {b : β} :
      Step p (.bothB (.resume a s) b) [.arrive (.left :: p) ⟨α, a⟩ s, .count .both p true 1] []
        (.resume (a, b) none)
  | pairRight {α β : Type} {p : Path} {a : α} {b : β} {s : State Sched} :
      Step p (.bothA a (.resume b s)) [.arrive (.right :: p) ⟨β, b⟩ s, .count .both p false 1] []
        (.resume (a, b) none)
  | firstLeft {α : Type} {p : Path} {v : α} {s : State Sched} {r : Run Sched α} :
      Step p (.first (.resume v s) r) [.arrive (.left :: p) ⟨α, v⟩ s, .count .first p true 0]
        [⟨.right :: p, α, r⟩] (.resume v none)
  | firstRight {α : Type} {p : Path} {l : Run Sched α} {v : α} {s : State Sched} :
      Step p (.first l (.resume v s)) [.arrive (.right :: p) ⟨α, v⟩ s, .count .first p false 0]
        [⟨.left :: p, α, l⟩] (.resume v none)
  | eagerDone {α : Type} {p : Path} {v : α} {s : State Sched} :
      Step p (.eager (.resume v s)) [.arrive (.input :: p) ⟨α, v⟩ s] [] (.eagerDone v s)
  -- steps below
  | begin {α : Type} {p : Path} {r r' : Run Sched α} {w : List (Work Sched)} {x : List (Root Sched)}
      (h : Step p r w x r') : Step p (.begin r) w x (.begin r')
  | later {α : Type} {p : Path} {r r' : Run Sched α} {w : List (Work Sched)} {x : List (Root Sched)}
      (h : Step p r w x r') : Step p (.later r) w x (.later r')
  | under {α β : Type} {p : Path} {r r' : Run Sched β} {w : List (Work Sched)}
      {x : List (Root Sched)} {k : Cont Sched β α} (h : Step (k.branch :: p) r w x r') :
      Step p (.under r k) w x (.under r' k)
  | inLeft {α β : Type} {p : Path} {l l' : Run Sched α} {r : Run Sched β} {w : List (Work Sched)}
      {x : List (Root Sched)} (h : Step (.left :: p) l w x l') : Step p (.both l r) w x (.both l' r)
  | inRight {α β : Type} {p : Path} {l : Run Sched α} {r r' : Run Sched β} {w : List (Work Sched)}
      {x : List (Root Sched)} (h : Step (.right :: p) r w x r') : Step p (.both l r) w x (.both l r')
  | inLast {α β : Type} {p : Path} {a : α} {r r' : Run Sched β} {w : List (Work Sched)}
      {x : List (Root Sched)} (h : Step (.right :: p) r w x r') : Step p (.bothA a r) w x (.bothA a r')
  | inLast' {α β : Type} {p : Path} {l l' : Run Sched α} {b : β} {w : List (Work Sched)}
      {x : List (Root Sched)} (h : Step (.left :: p) l w x l') : Step p (.bothB l b) w x (.bothB l' b)
  | inOne {α : Type} {p : Path} {l l' r : Run Sched α} {w : List (Work Sched)}
      {x : List (Root Sched)} (h : Step (.left :: p) l w x l') : Step p (.first l r) w x (.first l' r)
  | inOther {α : Type} {p : Path} {l r r' : Run Sched α} {w : List (Work Sched)}
      {x : List (Root Sched)} (h : Step (.right :: p) r w x r') : Step p (.first l r) w x (.first l r')
  | eager {α : Type} {p : Path} {r r' : Run Sched α} {w : List (Work Sched)} {x : List (Root Sched)}
      (h : Step (.input :: p) r w x r') : Step p (.eager r) w x (.eager r')

/-- `Resume()` of the consumer of a tree: the demand, or a `First` that is decided. -/
def outlet (p : Path) (v : Val) (s : State Sched) : List (Work Sched) :=
  .arrive p v s ::
    match p with
    | .left :: p => [.count .first p true 1]
    | .right :: p => [.count .first p false 1]
    | _ => []

/-- The trees of an evaluation and all that has happened in it. -/
structure Conf (Sched : Type) where
  roots : List (Root Sched)
  log : List (Work Sched)

/-- A step of a tree, or the end of one. -/
inductive Conf.Step : Conf Sched → Conf Sched → Prop
  | inside {p : Path} {α : Type} {r r' : Run Sched α} {w : List (Work Sched)}
      {x before after : List (Root Sched)} {log : List (Work Sched)} (h : Futures.Step p r w x r') :
      Conf.Step ⟨before ++ ⟨p, α, r⟩ :: after, log⟩ ⟨before ++ ⟨p, α, r'⟩ :: (x ++ after), log ++ w⟩
  | finish {p : Path} {α : Type} {v : α} {s : State Sched} {before after : List (Root Sched)}
      {log : List (Work Sched)} :
      Conf.Step ⟨before ++ ⟨p, α, .resume v s⟩ :: after, log⟩
        ⟨before ++ after, log ++ outlet p ⟨α, v⟩ s⟩

/-- The evaluation of an expression: its eager parts run, and `Start()` of the computation that is
materialized with the demand comes at some point. -/
def system (e : Future Sched α) : Logic.System (Conf Sched) where
  init c := c = ⟨[⟨[], α, .later e.init⟩], []⟩
  step := Conf.Step

/-! ### What is not finished -/

namespace Run

/-- The tasks that wait in a scheduler. -/
def tasks : {α : Type} → Path → Run Sched α → List (Path × Sched)
  | _, _, .ready _ => []
  | _, _, .submit _ _ => []
  | _, _, .contract _ _ => []
  | _, p, .begin r => r.tasks p
  | _, p, .later r => r.tasks p
  | _, p, .task _ s => [(p, s)]
  | _, _, .resume _ _ => []
  | _, p, .under r k => r.tasks (k.branch :: p)
  | _, p, .both l r => l.tasks (.left :: p) ++ r.tasks (.right :: p)
  | _, p, .bothA _ r => r.tasks (.right :: p)
  | _, p, .bothB l _ => l.tasks (.left :: p)
  | _, p, .first l r => l.tasks (.left :: p) ++ r.tasks (.right :: p)
  | _, p, .eager r => r.tasks (.input :: p)
  | _, _, .eagerDone _ _ => []

/-- The promises that are not set. -/
def promises : {α : Type} → Run Sched α → Nat
  | _, .ready _ => 0
  | _, .submit _ _ => 0
  | _, .contract _ st => if st.isSet then 0 else 1
  | _, .begin r => r.promises
  | _, .later r => r.promises
  | _, .task _ _ => 0
  | _, .resume _ _ => 0
  | _, .under r _ => r.promises
  | _, .both l r => l.promises + r.promises
  | _, .bothA _ r => r.promises
  | _, .bothB l _ => l.promises
  | _, .first l r => l.promises + r.promises
  | _, .eager r => r.promises
  | _, .eagerDone _ _ => 0

/-- The calls of `Start()` and `Resume()` that are under way or come next. -/
def calls : {α : Type} → Run Sched α → Nat
  | _, .ready _ => 0
  | _, .submit _ _ => 0
  | _, .contract _ _ => 0
  | _, .begin r => r.calls + 1
  | _, .later r => r.calls + 1
  | _, .task _ _ => 0
  | _, .resume _ _ => 1
  | _, .under r _ => r.calls
  | _, .both l r => l.calls + r.calls
  | _, .bothA _ r => r.calls
  | _, .bothB l _ => l.calls
  | _, .first l r => l.calls + r.calls
  | _, .eager r => r.calls
  | _, .eagerDone _ _ => 0

end Run

/-- Every submitted task has been run, every promise has been set, and all calls have returned. -/
def Conf.Quiet (c : Conf Sched) : Prop :=
  ∀ x ∈ c.roots, x.run.tasks x.path = [] ∧ x.run.promises = 0 ∧ x.run.calls = 0

end CppConcur.Futures
