import CppConcur.Futures.Run

/-!
# Detached computations

`Detach` allocates a `SelfDestructingComputation`, which holds all computations and continuations of
an expression without `Start` and `First`, and whose demand deletes it. What matters here is what
`Futures.Run` leaves out: the calls that have not returned, and what they do when they go on. So a
thread is a stack of calls, `BothComputation::Start` and the second caller of a `ContractState` have
something left to do after a call of theirs returns, and every other function has made its last
access when it calls its consumer.

The accesses of a call come at any time before its next call. One that comes after the computation is
destroyed is recorded as a fault.
-/

namespace CppConcur.Futures

variable {Sched : Type} {α β : Type}

/-! ### Expressions without `Start` and `First` -/

/-- There is no `Start` and no `First` in the expression nor in the inner futures its functions
return. -/
def Future.Plain : {α : Type} → Future Sched α → Prop
  | _, .ready _ => True
  | _, .submit _ _ => True
  | _, .contract _ => True
  | _, .map e _ => e.Plain
  | _, .mapOk e _ => e.Plain
  | _, .flatten e future => e.Plain ∧ ∀ v, (future v).Plain
  | _, .via e _ => e.Plain
  | _, .box e => e.Plain
  | _, .both e₁ e₂ => e₁.Plain ∧ e₂.Plain
  | _, .first _ _ => False
  | _, .start _ => False

/-- The contracts of an expression at a node. Those of the inner futures come with them. -/
def Future.contracts : {α : Type} → Path → Future Sched α → List Path
  | _, _, .ready _ => []
  | _, _, .submit _ _ => []
  | _, p, .contract _ => [p]
  | _, p, .map e _ => e.contracts (.input :: p)
  | _, p, .mapOk e _ => e.contracts (.input :: p)
  | _, p, .flatten e _ => e.contracts (.input :: p)
  | _, p, .via e _ => e.contracts (.input :: p)
  | _, p, .box e => e.contracts (.input :: p)
  | _, p, .both e₁ e₂ => e₁.contracts (.left :: p) ++ e₂.contracts (.right :: p)
  | _, p, .first e₁ e₂ => e₁.contracts (.left :: p) ++ e₂.contracts (.right :: p)
  | _, p, .start e => e.contracts (.input :: p)

namespace Detach

/-! ### Calls -/

/-- The callers of a `ContractState`: `Promise::Set` and `ContractComputation::Start`. -/
inductive Party
  | produce
  | consume
  deriving DecidableEq

def Party.other : Party → Party
  | produce => consume
  | consume => produce

/-- A call on the stack of a thread, by what is left of it. -/
inductive Frame
  /-- `Start()` of the computation of the node -/
  | start (p : Path)
  /-- `Resume()` of the consumer of the node -/
  | resume (p : Path)
  /-- `Run()` of the task of the node -/
  | run (p : Path)
  /-- `Promise::Set` for the contract of the node -/
  | produce (p : Path)
  /-- `BothComputation::Start` after `comp1_.Start()`: the node is the second input -/
  | second (p : Path)
  /-- `Produce` or `Consume` of a `ContractState` after the call of `callback_`: `delete this` -/
  | delete (p : Path) (party : Party)
  /-- a function after its last call, which accesses nothing any more -/
  | ret
  deriving DecidableEq

/-- The call still accesses fields of the computation. -/
def Frame.uses : Frame → Bool
  | delete _ _ => false
  | ret => false
  | _ => true

/-- The `ContractState` that the call is about to delete. -/
def Frame.disposal : Frame → Option (Path × Party)
  | delete p party => some (p, party)
  | _ => none

/-- What a step of a call does apart from its effect on the objects: the calls that stand in its place
on the stack, the tasks it submits, the promises of the futures it makes, and its arrival at a
`ContractState`. -/
structure Effect where
  frames : List Frame := []
  tasks : List Path := []
  promises : List Path := []
  arrival : Option (Path × Party) := none

/-- `Produce` or `Consume` at a `ContractState`: the second one resumes the consumer of the contract
and then deletes the state. -/
def Effect.meet (p : Path) (party : Party) (met : Bool) : Effect where
  frames := if met then [.resume p, .delete p party] else []
  arrival := some (p, party)

/-- `Resume()` of `Map` and `MapOk`: the consumer is resumed at once, or a task is submitted. -/
def Effect.dispatch (p : Path) : State Sched → Effect
  | none => { frames := [.resume p, .ret] }
  | some _ => { tasks := [p] }

/-- `Resume()` of a continuation. `Flatten` materializes the inner future and starts it; the others
resume their consumer. -/
def resumeEffect (p : Path) : {α β : Type} → Cont Sched β α → β → State Sched → Effect
  | _, _, .map _, _, s => .dispatch p s
  | _, _, .mapOk _, _, s => .dispatch p s
  | _, _, .flatten future, v, _ =>
    { frames := [.start (.inner :: p), .ret], promises := (future v).contracts (.inner :: p) }
  | _, _, .inner _, _, _ => { frames := [.resume p, .ret] }
  | _, _, .via _, _, _ => { frames := [.resume p, .ret] }
  | _, _, .box, _, _ => { frames := [.resume p, .ret] }
  | _, _, .start, _, _ => { frames := [.resume p, .ret] }

/-- The next step of a call at the objects of a tree. -/
inductive Exec : {α : Type} → Path → Run Sched α → Frame → Effect → Run Sched α → Prop
  -- `Start()`
  | ready {α : Type} {p : Path} {v : α} :
      Exec p (.begin (.ready v)) (.start p) { frames := [.resume p, .ret] } (.resume v none)
  | submit {α : Type} {p : Path} {s : Sched} {f : Unit → α} :
      Exec p (.begin (.submit s f)) (.start p) { tasks := [p] } (.task (.submit f) s)
  | consume {α : Type} {p : Path} {v : α} {st : Rendezvous} :
      Exec p (.begin (.contract v st)) (.start p) (.meet p .consume st.consume.2) (.met v st.consume)
  | input {α β : Type} {p : Path} {r : Run Sched β} {k : Cont Sched β α} :
      Exec p (.begin (.under r k)) (.start p) { frames := [.start (k.branch :: p), .ret] }
        (.under (.begin r) k)
  | both {α β : Type} {p : Path} {l : Run Sched α} {r : Run Sched β} :
      Exec p (.begin (.both l r)) (.start p)
        { frames := [.start (.left :: p), .second (.right :: p)] } (.both (.begin l) (.later r))
  | second {α : Type} {p : Path} {r : Run Sched α} :
      Exec p (.later r) (.second p) { frames := [.start p, .ret] } (.begin r)
  -- `Promise::Set` and `Run()`
  | produce {α : Type} {p : Path} {v : α} {st : Rendezvous} (hst : st.isSet = false) :
      Exec p (.contract v st) (.produce p) (.meet p .produce st.produce.2) (.met v st.produce)
  | run {α : Type} {p : Path} {t : Task α} {s : Sched} :
      Exec p (.task t s) (.run p) { frames := [.resume p, .ret] } (.resume t.run (some s))
  -- `Resume()`
  | resume {α β : Type} {p : Path} {v : β} {s : State Sched} {k : Cont Sched β α} :
      Exec p (.under (.resume v s) k) (.resume (k.branch :: p)) (resumeEffect p k v s)
        (k.resume p v s).1
  | bothLeft {α β : Type} {p : Path} {a : α} {s : State Sched} {r : Run Sched β} :
      Exec p (.both (.resume a s) r) (.resume (.left :: p)) {} (.bothA a r)
  | bothRight {α β : Type} {p : Path} {l : Run Sched α} {b : β} {s : State Sched} :
      Exec p (.both l (.resume b s)) (.resume (.right :: p)) {} (.bothB l b)
  | pairLeft {α β : Type} {p : Path} {a : α} {s : State Sched} {b : β} :
      Exec p (.bothB (.resume a s) b) (.resume (.left :: p)) { frames := [.resume p, .ret] }
        (.resume (a, b) none)
  | pairRight {α β : Type} {p : Path} {a : α} {b : β} {s : State Sched} :
      Exec p (.bothA a (.resume b s)) (.resume (.right :: p)) { frames := [.resume p, .ret] }
        (.resume (a, b) none)
  -- calls below
  | begin {α : Type} {p : Path} {r r' : Run Sched α} {f : Frame} {eff : Effect}
      (h : Exec p r f eff r') : Exec p (.begin r) f eff (.begin r')
  | later {α : Type} {p : Path} {r r' : Run Sched α} {f : Frame} {eff : Effect}
      (h : Exec p r f eff r') : Exec p (.later r) f eff (.later r')
  | under {α β : Type} {p : Path} {r r' : Run Sched β} {k : Cont Sched β α} {f : Frame}
      {eff : Effect} (h : Exec (k.branch :: p) r f eff r') : Exec p (.under r k) f eff (.under r' k)
  | inLeft {α β : Type} {p : Path} {l l' : Run Sched α} {r : Run Sched β} {f : Frame} {eff : Effect}
      (h : Exec (.left :: p) l f eff l') : Exec p (.both l r) f eff (.both l' r)
  | inRight {α β : Type} {p : Path} {l : Run Sched α} {r r' : Run Sched β} {f : Frame}
      {eff : Effect} (h : Exec (.right :: p) r f eff r') : Exec p (.both l r) f eff (.both l r')
  | inLast {α β : Type} {p : Path} {a : α} {r r' : Run Sched β} {f : Frame} {eff : Effect}
      (h : Exec (.right :: p) r f eff r') : Exec p (.bothA a r) f eff (.bothA a r')
  | inLast' {α β : Type} {p : Path} {l l' : Run Sched α} {b : β} {f : Frame} {eff : Effect}
      (h : Exec (.left :: p) l f eff l') : Exec p (.bothB l b) f eff (.bothB l' b)

/-- The step of a call is one of the steps of the evaluation. -/
theorem Exec.step {p : Path} {r r' : Run Sched α} {f : Frame} {eff : Effect}
    (h : Exec p r f eff r') : ∃ w, Futures.Step p r w [] r' := by
  induction h with
  | ready => exact ⟨_, .startReady⟩
  | submit => exact ⟨_, .startSubmit⟩
  | consume => exact ⟨_, .startContract⟩
  | input => exact ⟨_, .startUnder⟩
  | both => exact ⟨_, .startBoth⟩
  | second => exact ⟨_, .next⟩
  | produce hst => exact ⟨_, .set hst⟩
  | run => exact ⟨_, .run⟩
  | resume => exact ⟨_, .resume⟩
  | bothLeft => exact ⟨_, .bothLeft⟩
  | bothRight => exact ⟨_, .bothRight⟩
  | pairLeft => exact ⟨_, .pairLeft⟩
  | pairRight => exact ⟨_, .pairRight⟩
  | begin _ ih => exact ih.imp fun _ => .begin
  | later _ ih => exact ih.imp fun _ => .later
  | under _ ih => exact ih.imp fun _ => .under
  | inLeft _ ih => exact ih.imp fun _ => .inLeft
  | inRight _ ih => exact ih.imp fun _ => .inRight
  | inLast _ ih => exact ih.imp fun _ => .inLast
  | inLast' _ ih => exact ih.imp fun _ => .inLast'

/-! ### Threads -/

/-- A detached computation and the threads that are in it. -/
structure Machine (Sched : Type) (α : Type) where
  /-- the objects in the `SelfDestructingComputation` -/
  tree : Run Sched α
  /-- the threads: the call on top comes first -/
  threads : List (List Frame)
  /-- the tasks that wait in a scheduler -/
  tasks : List Path
  /-- the promises that are not set -/
  promises : List Path
  /-- how often the `SelfDestructingComputation` has been deleted -/
  destroyed : Nat
  /-- the calls of `Produce` and `Consume` of the `ContractState`s, in their order -/
  arrivals : List (Path × Party)
  /-- the `ContractState`s that have been deleted, with the caller that did it -/
  deleted : List (Path × Party)
  /-- a field of the computation has been accessed after it was deleted -/
  fault : Bool

namespace Machine

/-- An access to a field of the computation. -/
def touch (m : Machine Sched α) : Machine Sched α :=
  { m with fault := m.fault || m.destroyed != 0 }

/-- The machine after a step of a call on one of the threads. -/
def exec (m : Machine Sched α) (before after : List (List Frame)) (rest : List Frame) (eff : Effect)
    (tree : Run Sched α) : Machine Sched α where
  tree
  threads := before ++ (eff.frames ++ rest) :: after
  tasks := eff.tasks ++ m.tasks
  promises := eff.promises ++ m.promises
  destroyed := m.destroyed
  arrivals := m.arrivals ++ eff.arrival.toList
  deleted := m.deleted
  fault := m.fault

/-- A step of the call on top of a stack, or a new stack. A task may be run by any thread and a promise
be set by any thread, also from inside another call: that call then takes no step in the meantime. -/
inductive Step (m : Machine Sched α) : Machine Sched α → Prop
  | exec {before after : List (List Frame)} {rest : List Frame} {f : Frame} {eff : Effect}
      {tree : Run Sched α} (hthreads : m.threads = before ++ (f :: rest) :: after)
      (halive : m.destroyed = 0) (h : Exec [] m.tree f eff tree) :
      Step m (m.exec before after rest eff tree)
  | touch {before after : List (List Frame)} {rest : List Frame} {f : Frame}
      (hthreads : m.threads = before ++ (f :: rest) :: after) (huses : f.uses = true) : Step m m.touch
  -- `DestructingDemand::Resume`
  | demand {before after : List (List Frame)} {rest : List Frame}
      (hthreads : m.threads = before ++ (.resume [] :: rest) :: after) :
      Step m { m.touch with threads := before ++ rest :: after, destroyed := m.destroyed + 1 }
  | delete {before after : List (List Frame)} {rest : List Frame} {p : Path} {party : Party}
      (hthreads : m.threads = before ++ (.delete p party :: rest) :: after) :
      Step m { m with threads := before ++ rest :: after, deleted := m.deleted ++ [(p, party)] }
  | ret {before after : List (List Frame)} {rest : List Frame}
      (hthreads : m.threads = before ++ (.ret :: rest) :: after) :
      Step m { m with threads := before ++ rest :: after }
  | work {before after : List Path} {p : Path} (htasks : m.tasks = before ++ p :: after) :
      Step m { m with threads := [.run p] :: m.threads, tasks := before ++ after }
  | set {before after : List Path} {p : Path} (hpromises : m.promises = before ++ p :: after) :
      Step m { m with threads := [.produce p] :: m.threads, promises := before ++ after }

/-- `Detach` is called: the constructor of `SelfDestructingComputation` calls `computation_.Start()`. -/
def initial (e : Future Sched α) : Machine Sched α where
  tree := .begin e.init
  threads := [[.start [], .ret]]
  tasks := []
  promises := e.contracts []
  destroyed := 0
  arrivals := []
  deleted := []
  fault := false

end Machine

def system (e : Future Sched α) : Logic.System (Machine Sched α) where
  init m := m = .initial e
  step m m' := m.Step m'

end Detach

end CppConcur.Futures
