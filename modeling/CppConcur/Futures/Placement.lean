import CppConcur.Futures.Pipeline
import Mathlib.Data.Multiset.Filter

/-!
# Where the functions of a pipeline run

Every continuation forwards, overwrites, drops or saves the scheduler in the state it is resumed with.
Followed through an expression this gives `Future.sched`, and the function of a `Map` or `MapOk` runs
in a task of that scheduler of its input, or inline when there is none. `FlatMap`, `AndThen` and
`OrElse` are a `Map` and a `Flatten`, which hands the scheduler of the outer future to its consumer
whatever the inner future does.
-/

namespace CppConcur.Futures

variable {Sched : Type} {α β γ ε : Type} {ω : Path → Bool}

/-! ### The work at a node -/

namespace Work

theorem RunsAt.path {q : Path} {x : Work Sched} (h : x.RunsAt q) : x.key.2.1 = q := by
  cases x with
  | task | call => exact h
  | arrive | count => exact h.elim

/-- The scheduler a task is submitted to. -/
def scheduler : Work Sched → Option Sched
  | .task _ s => some s
  | _ => none

end Work

section RunsAt

variable {p q : Path} {x : Work Sched}

theorem not_cons_suffix {b : Branch} : ¬ (b :: p) <:+ p := by
  intro h
  exact absurd h.length_le (by simp)

end RunsAt

namespace Future

/-- The task and the call of the node itself. -/
def own (ω : Path → Bool) (p : Path) : {α : Type} → Future Sched α → Multiset (Work Sched)
  | _, .submit s f => (Task.submit f).work p (some s)
  | _, .map e f => (Task.map (e.value ω (.input :: p)) f).work p e.sched
  | _, .mapOk e f => (Task.mapOk (e.value ω (.input :: p)) f).work p e.sched
  | _, _ => 0

theorem branch_eq_of_suffix {b b' : Branch} {p q : Path} (h : (b :: p) <:+ q) (h' : (b' :: p) <:+ q) :
    b = b' :=
  Within.branch_eq (k := (.arrive, q, false)) h h'

/-- The schedulers that the tasks of an expression are submitted to: one task for each `Submit`, and
one for each `Map` and `MapOk` whose input has a scheduler. -/
def tasks (ω : Path → Bool) : {α : Type} → Path → Future Sched α → Multiset Sched
  | _, _, .ready _ => 0
  | _, _, .submit s _ => {s}
  | _, _, .contract _ => 0
  | _, p, .map e _ => e.tasks ω (.input :: p) + e.sched.toList
  | _, p, .mapOk e _ => e.tasks ω (.input :: p) + e.sched.toList
  | _, p, .flatten e future =>
    e.tasks ω (.input :: p) + (future (e.value ω (.input :: p))).tasks ω (.inner :: p)
  | _, p, .via e _ => e.tasks ω (.input :: p)
  | _, p, .box e => e.tasks ω (.input :: p)
  | _, p, .both e₁ e₂ => e₁.tasks ω (.left :: p) + e₂.tasks ω (.right :: p)
  | _, p, .first e₁ e₂ => e₁.tasks ω (.left :: p) + e₂.tasks ω (.right :: p)
  | _, p, .start e => e.tasks ω (.input :: p)

end Future

namespace Future

end Future

/-- The schedulers that tasks have been submitted to. -/
def Conf.tasks (c : Conf Sched) : Multiset Sched := c.log.filterMap Work.scheduler

/-- The function of the node runs where the state says: the call is made in a task of the scheduler,
which was submitted for it, or inline when there is none. -/
def Placed (log : List (Work Sched)) (q : Path) (s : State Sched) : Prop :=
  (∀ v place, .call q v place ∈ log → place = s) ∧ (∀ s', .task q s' ∈ log → s = some s') ∧
    ∀ v s', .call q v (some s') ∈ log → .task q s' ∈ log

end CppConcur.Futures
