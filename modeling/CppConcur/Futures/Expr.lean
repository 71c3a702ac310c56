import Mathlib.Data.List.Infix
import Mathlib.Algebra.Order.Group.Multiset
import Mathlib.Data.Multiset.MapFold
import Mathlib.Tactic.Abel

/-!
# Future expressions

A future is a thunk: a tree of the combinators of `exe/future`, which does nothing until it is
materialized with a consumer and started. This module has the expressions, what an expression means
as a plain function of its leaves, the scheduler its consumer is resumed with, and the work that
evaluating it takes: the tasks submitted, the calls of user functions, and the arrivals of values at
their consumers. How the computations built from an expression do this work is `Futures.Run`.

The value of a `First` depends on which of its inputs comes first, so values and work are functions
of an oracle that says, for each node, which input that is.
-/

namespace CppConcur.Futures

variable {Sched : Type} {α β ε : Type}

/-- From a node of an expression to a node below it: the input of a combinator with one input, the
inner future of `Flatten`, the two inputs of `First` and `Both`. -/
inductive Branch
  | input
  | inner
  | left
  | right
  deriving DecidableEq

/-- A node of an expression, as the way to it from the root. The last branch comes first. -/
abbrev Path := List Branch

/-- The input of a `First` or `Both` on the left or on the right. -/
def side : Bool → Branch
  | true => .left
  | false => .right

/-- A value with its type. -/
abbrev Val := (β : Type) × β

/-- What a continuation gets next to the value: the scheduler to go on with, if any. -/
abbrev State (Sched : Type) := Option Sched

/-- A future expression. The value of `contract` is the one its promise is set with, if it is set at
all. In `flatten` the values of the outer future are futures: `future` says which. -/
inductive Future (Sched : Type) : Type → Type 1
  | ready {α : Type} (v : α) : Future Sched α
  | submit {α : Type} (s : Sched) (f : Unit → α) : Future Sched α
  | contract {α : Type} (v : α) : Future Sched α
  | map {α β : Type} (e : Future Sched β) (f : β → α) : Future Sched α
  | mapOk {α β ε : Type} (e : Future Sched (Except ε β)) (f : β → α) : Future Sched (Except ε α)
  | flatten {α β : Type} (e : Future Sched β) (future : β → Future Sched α) : Future Sched α
  | via {α : Type} (e : Future Sched α) (s : Sched) : Future Sched α
  | box {α : Type} (e : Future Sched α) : Future Sched α
  | both {α β : Type} (e₁ : Future Sched α) (e₂ : Future Sched β) : Future Sched (α × β)
  | first {α : Type} (e₁ e₂ : Future Sched α) : Future Sched α
  | start {α : Type} (e : Future Sched α) : Future Sched α

/-- A user function with its argument, ready to be called. -/
inductive Task : Type → Type 1
  | submit {α : Type} (f : Unit → α) : Task α
  | map {α β : Type} (v : β) (f : β → α) : Task α
  | mapOk {α β ε : Type} (v : Except ε β) (f : β → α) : Task (Except ε α)

/-- The combinators that count the arrivals of their inputs. -/
inductive Counter
  | first
  | both

/-- What happens in an evaluation, at which node. -/
inductive Work (Sched : Type) : Type 1
  /-- the consumer of the node is resumed with the value and the state -/
  | arrive (p : Path) (v : Val) (s : State Sched)
  /-- a task that calls the node's function is submitted to a scheduler -/
  | task (p : Path) (s : Sched)
  /-- the node's function is called on the value, by a task of the scheduler or inline -/
  | call (p : Path) (v : Val) (place : State Sched)
  /-- an input of a `First` or `Both` increments `finished_`, which was `old` -/
  | count (node : Counter) (p : Path) (left : Bool) (old : Nat)

/-! ### Derived combinators -/

namespace Future

/-- `Just`. -/
def just : Future Sched Unit := .ready ()

/-- `Ok`. -/
def ok (v : α) : Future Sched (Except ε α) := .ready (.ok v)

/-- `Err`. -/
def err (x : ε) : Future Sched (Except ε α) := .ready (.error x)

/-- `FlatMap`: a `Map` followed by `Flatten`. The user function returns values of a type `φ` of
futures. -/
def flatMap {φ : Type} (e : Future Sched β) (user : β → φ) (future : φ → Future Sched α) :
    Future Sched α :=
  .flatten (.map e user) future

/-- `AndThen`: errors become ready futures, values go to the user function. -/
def andThen {φ : Type} (e : Future Sched (Except ε β)) (user : β → φ)
    (future : φ → Future Sched (Except ε α)) : Future Sched (Except ε α) :=
  e.flatMap (fun r => match r with | .ok v => Sum.inl (user v) | .error x => .inr x)
    (Sum.elim future err)

/-- `OrElse`: values become ready futures, errors go to the user function. -/
def orElse {φ : Type} (e : Future Sched (Except ε α)) (user : ε → φ)
    (future : φ → Future Sched (Except ε α)) : Future Sched (Except ε α) :=
  e.flatMap (fun r => match r with | .ok v => Sum.inr v | .error x => .inl (user x))
    (Sum.elim future ok)

/-! ### Meaning -/

/-- The plain functional meaning of an expression without races. Of a `First` it is, by convention,
that of the left input. -/
def meaning : {α : Type} → Future Sched α → α
  | _, .ready v => v
  | _, .submit _ f => f ()
  | _, .contract v => v
  | _, .map e f => f e.meaning
  | _, .mapOk e f => e.meaning.map f
  | _, .flatten e future => (future e.meaning).meaning
  | _, .via e _ => e.meaning
  | _, .box e => e.meaning
  | _, .both e₁ e₂ => (e₁.meaning, e₂.meaning)
  | _, .first e₁ _ => e₁.meaning
  | _, .start e => e.meaning

/-- There is no `First` in the expression nor in the inner futures its functions return. -/
def RaceFree : {α : Type} → Future Sched α → Prop
  | _, .ready _ => True
  | _, .submit _ _ => True
  | _, .contract _ => True
  | _, .map e _ => e.RaceFree
  | _, .mapOk e _ => e.RaceFree
  | _, .flatten e future => e.RaceFree ∧ ∀ v, (future v).RaceFree
  | _, .via e _ => e.RaceFree
  | _, .box e => e.RaceFree
  | _, .both e₁ e₂ => e₁.RaceFree ∧ e₂.RaceFree
  | _, .first _ _ => False
  | _, .start e => e.RaceFree

/-- The value of an expression at a node, when `ω` says for each node whether its left input is the
first to come. -/
def value (ω : Path → Bool) : {α : Type} → Path → Future Sched α → α
  | _, _, .ready v => v
  | _, _, .submit _ f => f ()
  | _, _, .contract v => v
  | _, p, .map e f => f (e.value ω (.input :: p))
  | _, p, .mapOk e f => (e.value ω (.input :: p)).map f
  | _, p, .flatten e future => (future (e.value ω (.input :: p))).value ω (.inner :: p)
  | _, p, .via e _ => e.value ω (.input :: p)
  | _, p, .box e => e.value ω (.input :: p)
  | _, p, .both e₁ e₂ => (e₁.value ω (.left :: p), e₂.value ω (.right :: p))
  | _, p, .first e₁ e₂ => if ω p then e₁.value ω (.left :: p) else e₂.value ω (.right :: p)
  | _, p, .start e => e.value ω (.input :: p)

theorem value_eq_meaning {ω : Path → Bool} (e : Future Sched α) (p : Path) (he : e.RaceFree) :
    e.value ω p = e.meaning := by
  induction e generalizing p with
  | ready | submit | contract => rfl
  | map e f ih => exact congrArg f (ih _ he)
  | mapOk e f ih => exact congrArg (Except.map f) (ih _ he)
  | flatten e future ih ihfuture =>
    show (future (e.value ω (.input :: p))).value ω (.inner :: p) = (future e.meaning).meaning
    rw [ih _ he.1]
    exact ihfuture _ _ (he.2 _)
  | via e s ih | box e ih | start e ih => exact ih _ he
  | both e₁ e₂ ih₁ ih₂ => exact congrArg₂ Prod.mk (ih₁ _ he.1) (ih₂ _ he.2)
  | first e₁ e₂ => exact he.elim

/-- An error of `AndThen`'s input is its result; a value is bound to the user function. -/
theorem meaning_andThen {φ : Type} (e : Future Sched (Except ε β)) (user : β → φ)
    (future : φ → Future Sched (Except ε α)) :
    (e.andThen user future).meaning =
      match e.meaning with
      | .ok v => (future (user v)).meaning
      | .error x => .error x := by
  show ((Sum.elim future err) _).meaning = _
  rw [meaning]
  cases e.meaning with
  | ok v => rfl
  | error x => rfl

/-- A value of `OrElse`'s input is its result; an error is bound to the user function. -/
theorem meaning_orElse {φ : Type} (e : Future Sched (Except ε α)) (user : ε → φ)
    (future : φ → Future Sched (Except ε α)) :
    (e.orElse user future).meaning =
      match e.meaning with
      | .ok v => .ok v
      | .error x => (future (user x)).meaning := by
  show ((Sum.elim future ok) _).meaning = _
  rw [meaning]
  cases e.meaning with
  | ok v => rfl
  | error x => rfl

/-- The scheduler in the state that the consumer of the expression is resumed with. -/
def sched : {α : Type} → Future Sched α → State Sched
  | _, .ready _ => none
  | _, .submit s _ => some s
  | _, .contract _ => none
  | _, .map e _ => e.sched
  | _, .mapOk e _ => e.sched
  | _, .flatten e _ => e.sched
  | _, .via _ s => some s
  | _, .box e => e.sched
  | _, .both _ _ => none
  | _, .first _ _ => none
  | _, .start e => e.sched

end Future

/-! ### Work -/

namespace Task

/-- What the task computes. -/
def run : {α : Type} → Task α → α
  | _, .submit f => f ()
  | _, .map v f => f v
  | _, .mapOk v f => v.map f

/-- The call of the user function: `MapOk` passes an error on without one. -/
def calls (p : Path) (s : State Sched) : {α : Type} → Task α → List (Work Sched)
  | _, .submit _ => [.call p ⟨Unit, ()⟩ s]
  | _, .map v _ => [.call p ⟨_, v⟩ s]
  | _, .mapOk (.ok v) _ => [.call p ⟨_, v⟩ s]
  | _, .mapOk (.error _) _ => []

/-- The task is submitted to the scheduler of the state, if there is one, and run. -/
def work (p : Path) (s : State Sched) (t : Task α) : Multiset (Work Sched) :=
  (s.toList.map (Work.task p) ++ t.calls p s : List (Work Sched))

end Task

/-- The work of a computation and the arrival of its value at its consumer. -/
def fed (p : Path) (w : Multiset (Work Sched)) (v : α) (s : State Sched) : Multiset (Work Sched) :=
  w + {.arrive p ⟨α, v⟩ s}

theorem arrive_mem_fed {p : Path} {w : Multiset (Work Sched)} {v : α} {s : State Sched} :
    .arrive p ⟨α, v⟩ s ∈ fed p w v s :=
  Multiset.mem_add.mpr (.inr (Multiset.mem_singleton_self _))

theorem le_fed {p : Path} {w : Multiset (Work Sched)} {v : α} {s : State Sched} : w ≤ fed p w v s :=
  Multiset.le_add_right _ _

/-- What `finished_` was when the input on the given side incremented it. -/
def order (first left : Bool) : Nat := if left = first then 0 else 1

namespace Future

/-- The work below the consumer of an expression: that of its parts, and what its own node does. -/
def work (ω : Path → Bool) : {α : Type} → Path → Future Sched α → Multiset (Work Sched)
  | _, _, .ready _ => 0
  | _, p, .submit s f => (Task.submit f).work p (some s)
  | _, _, .contract _ => 0
  | _, p, .map e f =>
    fed (.input :: p) (e.work ω (.input :: p)) (e.value ω (.input :: p)) e.sched +
      (Task.map (e.value ω (.input :: p)) f).work p e.sched
  | _, p, .mapOk e f =>
    fed (.input :: p) (e.work ω (.input :: p)) (e.value ω (.input :: p)) e.sched +
      (Task.mapOk (e.value ω (.input :: p)) f).work p e.sched
  | _, p, .flatten e future =>
    fed (.input :: p) (e.work ω (.input :: p)) (e.value ω (.input :: p)) e.sched +
      fed (.inner :: p) ((future (e.value ω (.input :: p))).work ω (.inner :: p))
        ((future (e.value ω (.input :: p))).value ω (.inner :: p))
        (future (e.value ω (.input :: p))).sched
  | _, p, .via e _ => fed (.input :: p) (e.work ω (.input :: p)) (e.value ω (.input :: p)) e.sched
  | _, p, .box e => fed (.input :: p) (e.work ω (.input :: p)) (e.value ω (.input :: p)) e.sched
  | _, p, .both e₁ e₂ =>
    fed (.left :: p) (e₁.work ω (.left :: p)) (e₁.value ω (.left :: p)) e₁.sched +
        {.count .both p true (order (ω p) true)} +
      (fed (.right :: p) (e₂.work ω (.right :: p)) (e₂.value ω (.right :: p)) e₂.sched +
        {.count .both p false (order (ω p) false)})
  | _, p, .first e₁ e₂ =>
    fed (.left :: p) (e₁.work ω (.left :: p)) (e₁.value ω (.left :: p)) e₁.sched +
        {.count .first p true (order (ω p) true)} +
      (fed (.right :: p) (e₂.work ω (.right :: p)) (e₂.value ω (.right :: p)) e₂.sched +
        {.count .first p false (order (ω p) false)})
  | _, p, .start e => fed (.input :: p) (e.work ω (.input :: p)) (e.value ω (.input :: p)) e.sched

/-- All the work of an expression, up to and with the resumption of its consumer. -/
def prescribed (ω : Path → Bool) (p : Path) (e : Future Sched α) : Multiset (Work Sched) :=
  fed p (e.work ω p) (e.value ω p) e.sched

end Future

/-! ### Every piece of work has its own node -/

/-- The kinds of work. -/
inductive Kind
  | arrive
  | task
  | call
  | count
  deriving DecidableEq

namespace Work

/-- The node at which the work is done. -/
def path : Work Sched → Path
  | .arrive p _ _ => p
  | .task p _ => p
  | .call p _ _ => p
  | .count _ p _ _ => p

/-- What identifies a piece of work: its kind, its node, and the side for an increment. -/
def key : Work Sched → Kind × Path × Bool
  | .arrive p _ _ => (.arrive, p, false)
  | .task p _ => (.task, p, false)
  | .call p _ _ => (.call, p, false)
  | .count _ p left _ => (.count, p, left)

/-- The work increments the counter `finished_` of the node. -/
def Counts (p : Path) : Work Sched → Prop
  | .count _ q _ _ => q = p
  | _ => False

end Work

section Spread

/-- The key is at the node, and not the arrival at its consumer. -/
def At (p : Path) (k : Kind × Path × Bool) : Prop := k.2.1 = p ∧ k.1 ≠ .arrive

/-- The key is at the node or below it. -/
def Within (p : Path) (k : Kind × Path × Bool) : Prop := p <:+ k.2.1

/-- The key is at the node or below it, and not the arrival at the consumer of the node. -/
def Below (p : Path) (k : Kind × Path × Bool) : Prop := Within p k ∧ k ≠ (.arrive, p, false)

/-- The pieces of work have different keys, all of them in a region. -/
def Spread (region : Kind × Path × Bool → Prop) (w : Multiset (Work Sched)) : Prop :=
  (w.map Work.key).Nodup ∧ ∀ x ∈ w, region x.key

variable {p : Path} {k : Kind × Path × Bool} {region region' : Kind × Path × Bool → Prop}
  {w w' : Multiset (Work Sched)}

theorem not_within_cons {b : Branch} (hk : k.2.1 = p) : ¬ Within (b :: p) k := by
  intro h
  have hle : (b :: p).length ≤ p.length := hk ▸ h.length_le
  exact absurd hle (by simp)

theorem At.below (h : At p k) : Below p k := by
  refine ⟨?_, ?_⟩
  · rw [Within, h.1]
  · intro hk
    exact h.2 (congrArg Prod.fst hk)

theorem Within.below {b : Branch} (h : Within (b :: p) k) : Below p k := by
  refine ⟨(List.suffix_cons b p).trans h, ?_⟩
  intro hk
  exact not_within_cons (congrArg (fun k => k.2.1) hk) h

theorem Within.branch_eq {b b' : Branch} (h : Within (b :: p) k) (h' : Within (b' :: p) k) :
    b = b' := by
  have heq : b :: p = b' :: p :=
    (List.suffix_of_suffix_length_le h h' (by simp)).eq_of_length (by simp)
  exact (List.cons.inj heq).1

theorem spread_zero : Spread region (0 : Multiset (Work Sched)) :=
  ⟨by simp, by simp⟩

theorem spread_singleton {x : Work Sched} (h : region x.key) : Spread region {x} := by
  refine ⟨by simp, ?_⟩
  intro y hy
  rw [Multiset.mem_singleton.mp hy]
  exact h

theorem Spread.mono (h : Spread region w) (hle : ∀ k, region k → region' k) : Spread region' w :=
  ⟨h.1, fun x hx => hle _ (h.2 x hx)⟩

theorem Spread.add (h : Spread region w) (h' : Spread region' w')
    (hdisj : ∀ k, region k → region' k → False) : Spread (fun k => region k ∨ region' k) (w + w') := by
  refine ⟨?_, ?_⟩
  · rw [Multiset.map_add, Multiset.nodup_add]
    refine ⟨h.1, h'.1, Multiset.disjoint_left.mpr ?_⟩
    intro k hk hk'
    obtain ⟨x, hx, rfl⟩ := Multiset.mem_map.mp hk
    obtain ⟨x', hx', heq⟩ := Multiset.mem_map.mp hk'
    exact hdisj _ (h.2 x hx) (heq ▸ h'.2 x' hx')
  · intro x hx
    exact (Multiset.mem_add.mp hx).imp (h.2 x) (h'.2 x)

/-- Two pieces of work with one key are the same. -/
theorem Spread.eq_of_key {x y : Work Sched} (h : Spread region w) (hx : x ∈ w) (hy : y ∈ w)
    (hkey : x.key = y.key) : x = y :=
  Multiset.inj_on_of_nodup_map h.1 x hx y hy hkey

theorem spread_fed {v : α} {s : State Sched} (h : Spread (Below p) w) :
    Spread (Within p) (fed p w v s) := by
  have harrive : Spread (fun k => k = (.arrive, p, false)) {Work.arrive p ⟨α, v⟩ s} :=
    spread_singleton rfl
  refine (h.add harrive (fun k hk hk' => hk.2 hk')).mono ?_
  intro k hk
  cases hk with
  | inl hk => exact hk.1
  | inr hk => rw [hk, Within]

theorem spread_task {s : State Sched} (t : Task α) : Spread (At p) (t.work p s) := by
  have hcalls : Spread (fun k => k = (.call, p, false)) (t.calls p s : Multiset (Work Sched)) := by
    cases t with
    | submit f => exact spread_singleton rfl
    | map v f => exact spread_singleton rfl
    | mapOk v f =>
      cases v with
      | ok v => exact spread_singleton rfl
      | error x => exact spread_zero
  have htask : Spread (fun k => k = (.task, p, false))
      (s.toList.map (Work.task p) : Multiset (Work Sched)) := by
    cases s with
    | none => exact spread_zero
    | some s => exact spread_singleton rfl
  rw [Task.work, ← Multiset.coe_add]
  refine (htask.add hcalls ?_).mono ?_
  · intro k hk hk'
    rw [hk] at hk'
    cases hk'
  · intro k hk
    rcases hk with rfl | rfl
    · exact ⟨rfl, nofun⟩
    · exact ⟨rfl, nofun⟩

/-- A node with one input and the work at the node itself. -/
theorem Spread.at_node {b : Branch} (h : Spread (Within (b :: p)) w) (h' : Spread (At p) w') :
    Spread (Below p) (w + w') := by
  refine (h.add h' (fun k hk hk' => not_within_cons hk'.1 hk)).mono ?_
  intro k hk
  exact hk.elim Within.below At.below

/-- A node with two branches. -/
theorem Spread.at_branches {b b' : Branch} (h : Spread (Within (b :: p)) w)
    (h' : Spread (Within (b' :: p)) w') (hne : b ≠ b') : Spread (Below p) (w + w') := by
  refine (h.add h' (fun k hk hk' => hne (hk.branch_eq hk'))).mono ?_
  intro k hk
  exact hk.elim Within.below Within.below

/-- A node that counts the arrivals of its two inputs. -/
theorem Spread.at_counter {x x' : Work Sched} (h : Spread (Within (.left :: p)) w)
    (h' : Spread (Within (.right :: p)) w') (hx : At p x.key) (hx' : At p x'.key)
    (hne : x.key ≠ x'.key) : Spread (Below p) (w + {x} + (w' + {x'})) := by
  have hcount : Spread (At p) ({x} + {x'} : Multiset (Work Sched)) := by
    have hone : Spread (fun k => k = x.key) {x} := spread_singleton rfl
    have hother : Spread (fun k => k = x'.key) {x'} := spread_singleton rfl
    refine (hone.add hother (fun k hk hk' => hne (hk.symm.trans hk'))).mono ?_
    · intro k hk
      rcases hk with rfl | rfl
      · exact hx
      · exact hx'
  have hinputs : Spread (fun k => Within (.left :: p) k ∨ Within (.right :: p) k) (w + w') :=
    h.add h' (fun k hk hk' => nomatch hk.branch_eq hk')
  have hsum : w + {x} + (w' + {x'}) = w + w' + ({x} + {x'}) := by abel
  rw [hsum]
  refine (hinputs.add hcount ?_).mono ?_
  · intro k hk hk'
    exact hk.elim (not_within_cons hk'.1) (not_within_cons hk'.1)
  · intro k hk
    rcases hk with (hk | hk) | hk
    · exact hk.below
    · exact hk.below
    · exact hk.below

end Spread

namespace Future

/-- The pieces of work of an expression are all different, and none is at the consumer. -/
theorem spread_work (ω : Path → Bool) (e : Future Sched α) (p : Path) :
    Spread (Below p) (e.work ω p) := by
  induction e generalizing p with
  | ready | contract => exact spread_zero
  | submit s f => exact (spread_task _).mono fun k hk => hk.below
  | map e f ih => exact (spread_fed (ih _)).at_node (spread_task _)
  | mapOk e f ih => exact (spread_fed (ih _)).at_node (spread_task _)
  | flatten e future ih ihfuture =>
    exact (spread_fed (ih _)).at_branches (spread_fed (ihfuture _ _)) nofun
  | via e s ih | box e ih | start e ih => exact (spread_fed (ih _)).mono fun k hk => hk.below
  | both e₁ e₂ ih₁ ih₂ =>
    exact (spread_fed (ih₁ _)).at_counter (spread_fed (ih₂ _)) ⟨rfl, nofun⟩ ⟨rfl, nofun⟩ nofun
  | first e₁ e₂ ih₁ ih₂ =>
    exact (spread_fed (ih₁ _)).at_counter (spread_fed (ih₂ _)) ⟨rfl, nofun⟩ ⟨rfl, nofun⟩ nofun

theorem spread_prescribed (ω : Path → Bool) (e : Future Sched α) (p : Path) :
    Spread (Within p) (e.prescribed ω p) :=
  spread_fed (e.spread_work ω p)

end Future

/-! ### Increments come before the arrival of their node -/

section Answered

/-- Every increment is at the given node or at a node that arrives at its consumer. -/
def Answered (p : Path) (w : Multiset (Work Sched)) : Prop :=
  ∀ x ∈ w, ∀ q, x.Counts q → q = p ∨ ∃ v s, Work.arrive q v s ∈ w

variable {p : Path} {w w' : Multiset (Work Sched)}

theorem answered_zero : Answered p (0 : Multiset (Work Sched)) :=
  fun x hx => absurd hx (Multiset.notMem_zero x)

theorem answered_singleton {x : Work Sched} (h : ∀ q, x.Counts q → q = p) : Answered p {x} := by
  intro y hy q hq
  rw [Multiset.mem_singleton.mp hy] at hq
  exact .inl (h q hq)

theorem answered_count {node : Counter} {left : Bool} {n : Nat} :
    Answered p ({.count node p left n} : Multiset (Work Sched)) :=
  answered_singleton fun _ hq => Eq.symm hq

theorem Answered.add (h : Answered p w) (h' : Answered p w') : Answered p (w + w') := by
  intro x hx q hq
  cases Multiset.mem_add.mp hx with
  | inl hx =>
    refine (h x hx q hq).imp_right ?_
    intro ⟨v, s, hmem⟩
    exact ⟨v, s, Multiset.mem_add.mpr (.inl hmem)⟩
  | inr hx =>
    refine (h' x hx q hq).imp_right ?_
    intro ⟨v, s, hmem⟩
    exact ⟨v, s, Multiset.mem_add.mpr (.inr hmem)⟩

/-- Work that is fed to a consumer answers for its own node, so it is answered wherever the consumer
is. -/
theorem Answered.arrives {v : α} {s : State Sched} (h : Answered p w) {x : Work Sched}
    (hx : x ∈ fed p w v s) {q : Path} (hq : x.Counts q) :
    ∃ v' s', Work.arrive q v' s' ∈ fed p w v s := by
  cases Multiset.mem_add.mp hx with
  | inl hx =>
    cases h x hx q hq with
    | inl heq =>
      rw [heq]
      exact ⟨_, _, arrive_mem_fed⟩
    | inr harrive =>
      obtain ⟨v', s', hmem⟩ := harrive
      exact ⟨v', s', Multiset.mem_add.mpr (.inl hmem)⟩
  | inr hx =>
    rw [Multiset.mem_singleton.mp hx] at hq
    exact hq.elim

theorem Answered.fed_at {v : α} {s : State Sched} (h : Answered p w) (p' : Path) :
    Answered p' (fed p w v s) :=
  fun _ hx _ hq => .inr (h.arrives hx hq)

theorem answered_task {s : State Sched} (t : Task α) (p' : Path) : Answered p' (t.work p s) := by
  intro x hx q hq
  rw [Task.work, Multiset.mem_coe, List.mem_append] at hx
  cases hx with
  | inl hx =>
    obtain ⟨s', _, rfl⟩ := List.mem_map.mp hx
    exact hq.elim
  | inr hx =>
    cases t with
    | submit f =>
      obtain rfl := List.mem_singleton.mp hx
      exact hq.elim
    | map v f =>
      obtain rfl := List.mem_singleton.mp hx
      exact hq.elim
    | mapOk v f =>
      cases v with
      | ok v =>
        obtain rfl := List.mem_singleton.mp hx
        exact hq.elim
      | error x' => exact absurd hx (List.not_mem_nil)

end Answered

namespace Future

theorem answered_work (ω : Path → Bool) (e : Future Sched α) (p : Path) :
    Answered p (e.work ω p) := by
  induction e generalizing p with
  | ready | contract => exact answered_zero
  | submit s f => exact answered_task _ _
  | map e f ih => exact ((ih _).fed_at p).add (answered_task _ _)
  | mapOk e f ih => exact ((ih _).fed_at p).add (answered_task _ _)
  | flatten e future ih ihfuture => exact ((ih _).fed_at p).add ((ihfuture _ _).fed_at p)
  | via e s ih | box e ih | start e ih => exact (ih _).fed_at p
  | both e₁ e₂ ih₁ ih₂ =>
    exact (((ih₁ _).fed_at p).add answered_count).add (((ih₂ _).fed_at p).add answered_count)
  | first e₁ e₂ ih₁ ih₂ =>
    exact (((ih₁ _).fed_at p).add answered_count).add (((ih₂ _).fed_at p).add answered_count)

/-! ### Parts of an expression -/

/-- The future `e'` at the node `q` is a part of `e` at the node `p`: the inner futures are those that
the functions return when the races go as `ω` says. -/
inductive Occurs (ω : Path → Bool) {γ : Type} (q : Path) (e' : Future Sched γ) :
    {α : Type} → Path → Future Sched α → Prop
  | refl : Occurs ω q e' q e'
  | map {α β : Type} {p : Path} {e : Future Sched β} {f : β → α}
      (h : Occurs ω q e' (.input :: p) e) : Occurs ω q e' p (.map e f)
  | mapOk {α β ε : Type} {p : Path} {e : Future Sched (Except ε β)} {f : β → α}
      (h : Occurs ω q e' (.input :: p) e) : Occurs ω q e' p (.mapOk e f)
  | flatten {α β : Type} {p : Path} {e : Future Sched β} {future : β → Future Sched α}
      (h : Occurs ω q e' (.input :: p) e) : Occurs ω q e' p (.flatten e future)
  | inner {α β : Type} {p : Path} {e : Future Sched β} {future : β → Future Sched α}
      (h : Occurs ω q e' (.inner :: p) (future (e.value ω (.input :: p)))) :
      Occurs ω q e' p (.flatten e future)
  | via {α : Type} {p : Path} {e : Future Sched α} {s : Sched}
      (h : Occurs ω q e' (.input :: p) e) : Occurs ω q e' p (.via e s)
  | box {α : Type} {p : Path} {e : Future Sched α}
      (h : Occurs ω q e' (.input :: p) e) : Occurs ω q e' p (.box e)
  | bothLeft {α β : Type} {p : Path} {e₁ : Future Sched α} {e₂ : Future Sched β}
      (h : Occurs ω q e' (.left :: p) e₁) : Occurs ω q e' p (.both e₁ e₂)
  | bothRight {α β : Type} {p : Path} {e₁ : Future Sched α} {e₂ : Future Sched β}
      (h : Occurs ω q e' (.right :: p) e₂) : Occurs ω q e' p (.both e₁ e₂)
  | firstLeft {α : Type} {p : Path} {e₁ e₂ : Future Sched α}
      (h : Occurs ω q e' (.left :: p) e₁) : Occurs ω q e' p (.first e₁ e₂)
  | firstRight {α : Type} {p : Path} {e₁ e₂ : Future Sched α}
      (h : Occurs ω q e' (.right :: p) e₂) : Occurs ω q e' p (.first e₁ e₂)
  | start {α : Type} {p : Path} {e : Future Sched α}
      (h : Occurs ω q e' (.input :: p) e) : Occurs ω q e' p (.start e)

end Future

end CppConcur.Futures
