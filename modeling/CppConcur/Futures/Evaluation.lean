import CppConcur.Futures.Run

/-!
# Evaluations do the work of the expression

Each tree of a configuration has a value it is going to resume its consumer with, a scheduler for the
state, and work that is left to do. A step keeps the first two and moves the third from the tree to
the log, whatever the order of steps: what has happened and what is left make up the work that the
expression prescribes. A tree that was started and is not finished has a task to run, a promise to be
set or a call under way.
-/

namespace CppConcur.Futures

variable {Sched : Type} {α β ε : Type} {ω : Path → Bool}

/-! ### What is left to do -/

namespace Cont

/-- What the continuation makes of a value. -/
def value (ω : Path → Bool) (p : Path) : {α β : Type} → Cont Sched β α → β → α
  | _, _, .map f, v => f v
  | _, _, .mapOk f, v => v.map f
  | _, _, .flatten future, v => (future v).value ω (.inner :: p)
  | _, _, .inner _, v => v
  | _, _, .via _, v => v
  | _, _, .box, v => v
  | _, _, .start, v => v

/-- What the continuation makes of a state. -/
def sched : {α β : Type} → Cont Sched β α → State Sched → State Sched
  | _, _, .map _, s => s
  | _, _, .mapOk _, s => s
  | _, _, .flatten _, s => s
  | _, _, .inner s, _ => s
  | _, _, .via s, _ => some s
  | _, _, .box, s => s
  | _, _, .start, s => s

/-- The work of the continuation once its input has arrived. -/
def work (ω : Path → Bool) (p : Path) : {α β : Type} → Cont Sched β α → β → State Sched →
    Multiset (Work Sched)
  | _, _, .map f, v, s => (Task.map v f).work p s
  | _, _, .mapOk f, v, s => (Task.mapOk v f).work p s
  | _, _, .flatten future, v, _ => (future v).prescribed ω (.inner :: p)
  | _, _, .inner _, _, _ => 0
  | _, _, .via _, _, _ => 0
  | _, _, .box, _, _ => 0
  | _, _, .start, _, _ => 0

end Cont

namespace Run

/-- The value that the consumer is going to be resumed with. -/
def value (ω : Path → Bool) : {α : Type} → Path → Run Sched α → α
  | _, _, .ready v => v
  | _, _, .submit _ f => f ()
  | _, _, .contract v _ => v
  | _, p, .begin r => r.value ω p
  | _, p, .later r => r.value ω p
  | _, _, .task t _ => t.run
  | _, _, .resume v _ => v
  | _, p, .under r k => k.value ω p (r.value ω (k.branch :: p))
  | _, p, .both l r => (l.value ω (.left :: p), r.value ω (.right :: p))
  | _, p, .bothA a r => (a, r.value ω (.right :: p))
  | _, p, .bothB l b => (l.value ω (.left :: p), b)
  | _, p, .first l r => if ω p then l.value ω (.left :: p) else r.value ω (.right :: p)
  | _, p, .eager r => r.value ω (.input :: p)
  | _, _, .eagerDone v _ => v

/-- The state that the consumer is going to be resumed with. -/
def sched : {α : Type} → Run Sched α → State Sched
  | _, .ready _ => none
  | _, .submit s _ => some s
  | _, .contract _ _ => none
  | _, .begin r => r.sched
  | _, .later r => r.sched
  | _, .task _ s => some s
  | _, .resume _ s => s
  | _, .under r k => k.sched r.sched
  | _, .both _ _ => none
  | _, .bothA _ _ => none
  | _, .bothB _ _ => none
  | _, .first _ _ => none
  | _, .eager r => r.sched
  | _, .eagerDone _ s => s

/-- The work that is left before the consumer is resumed. -/
def work (ω : Path → Bool) : {α : Type} → Path → Run Sched α → Multiset (Work Sched)
  | _, _, .ready _ => 0
  | _, p, .submit s f => (Task.submit f).work p (some s)
  | _, _, .contract _ _ => 0
  | _, p, .begin r => r.work ω p
  | _, p, .later r => r.work ω p
  | _, p, .task t s => t.calls p (some s)
  | _, _, .resume _ _ => 0
  | _, p, .under r k =>
    fed (k.branch :: p) (r.work ω (k.branch :: p)) (r.value ω (k.branch :: p)) r.sched +
      k.work ω p (r.value ω (k.branch :: p)) r.sched
  | _, p, .both l r =>
    fed (.left :: p) (l.work ω (.left :: p)) (l.value ω (.left :: p)) l.sched +
        {.count .both p true (order (ω p) true)} +
      (fed (.right :: p) (r.work ω (.right :: p)) (r.value ω (.right :: p)) r.sched +
        {.count .both p false (order (ω p) false)})
  | _, p, .bothA _ r =>
    fed (.right :: p) (r.work ω (.right :: p)) (r.value ω (.right :: p)) r.sched +
      {.count .both p false 1}
  | _, p, .bothB l _ =>
    fed (.left :: p) (l.work ω (.left :: p)) (l.value ω (.left :: p)) l.sched + {.count .both p true 1}
  | _, p, .first l r =>
    fed (.left :: p) (l.work ω (.left :: p)) (l.value ω (.left :: p)) l.sched +
        {.count .first p true (order (ω p) true)} +
      (fed (.right :: p) (r.work ω (.right :: p)) (r.value ω (.right :: p)) r.sched +
        {.count .first p false (order (ω p) false)})
  | _, p, .eager r => fed (.input :: p) (r.work ω (.input :: p)) (r.value ω (.input :: p)) r.sched
  | _, _, .eagerDone _ _ => 0

end Run

/-- The work that is left in a tree, with the resumption of its consumer. -/
def Root.todo (ω : Path → Bool) (x : Root Sched) : Multiset (Work Sched) :=
  x.run.work ω x.path + outlet x.path ⟨x.type, x.run.value ω x.path⟩ x.run.sched

/-- The work that is left in a collection of trees. -/
def todo (ω : Path → Bool) (xs : List (Root Sched)) : Multiset (Work Sched) :=
  (xs.map (Root.todo ω)).sum

theorem todo_append (xs ys : List (Root Sched)) : todo ω (xs ++ ys) = todo ω xs + todo ω ys := by
  rw [todo, List.map_append, List.sum_append, todo, todo]

theorem todo_cons (x : Root Sched) (xs : List (Root Sched)) :
    todo ω (x :: xs) = x.todo ω + todo ω xs := by
  rw [todo, List.map_cons, List.sum_cons, todo]

/-! ### The objects of an expression are its work -/

namespace Future

theorem sched_init (e : Future Sched α) : e.init.sched = e.sched := by
  induction e with
  | ready | submit | contract | both | first => rfl
  | map e f ih | mapOk e f ih | box e ih | start e ih => exact ih
  | flatten e future ih => exact ih
  | via => rfl

theorem value_init (e : Future Sched α) (p : Path) : e.init.value ω p = e.value ω p := by
  induction e generalizing p with
  | ready | submit | contract => rfl
  | map e f ih => exact congrArg f (ih _)
  | mapOk e f ih => exact congrArg (Except.map f) (ih _)
  | flatten e future ih =>
    exact congrArg (fun v => (future v).value ω (.inner :: p)) (ih _)
  | via e s ih | box e ih | start e ih => exact ih _
  | both e₁ e₂ ih₁ ih₂ => exact congrArg₂ Prod.mk (ih₁ _) (ih₂ _)
  | first e₁ e₂ ih₁ ih₂ =>
    show (if ω p then e₁.init.value ω _ else e₂.init.value ω _) = _
    rw [ih₁, ih₂]
    rfl

theorem work_init (e : Future Sched α) (p : Path) : e.init.work ω p = e.work ω p := by
  induction e generalizing p with
  | ready | submit | contract => rfl
  | map e f ih =>
    show fed _ (e.init.work ω _) (e.init.value ω _) e.init.sched + Task.work p _ _ = _
    rw [ih, value_init, sched_init]
    rfl
  | mapOk e f ih =>
    show fed _ (e.init.work ω _) (e.init.value ω _) e.init.sched + Task.work p _ _ = _
    rw [ih, value_init, sched_init]
    rfl
  | flatten e future ih =>
    show fed _ (e.init.work ω _) (e.init.value ω _) e.init.sched + prescribed ω _ _ = _
    rw [ih, value_init, sched_init]
    rfl
  | via e s ih | box e ih =>
    show fed _ (e.init.work ω _) (e.init.value ω _) e.init.sched + 0 = _
    rw [ih, value_init, sched_init, add_zero]
    rfl
  | start e ih =>
    show fed _ (e.init.work ω _) (e.init.value ω _) e.init.sched = _
    rw [ih, value_init, sched_init]
    rfl
  | both e₁ e₂ ih₁ ih₂ =>
    show fed _ (e₁.init.work ω _) (e₁.init.value ω _) e₁.init.sched + _ +
      (fed _ (e₂.init.work ω _) (e₂.init.value ω _) e₂.init.sched + _) = _
    rw [ih₁, ih₂, value_init, value_init, sched_init, sched_init]
    rfl
  | first e₁ e₂ ih₁ ih₂ =>
    show fed _ (e₁.init.work ω _) (e₁.init.value ω _) e₁.init.sched + _ +
      (fed _ (e₂.init.work ω _) (e₂.init.value ω _) e₂.init.sched + _) = _
    rw [ih₁, ih₂, value_init, value_init, sched_init, sched_init]
    rfl

end Future

/-! ### A step does some of the work that is left -/

namespace Work

/-- The work decides that the input on the given side is the first to come to the node. -/
def Decides (q : Path) (left : Bool) : Work Sched → Prop
  | .count _ p left' 0 => p = q ∧ left' = left
  | _ => False

end Work

/-- The oracle is right about what has been decided. -/
def Agrees (ω : Path → Bool) (w : List (Work Sched)) : Prop :=
  ∀ x ∈ w, ∀ q left, x.Decides q left → ω q = left

theorem Agrees.last {x y : Work Sched} (h : Agrees ω [x, y]) {q : Path} {left : Bool}
    (hy : y.Decides q left) : ω q = left :=
  h y (List.mem_cons_of_mem x (List.mem_singleton_self y)) q left hy

/-- A step keeps value and state, and what it does was left to do. -/
structure Kept (ω : Path → Bool) (p : Path) (r : Run Sched α) (w : List (Work Sched))
    (x : List (Root Sched)) (r' : Run Sched α) : Prop where
  value : r'.value ω p = r.value ω p
  sched : r'.sched = r.sched
  work : (w : Multiset (Work Sched)) + (r'.work ω p + todo ω x) = r.work ω p

section Kept

variable {p q : Path} {w : List (Work Sched)} {x : List (Root Sched)}

/-- A step that does nothing but hand the computation over. -/
theorem Kept.silent {r r' : Run Sched α} (hvalue : r'.value ω p = r.value ω p)
    (hsched : r'.sched = r.sched) (hwork : r'.work ω p = r.work ω p) : Kept ω p r [] [] r' := by
  refine ⟨hvalue, hsched, ?_⟩
  show 0 + (r'.work ω p + 0) = r.work ω p
  rw [zero_add, add_zero, hwork]

/-- A step of an input is one of the work fed to the consumer. -/
theorem Kept.fed {r r' : Run Sched α} (h : Kept ω p r w x r') (rest : Multiset (Work Sched)) :
    (w : Multiset (Work Sched)) +
        (fed p (r'.work ω p) (r'.value ω p) r'.sched + rest + todo ω x) =
      fed p (r.work ω p) (r.value ω p) r.sched + rest := by
  rw [h.value, h.sched, Futures.fed, Futures.fed, ← h.work]
  abel

/-- The same for an input on the right of a node with two inputs. -/
theorem Kept.fed_right {r r' : Run Sched α} (h : Kept ω p r w x r')
    (before rest : Multiset (Work Sched)) :
    (w : Multiset (Work Sched)) +
        (before + (Futures.fed p (r'.work ω p) (r'.value ω p) r'.sched + rest) + todo ω x) =
      before + (Futures.fed p (r.work ω p) (r.value ω p) r.sched + rest) := by
  rw [← h.fed rest]
  abel

/-- The same for an input on the left of a node with two inputs. -/
theorem Kept.fed_left {r r' : Run Sched α} (h : Kept ω p r w x r')
    (rest after : Multiset (Work Sched)) :
    (w : Multiset (Work Sched)) +
        (Futures.fed p (r'.work ω p) (r'.value ω p) r'.sched + rest + after + todo ω x) =
      Futures.fed p (r.work ω p) (r.value ω p) r.sched + rest + after := by
  rw [← h.fed rest]
  abel

theorem met_kept {v : α} {m : Rendezvous × Bool} {r : Run Sched α} (hvalue : r.value ω p = v)
    (hsched : r.sched = none) (hwork : r.work ω p = 0) : Kept ω p r [] [] (.met v m) := by
  unfold Run.met
  split
  · exact .silent hvalue.symm hsched.symm hwork.symm
  · exact .silent hvalue.symm hsched.symm hwork.symm

theorem dispatch_kept {t : Task α} {s : State Sched} :
    (t.dispatch p s).1.value ω p = t.run ∧ (t.dispatch p s).1.sched = s ∧
      ((t.dispatch p s).2 : Multiset (Work Sched)) + (t.dispatch p s).1.work ω p = t.work p s := by
  cases s with
  | none => exact ⟨rfl, rfl, add_zero _⟩
  | some s => exact ⟨rfl, rfl, rfl⟩

theorem resume_kept {v : β} {s : State Sched} {k : Cont Sched β α} :
    Kept ω p (.under (.resume v s) k) (.arrive (k.branch :: p) ⟨β, v⟩ s :: (k.resume p v s).2) []
      (k.resume p v s).1 := by
  have hresume : (k.resume p v s).1.value ω p = k.value ω p v ∧
      (k.resume p v s).1.sched = k.sched s ∧
      ((k.resume p v s).2 : Multiset (Work Sched)) + (k.resume p v s).1.work ω p =
        k.work ω p v s := by
    cases k with
    | map f => exact dispatch_kept
    | mapOk f => exact dispatch_kept
    | flatten future =>
      refine ⟨Future.value_init _ _, rfl, ?_⟩
      show 0 + (fed _ ((future v).init.work ω _) ((future v).init.value ω _) (future v).init.sched +
        0) = _
      rw [zero_add, add_zero, Future.work_init, Future.value_init, Future.sched_init]
      rfl
    | inner | via | box | start => exact ⟨rfl, rfl, rfl⟩
  refine ⟨hresume.1, hresume.2.1, ?_⟩
  show ({.arrive (k.branch :: p) ⟨β, v⟩ s} + (k.resume p v s).2 : Multiset (Work Sched)) +
    ((k.resume p v s).1.work ω p + 0) = 0 + {.arrive (k.branch :: p) ⟨β, v⟩ s} + k.work ω p v s
  rw [← hresume.2.2]
  abel

/-- What a step of a tree does is what is left to do before it and not after it. -/
theorem Step.kept {r r' : Run Sched α} (h : Step p r w x r') (hω : Agrees ω w) :
    Kept ω p r w x r' := by
  induction h with
  | startReady | next | startEagerDone => exact .silent rfl rfl rfl
  | startSubmit => exact ⟨rfl, rfl, rfl⟩
  | startContract => exact met_kept rfl rfl rfl
  | startUnder => exact .silent rfl rfl rfl
  | startBoth => exact .silent rfl rfl rfl
  | startFirst => exact .silent rfl rfl rfl
  | startEager => exact .silent rfl rfl (add_zero _)
  | set hst => exact met_kept rfl rfl rfl
  | run => exact ⟨rfl, rfl, add_zero _⟩
  | resume => exact resume_kept
  | @bothLeft _ _ p a s r =>
    have hleft : ω p = true := hω.last ⟨rfl, rfl⟩
    refine ⟨rfl, rfl, ?_⟩
    show ({_} + {_} : Multiset (Work Sched)) + (fed _ (r.work ω _) (r.value ω _) r.sched + {_} + 0) =
      0 + {_} + {_} + (fed _ (r.work ω _) (r.value ω _) r.sched + {_})
    rw [hleft, add_zero, zero_add]
    rfl
  | @bothRight _ _ p l b s =>
    have hright : ω p = false := hω.last ⟨rfl, rfl⟩
    refine ⟨rfl, rfl, ?_⟩
    show ({_} + {_} : Multiset (Work Sched)) + (fed _ (l.work ω _) (l.value ω _) l.sched + {_} + 0) =
      fed _ (l.work ω _) (l.value ω _) l.sched + {_} + (0 + {_} + {_})
    rw [hright, add_zero, zero_add, add_comm]
    rfl
  | pairLeft => exact ⟨rfl, rfl, rfl⟩
  | pairRight => exact ⟨rfl, rfl, rfl⟩
  | @firstLeft _ p v s r =>
    have hleft : ω p = true := hω.last ⟨rfl, rfl⟩
    refine ⟨(if_pos hleft).symm, rfl, ?_⟩
    show ({_} + {_} : Multiset (Work Sched)) +
        (0 + (r.work ω _ + ({.arrive _ ⟨_, r.value ω _⟩ r.sched} + {.count .first p false 1}) + 0)) =
      0 + {_} + {_} + (r.work ω _ + {.arrive _ ⟨_, r.value ω _⟩ r.sched} + {_})
    rw [hleft, add_zero, zero_add, zero_add, add_assoc (r.work ω _)]
    rfl
  | @firstRight _ p l v s =>
    have hright : ω p = false := hω.last ⟨rfl, rfl⟩
    refine ⟨(if_neg (by rw [hright]; nofun)).symm, rfl, ?_⟩
    show ({_} + {_} : Multiset (Work Sched)) +
        (0 + (l.work ω _ + ({.arrive _ ⟨_, l.value ω _⟩ l.sched} + {.count .first p true 1}) + 0)) =
      l.work ω _ + {.arrive _ ⟨_, l.value ω _⟩ l.sched} + {_} + (0 + {_} + {_})
    rw [hright, add_zero, zero_add, zero_add, add_assoc (l.work ω _), add_comm]
    rfl
  | eagerDone => exact ⟨rfl, rfl, rfl⟩
  | begin _ ih | later _ ih => exact ⟨(ih hω).value, (ih hω).sched, (ih hω).work⟩
  | @under _ _ p r r' w x k _ ih =>
    have h := ih hω
    refine ⟨congrArg (k.value ω p) h.value, congrArg k.sched h.sched, ?_⟩
    show _ + (_ + k.work ω p (r'.value ω _) r'.sched + _) = _
    rw [h.fed, h.value, h.sched]
    rfl
  | @inLeft _ _ p l l' r w x _ ih =>
    have h := ih hω
    exact ⟨congrArg (·, r.value ω _) h.value, rfl, h.fed_left _ _⟩
  | @inRight _ _ p l r r' w x _ ih =>
    have h := ih hω
    exact ⟨congrArg (l.value ω _, ·) h.value, rfl, h.fed_right _ _⟩
  | @inLast _ _ p a r r' w x _ ih =>
    have h := ih hω
    exact ⟨congrArg (a, ·) h.value, rfl, h.fed _⟩
  | @inLast' _ _ p l l' b w x _ ih =>
    have h := ih hω
    exact ⟨congrArg (·, b) h.value, rfl, h.fed _⟩
  | @inOne _ p l l' r w x _ ih =>
    have h := ih hω
    exact ⟨congrArg (if ω p then · else r.value ω _) h.value, rfl, h.fed_left _ _⟩
  | @inOther _ p l r r' w x _ ih =>
    have h := ih hω
    exact ⟨congrArg (if ω p then l.value ω _ else ·) h.value, rfl, h.fed_right _ _⟩
  | @eager _ p r r' w x _ ih =>
    have h := ih hω
    refine ⟨h.value, h.sched, ?_⟩
    have hfed := h.fed 0
    rw [add_zero, add_zero] at hfed
    exact hfed

end Kept

/-! ### What a step tells about counters -/

/-- In the objects of a run both inputs of the node are still to come. -/
def Run.Undecided (p : Path) (r : Run Sched α) (q : Path) : Prop :=
  ∀ ω left, ∃ v s, Work.arrive (side left :: q) v s ∈ r.work ω p

/-- An increment of a counter comes with the arrival of its input, and at most one is the first at
its node, whose inputs were both still to come. -/
structure Label (p : Path) (r : Run Sched α) (w : List (Work Sched)) : Prop where
  led : ∀ node q left n, Work.count node q left n ∈ w →
    ∃ v s, Work.arrive (side left :: q) v s ∈ w
  decides : (∀ x ∈ w, ∀ q left, ¬ x.Decides q left) ∨
    ∃ q left, r.Undecided p q ∧ ∀ x ∈ w, ∀ q' left', x.Decides q' left' → q' = q ∧ left' = left

section Label

variable {p : Path} {w : List (Work Sched)} {x : List (Root Sched)}

/-- A step without increments. -/
theorem Label.plain {r : Run Sched α} (h : ∀ x ∈ w, ∀ q, ¬ x.Counts q) : Label p r w := by
  refine ⟨fun node q left n hmem => absurd rfl (h _ hmem q), .inl ?_⟩
  intro x hx q left hdecides
  cases x with
  | arrive | task | call => exact hdecides
  | count node q' left' n =>
    cases n with
    | zero => exact h _ hx q hdecides.1
    | succ n => exact hdecides

theorem Label.silent {r : Run Sched α} : Label p r [] :=
  .plain fun _ hx => absurd hx List.not_mem_nil

/-- A step that increments the counter of one node. -/
theorem Label.counted {r : Run Sched α} {node : Counter} (left : Bool) {n : Nat} {v : Val}
    {s : State Sched} (h : n = 0 → r.Undecided p p) :
    Label p r [.arrive (side left :: p) v s, .count node p left n] := by
  refine ⟨?_, ?_⟩
  · intro node' q left' n' hmem
    obtain ⟨_, rfl, rfl, _⟩ : node' = node ∧ q = p ∧ left' = left ∧ n' = n := by simpa using hmem
    exact ⟨v, s, List.mem_cons_self⟩
  · cases n with
    | succ n =>
      refine .inl ?_
      intro x hx q left hdecides
      obtain rfl | rfl : x = _ ∨ x = _ := by simpa using hx
      · exact hdecides
      · exact hdecides
    | zero =>
      refine .inr ⟨p, left, h rfl, ?_⟩
      intro x hx q' left' hdecides
      obtain rfl | rfl : x = _ ∨ x = _ := by simpa using hx
      · exact hdecides.elim
      · exact ⟨hdecides.1.symm, hdecides.2.symm⟩

/-- A step of an input: what its node was undecided about, the whole was. -/
theorem Label.lift {p' : Path} {r : Run Sched β} {r' : Run Sched α} (h : Label p r w)
    (hle : ∀ ω, r.work ω p ≤ r'.work ω p') : Label p' r' w := by
  refine ⟨h.led, h.decides.imp_right ?_⟩
  intro ⟨q, left, hundecided, hone⟩
  refine ⟨q, left, ?_, hone⟩
  intro ω left'
  obtain ⟨v, s, hmem⟩ := hundecided ω left'
  exact ⟨v, s, Multiset.mem_of_le (hle ω) hmem⟩

/-- A task makes at most one call, of its own function. -/
theorem mem_calls {t : Task α} {s : State Sched} {x : Work Sched} (h : x ∈ t.calls p s) :
    ∃ v, x = .call p v s := by
  cases t with
  | submit f => exact ⟨_, List.mem_singleton.mp h⟩
  | map v f => exact ⟨_, List.mem_singleton.mp h⟩
  | mapOk v f =>
    cases v with
    | ok v => exact ⟨_, List.mem_singleton.mp h⟩
    | error y => exact absurd h List.not_mem_nil

theorem calls_not_counts {t : Task α} {s : State Sched} :
    ∀ x ∈ t.calls p s, ∀ q, ¬ x.Counts q := by
  intro x hx q hq
  obtain ⟨v, rfl⟩ := mem_calls hx
  exact hq

theorem dispatch_not_counts {t : Task α} {s : State Sched} :
    ∀ x ∈ (t.dispatch p s).2, ∀ q, ¬ x.Counts q := by
  cases s with
  | none => exact calls_not_counts
  | some s =>
    intro x hx q hq
    obtain rfl := List.mem_singleton.mp hx
    exact hq

theorem resume_not_counts {v : β} {s : State Sched} {k : Cont Sched β α} :
    ∀ x ∈ (k.resume p v s).2, ∀ q, ¬ x.Counts q := by
  cases k with
  | map f => exact dispatch_not_counts
  | mapOk f => exact dispatch_not_counts
  | flatten | inner | via | box | start => exact fun x hx => absurd hx List.not_mem_nil

/-- Both inputs of a node are among what is left to do at it. -/
theorem arrive_mem_inputs {w₁ w₂ c₁ c₂ : Multiset (Work Sched)} {a : α} {b : β} {s₁ s₂ : State Sched}
    (left : Bool) :
    ∃ v s, Work.arrive (side left :: p) v s ∈
      fed (.left :: p) w₁ a s₁ + c₁ + (fed (.right :: p) w₂ b s₂ + c₂) := by
  cases left with
  | true =>
    exact ⟨_, _, Multiset.mem_add.mpr (.inl (Multiset.mem_add.mpr (.inl arrive_mem_fed)))⟩
  | false =>
    exact ⟨_, _, Multiset.mem_add.mpr (.inr (Multiset.mem_add.mpr (.inl arrive_mem_fed)))⟩

theorem undecided_both {l : Run Sched α} {r : Run Sched β} : (Run.both l r).Undecided p p :=
  fun _ left => arrive_mem_inputs left

theorem undecided_first {l r : Run Sched α} : (Run.first l r).Undecided p p :=
  fun _ left => arrive_mem_inputs left

theorem Step.label {r r' : Run Sched α} (h : Step p r w x r') : Label p r w := by
  induction h with
  | startReady | next | startEagerDone | startContract | startUnder | startBoth | startFirst
  | startEager | set => exact .silent
  | startSubmit =>
    refine .plain ?_
    intro x hx q hq
    obtain rfl := List.mem_singleton.mp hx
    exact hq
  | run => exact .plain calls_not_counts
  | resume =>
    refine .plain ?_
    intro x hx q hq
    cases List.mem_cons.mp hx with
    | inl hx =>
      rw [hx] at hq
      exact hq
    | inr hx => exact resume_not_counts x hx q hq
  | bothLeft => exact .counted true fun _ => undecided_both
  | bothRight => exact .counted false fun _ => undecided_both
  | pairLeft => exact .counted true nofun
  | pairRight => exact .counted false nofun
  | firstLeft => exact .counted true fun _ => undecided_first
  | firstRight => exact .counted false fun _ => undecided_first
  | eagerDone =>
    refine .plain ?_
    intro x hx q hq
    obtain rfl := List.mem_singleton.mp hx
    exact hq
  | begin _ ih | later _ ih => exact ih.lift fun ω => le_rfl
  | under _ ih | inLast _ ih | inLast' _ ih =>
    exact ih.lift fun ω => (le_fed).trans (Multiset.le_add_right _ _)
  | inLeft _ ih | inOne _ ih =>
    exact ih.lift fun ω =>
      ((le_fed).trans (Multiset.le_add_right _ _)).trans (Multiset.le_add_right _ _)
  | inRight _ ih | inOther _ ih =>
    exact ih.lift fun ω =>
      ((le_fed).trans (Multiset.le_add_right _ _)).trans (Multiset.le_add_left _ _)
  | eager _ ih => exact ih.lift fun ω => le_fed

end Label

/-! ### Started computations are never stuck -/

namespace Run

/-- The objects are as they can be, before `Start()` or after it. -/
def Ok : {α : Type} → Bool → Run Sched α → Prop
  | _, started, .ready _ => started = false
  | _, started, .submit _ _ => started = false
  | _, started, .contract _ st =>
    match st with
    | .empty => started = false
    | .produced => started = false
    | .consumed => started = true
    | .rendezvous => False
  | _, started, .begin r => started = true ∧ r.Ok false
  | _, started, .later r => started = true ∧ r.Ok false
  | _, started, .task _ _ => started = true
  | _, started, .resume _ _ => started = true
  | _, started, .under r _ => r.Ok started
  | _, started, .both l r => l.Ok started ∧ r.Ok started
  | _, started, .bothA _ r => started = true ∧ r.Ok true
  | _, started, .bothB l _ => started = true ∧ l.Ok true
  | _, started, .first l r => l.Ok started ∧ r.Ok started
  | _, started, .eager r => started = false ∧ r.Ok true
  | _, started, .eagerDone _ _ => started = false

/-- A started computation has a task to run, a promise to be set or a call under way. -/
theorem Ok.busy {r : Run Sched α} (h : r.Ok true) (p : Path) :
    ¬ (r.tasks p = [] ∧ r.promises = 0 ∧ r.calls = 0) := by
  induction r generalizing p with
  | ready | submit | eagerDone => exact nomatch h
  | contract v st =>
    cases st with
    | empty | produced => exact nomatch h
    | consumed => exact fun hquiet => nomatch hquiet.2.1
    | rendezvous => exact h.elim
  | begin | later | resume => exact fun hquiet => nomatch hquiet.2.2
  | task => exact fun hquiet => nomatch hquiet.1
  | under r k ih => exact ih h _
  | both l r ihl _ | first l r ihl _ =>
    intro ⟨htasks, hpromises, hcalls⟩
    exact ihl h.1 _ ⟨(List.append_eq_nil_iff.mp htasks).1, Nat.eq_zero_of_add_eq_zero_right hpromises,
      Nat.eq_zero_of_add_eq_zero_right hcalls⟩
  | bothA a r ih => exact ih h.2 _
  | bothB l b ih => exact ih h.2 _
  | eager => exact nomatch h.1

end Run

theorem Future.init_ok (e : Future Sched α) : e.init.Ok false := by
  induction e with
  | ready | submit | contract => rfl
  | map e f ih | mapOk e f ih | via e s ih | box e ih => exact ih
  | flatten e future ih => exact ih
  | both e₁ e₂ ih₁ ih₂ => exact ⟨ih₁, ih₂⟩
  | first e₁ e₂ ih₁ ih₂ => exact ⟨ih₁, ih₂⟩
  | start e ih => exact ⟨rfl, rfl, ih⟩

/-- A computation handed over as it is: nothing is left behind. -/
theorem ok_alone {r : Run Sched α} {started : Bool} (h : r.Ok started) :
    r.Ok started ∧ ∀ y ∈ ([] : List (Root Sched)), y.run.Ok true :=
  ⟨h, fun _ hy => absurd hy List.not_mem_nil⟩

theorem consume_ok {v : α} {st : Rendezvous} (h : (Run.contract v st : Run Sched α).Ok false) :
    (Run.met v st.consume : Run Sched α).Ok true := by
  cases st with
  | empty | produced => rfl
  | consumed => exact nomatch h
  | rendezvous => exact h.elim

theorem produce_ok {v : α} {st : Rendezvous} {started : Bool} (hst : st.isSet = false)
    (h : (Run.contract v st : Run Sched α).Ok started) :
    (Run.met v st.produce : Run Sched α).Ok started := by
  cases st with
  | empty | consumed => exact h
  | produced | rendezvous => exact nomatch hst

theorem resume_ok {p : Path} {v : β} {s : State Sched} {k : Cont Sched β α} :
    (k.resume p v s).1.Ok true := by
  cases k with
  | map | mapOk =>
    cases s with
    | none | some => rfl
  | flatten future => exact ⟨rfl, (future v).init_ok⟩
  | inner | via | box | start => rfl

/-- A step keeps the objects as they can be, and what it leaves behind was started. -/
theorem Step.ok {p : Path} {r r' : Run Sched α} {w : List (Work Sched)} {x : List (Root Sched)}
    (h : Step p r w x r') {started : Bool} (hok : r.Ok started) :
    r'.Ok started ∧ ∀ y ∈ x, y.run.Ok true := by
  induction h generalizing started with
  | startReady | startSubmit | startEagerDone => exact ok_alone hok.1
  | startContract =>
    obtain ⟨rfl, hok⟩ := hok
    exact ok_alone (consume_ok hok)
  | startUnder => exact ok_alone hok
  | startBoth | startFirst => exact ok_alone ⟨⟨hok.1, hok.2.1⟩, hok.1, hok.2.2⟩
  | next => exact ok_alone hok
  | startEager =>
    obtain ⟨rfl, _, hok⟩ := hok
    exact ok_alone hok
  | set hst => exact ok_alone (produce_ok hst hok)
  | run => exact ok_alone hok
  | resume =>
    obtain rfl : started = true := hok
    exact ok_alone resume_ok
  | bothLeft =>
    obtain ⟨rfl, hr⟩ : started = true ∧ _ := hok
    exact ok_alone ⟨rfl, hr⟩
  | bothRight =>
    obtain ⟨hl, rfl⟩ : _ ∧ started = true := hok
    exact ok_alone ⟨rfl, hl⟩
  | pairLeft | pairRight => exact ok_alone hok.1
  | firstLeft =>
    obtain ⟨rfl, hr⟩ : started = true ∧ _ := hok
    refine ⟨rfl, ?_⟩
    intro y hy
    rw [List.mem_singleton.mp hy]
    exact hr
  | firstRight =>
    obtain ⟨hl, rfl⟩ : _ ∧ started = true := hok
    refine ⟨rfl, ?_⟩
    intro y hy
    rw [List.mem_singleton.mp hy]
    exact hl
  | eagerDone => exact ok_alone hok.1
  | begin _ ih | later _ ih | inLast _ ih | inLast' _ ih | eager _ ih =>
    exact ⟨⟨hok.1, (ih hok.2).1⟩, (ih hok.2).2⟩
  | under _ ih => exact ih hok
  | inLeft _ ih | inOne _ ih => exact ⟨⟨(ih hok.1).1, hok.2⟩, (ih hok.1).2⟩
  | inRight _ ih | inOther _ ih => exact ⟨⟨hok.1, (ih hok.2).1⟩, (ih hok.2).2⟩

/-! ### Tasks are run after they are submitted -/

/-- The calls of a step that are made in a task are made by one that waits, and the tasks that wait
after a step waited before it or are submitted in it. -/
structure Queued (p : Path) (r : Run Sched α) (w : List (Work Sched)) (x : List (Root Sched))
    (r' : Run Sched α) : Prop where
  calls : ∀ q v s, Work.call q v (some s) ∈ w → (q, s) ∈ r.tasks p
  tasks : ∀ y ∈ r'.tasks p, y ∈ r.tasks p ∨ Work.task y.1 y.2 ∈ w
  rest : ∀ z ∈ x, ∀ y ∈ z.run.tasks z.path, y ∈ r.tasks p

section Queued

variable {p : Path} {w : List (Work Sched)} {x : List (Root Sched)}

/-- A step that makes no call in a task and leaves nothing behind. -/
theorem Queued.plain {r r' : Run Sched α} (hcalls : ∀ q v s, Work.call q v (some s) ∉ w)
    (htasks : ∀ y ∈ r'.tasks p, y ∈ r.tasks p ∨ Work.task y.1 y.2 ∈ w) : Queued p r w [] r' :=
  ⟨fun q v s hmem => absurd hmem (hcalls q v s), htasks, fun _ hz => absurd hz List.not_mem_nil⟩

theorem Queued.silent {r r' : Run Sched α} (htasks : r'.tasks p = r.tasks p) : Queued p r [] [] r' :=
  .plain (fun _ _ _ => List.not_mem_nil) fun _ hy => .inl (htasks ▸ hy)

theorem met_queued {v : α} {m : Rendezvous × Bool} {r : Run Sched α} (htasks : r.tasks p = []) :
    Queued p r [] [] (.met v m) := by
  refine .silent ?_
  rw [htasks, Run.met]
  split <;> rfl

theorem calls_place {t : Task α} {s : State Sched} {q : Path} {v : Val} {place : State Sched}
    (h : .call q v place ∈ t.calls p s) : q = p ∧ place = s := by
  obtain ⟨v', heq⟩ := mem_calls h
  cases heq
  exact ⟨rfl, rfl⟩

theorem dispatch_queued {t : Task α} {s : State Sched} :
    (∀ q v s', Work.call q v (some s') ∉ (t.dispatch p s).2) ∧
      ∀ y ∈ (t.dispatch p s).1.tasks p, Work.task y.1 y.2 ∈ (t.dispatch p s).2 := by
  cases s with
  | none =>
    refine ⟨?_, fun y hy => absurd hy List.not_mem_nil⟩
    intro q v s' hmem
    exact nomatch (calls_place hmem).2
  | some s =>
    refine ⟨?_, ?_⟩
    · intro q v s' hmem
      exact nomatch List.mem_singleton.mp hmem
    · intro y hy
      rw [List.mem_singleton.mp hy]
      exact List.mem_singleton_self _

theorem Future.tasks_init (e : Future Sched α) (p : Path) : e.init.tasks p = [] := by
  induction e generalizing p with
  | ready | submit | contract => rfl
  | map e f ih | mapOk e f ih | via e s ih | box e ih | start e ih => exact ih _
  | flatten e future ih => exact ih _
  | both e₁ e₂ ih₁ ih₂ => exact List.append_eq_nil_iff.mpr ⟨ih₁ _, ih₂ _⟩
  | first e₁ e₂ ih₁ ih₂ => exact List.append_eq_nil_iff.mpr ⟨ih₁ _, ih₂ _⟩

theorem resume_queued {v : β} {s : State Sched} {k : Cont Sched β α} :
    (∀ q v' s', Work.call q v' (some s') ∉ (k.resume p v s).2) ∧
      ∀ y ∈ (k.resume p v s).1.tasks p, Work.task y.1 y.2 ∈ (k.resume p v s).2 := by
  cases k with
  | map f => exact dispatch_queued
  | mapOk f => exact dispatch_queued
  | flatten future =>
    refine ⟨fun _ _ _ => List.not_mem_nil, ?_⟩
    intro y hy
    have hy' : y ∈ (future v).init.tasks (.inner :: p) := hy
    rw [Future.tasks_init] at hy'
    exact absurd hy' List.not_mem_nil
  | inner | via | box | start =>
    exact ⟨fun _ _ _ => List.not_mem_nil, fun y hy => absurd hy List.not_mem_nil⟩

/-- An increment is not a call, and the tasks of the node that waited still wait. -/
theorem Queued.counted {r r' : Run Sched α} {node : Counter} {q : Path} {left : Bool} {n : Nat}
    {q' : Path} {v : Val} {s : State Sched}
    (htasks : ∀ y ∈ r'.tasks p, y ∈ r.tasks p) (hrest : ∀ z ∈ x, ∀ y ∈ z.run.tasks z.path, y ∈ r.tasks p) :
    Queued p r [.arrive q' v s, .count node q left n] x r' := by
  refine ⟨?_, fun y hy => .inl (htasks y hy), hrest⟩
  intro q v s hmem
  simp at hmem

/-- A step of an input. -/
theorem Queued.lift {p' : Path} {r₁ r₁' : Run Sched β} {r r' : Run Sched α}
    (h : Queued p' r₁ w x r₁') (hsub : ∀ y ∈ r₁.tasks p', y ∈ r.tasks p)
    (htasks : ∀ y ∈ r'.tasks p, y ∈ r₁'.tasks p' ∨ y ∈ r.tasks p) : Queued p r w x r' := by
  refine ⟨fun q v s hmem => hsub _ (h.calls q v s hmem), ?_, fun z hz y hy => hsub y (h.rest z hz y hy)⟩
  intro y hy
  cases htasks y hy with
  | inl hy => exact (h.tasks y hy).imp_left (hsub y)
  | inr hy => exact .inl hy

theorem Step.queued {r r' : Run Sched α} (h : Step p r w x r') : Queued p r w x r' := by
  induction h with
  | startReady | next | startEagerDone | startUnder | startBoth | startFirst | startEager =>
    exact .silent rfl
  | startContract => exact met_queued rfl
  | set hst => exact met_queued rfl
  | @startSubmit _ p s f =>
    refine .plain ?_ ?_
    · intro q v s hmem
      exact nomatch List.mem_singleton.mp hmem
    · intro y hy
      rw [List.mem_singleton.mp hy]
      exact .inr (List.mem_singleton_self _)
  | @run _ p t s =>
    refine ⟨?_, fun y hy => absurd hy List.not_mem_nil, fun z hz => absurd hz List.not_mem_nil⟩
    intro q v s' hmem
    obtain ⟨rfl, hplace⟩ := calls_place hmem
    cases hplace
    exact List.mem_singleton_self _
  | resume =>
    refine .plain ?_ ?_
    · intro q v s hmem
      cases List.mem_cons.mp hmem with
      | inl heq => exact nomatch heq
      | inr hmem => exact resume_queued.1 q v s hmem
    · intro y hy
      exact .inr (List.mem_cons_of_mem _ (resume_queued.2 y hy))
  | bothLeft => exact .counted (fun y hy => List.mem_append_right _ hy) nofun
  | bothRight => exact .counted (fun y hy => List.mem_append_left _ hy) nofun
  | pairLeft => exact .counted nofun nofun
  | pairRight => exact .counted nofun nofun
  | firstLeft =>
    refine .counted nofun ?_
    intro z hz y hy
    obtain rfl := List.mem_singleton.mp hz
    exact List.mem_append_right _ hy
  | firstRight =>
    refine .counted nofun ?_
    intro z hz y hy
    obtain rfl := List.mem_singleton.mp hz
    exact List.mem_append_left _ hy
  | eagerDone =>
    refine .plain ?_ nofun
    intro q v s hmem
    exact nomatch List.mem_singleton.mp hmem
  | begin _ ih | later _ ih | under _ ih | inLast _ ih | inLast' _ ih | eager _ ih =>
    exact ih.lift (fun y hy => hy) fun y hy => .inl hy
  | inLeft _ ih | inOne _ ih =>
    exact ih.lift (fun y hy => List.mem_append_left _ hy) fun y hy =>
      (List.mem_append.mp hy).imp id (List.mem_append_right _)
  | inRight _ ih | inOther _ ih =>
    exact ih.lift (fun y hy => List.mem_append_right _ hy) fun y hy =>
      (List.mem_append.mp hy).symm.imp id (List.mem_append_left _)

end Queued

end CppConcur.Futures
