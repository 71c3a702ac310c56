import CppConcur.Futures.Evaluation

/-!
# What an evaluation amounts to

In every configuration that an evaluation reaches, what has happened is part of the work that the
expression prescribes, and when nothing is left to run it is all of it. Since every piece of work has
its own node, this says how often the demand is resumed and each function is called, with which
values, and on which scheduler.
-/

namespace CppConcur.Futures

variable {Sched : Type} {α β γ ε : Type} {ω : Path → Bool}

/-! ### The invariant of an evaluation -/

/-- What has happened and what is left are the work of the expression, whatever the races that are
not decided come to. -/
structure Inv (e : Future Sched α) (c : Conf Sched) : Prop where
  oracle : ∃ ω, Agrees ω c.log
  conserved : ∀ ω, Agrees ω c.log →
    (c.log : Multiset (Work Sched)) + todo ω c.roots = e.prescribed ω []
  led : ∀ node q left n, Work.count node q left n ∈ c.log →
    ∃ v s, Work.arrive (side left :: q) v s ∈ c.log
  started : ∀ x ∈ c.roots, x.run.Ok true
  submitted : ∀ x ∈ c.roots, ∀ y ∈ x.run.tasks x.path, Work.task y.1 y.2 ∈ c.log
  placed : ∀ q v s, Work.call q v (some s) ∈ c.log → Work.task q s ∈ c.log

theorem Agrees.append {w w' : List (Work Sched)} :
    Agrees ω (w ++ w') ↔ Agrees ω w ∧ Agrees ω w' := by
  refine ⟨fun h => ⟨?_, ?_⟩, ?_⟩
  · exact fun x hx => h x (List.mem_append_left _ hx)
  · exact fun x hx => h x (List.mem_append_right _ hx)
  · intro ⟨h, h'⟩ x hx
    exact (List.mem_append.mp hx).elim (h x) (h' x)

theorem mem_todo {y : Work Sched} {xs : List (Root Sched)} :
    y ∈ todo ω xs ↔ ∃ x ∈ xs, y ∈ x.todo ω := by
  induction xs with
  | nil => simp [todo]
  | cons x xs ih => rw [todo_cons, Multiset.mem_add, ih, List.exists_mem_cons_iff]

/-- Nothing that has happened is left to do. -/
theorem Inv.not_left {e : Future Sched α} {c : Conf Sched} (h : Inv e c) (hω : Agrees ω c.log)
    {x y : Work Sched} (hx : x ∈ c.log) (hy : y ∈ todo ω c.roots) : x.key ≠ y.key := by
  have hnodup := (e.spread_prescribed ω []).1
  rw [← h.conserved ω hω, Multiset.map_add, Multiset.nodup_add] at hnodup
  intro hkey
  exact Multiset.disjoint_left.mp hnodup.2.2 (Multiset.mem_map_of_mem _ (Multiset.mem_coe.mpr hx))
    (hkey ▸ Multiset.mem_map_of_mem _ hy)

theorem outlet_decides {p : Path} {v : Val} {s : State Sched} : Agrees ω (outlet p v s) := by
  intro x hx q left hdecides
  unfold outlet at hx
  split at hx
  all_goals
    simp only [List.mem_cons, List.not_mem_nil, or_false] at hx
  · rcases hx with rfl | rfl <;> exact hdecides.elim
  · rcases hx with rfl | rfl <;> exact hdecides.elim
  · rw [hx] at hdecides
    exact hdecides.elim

theorem outlet_led {p : Path} {v : Val} {s : State Sched} {node : Counter} {q : Path} {left : Bool}
    {n : Nat} (h : .count node q left n ∈ outlet p v s) :
    node = .first ∧ n = 1 ∧ p = side left :: q := by
  unfold outlet at h
  split at h
  · simp only [List.mem_cons, List.not_mem_nil, or_false, reduceCtorEq, false_or] at h
    cases h
    exact ⟨rfl, rfl, rfl⟩
  · simp only [List.mem_cons, List.not_mem_nil, or_false, reduceCtorEq, false_or] at h
    cases h
    exact ⟨rfl, rfl, rfl⟩
  · simp at h

theorem inv_init (e : Future Sched α) : Inv e ⟨[⟨[], α, .later e.init⟩], []⟩ where
  oracle := ⟨fun _ => true, fun _ hx => absurd hx List.not_mem_nil⟩
  conserved ω _ := by
    show 0 + (e.init.work ω [] + {.arrive [] ⟨α, e.init.value ω []⟩ e.init.sched} + 0) = _
    rw [zero_add, add_zero, Future.work_init, Future.value_init, Future.sched_init]
    rfl
  led _ _ _ _ hmem := absurd hmem List.not_mem_nil
  started x hx := by
    rw [List.mem_singleton.mp hx]
    exact ⟨rfl, e.init_ok⟩
  submitted x hx y hy := by
    obtain rfl := List.mem_singleton.mp hx
    have hy' : y ∈ e.init.tasks [] := hy
    rw [Future.tasks_init] at hy'
    exact absurd hy' List.not_mem_nil
  placed _ _ _ hmem := absurd hmem List.not_mem_nil

/-- The races decided before a step and in it can be put into one oracle. -/
theorem Inv.oracle_step {e : Future Sched α} {before after : List (Root Sched)} {p : Path}
    {r : Run Sched β} {log w : List (Work Sched)}
    (h : Inv e ⟨before ++ ⟨p, β, r⟩ :: after, log⟩) (hlabel : Label p r w) :
    ∃ ω, Agrees ω (log ++ w) := by
  obtain ⟨ω, hω⟩ := h.oracle
  cases hlabel.decides with
  | inl hnone =>
    refine ⟨ω, Agrees.append.mpr ⟨hω, ?_⟩⟩
    intro x hx q left hdecides
    exact absurd hdecides (hnone x hx q left)
  | inr hone =>
    obtain ⟨q, left, hundecided, hone⟩ := hone
    refine ⟨Function.update ω q left, Agrees.append.mpr ⟨?_, ?_⟩⟩
    · intro x hx q' left' hdecides
      rcases eq_or_ne q' q with rfl | hne
      · -- an earlier decision at the node would have let one of its inputs arrive
        exfalso
        obtain ⟨node, rfl⟩ : ∃ node, x = .count node q' left' 0 := by
          cases x with
          | arrive | task | call => exact hdecides.elim
          | count node p' left'' n =>
            cases n with
            | zero => exact ⟨node, by rw [hdecides.1, hdecides.2]⟩
            | succ n => exact hdecides.elim
        obtain ⟨v, s, hmem⟩ := h.led _ _ _ _ hx
        obtain ⟨v', s', hleft⟩ := hundecided ω left'
        have htodo : .arrive (side left' :: q') v' s' ∈ todo ω (before ++ ⟨p, β, r⟩ :: after) :=
          mem_todo.mpr ⟨⟨p, β, r⟩, List.mem_append_right _ List.mem_cons_self,
            Multiset.mem_add.mpr (.inl hleft)⟩
        exact h.not_left hω hmem htodo rfl
      · rw [Function.update_of_ne hne]
        exact hω x hx q' left' hdecides
    · intro x hx q' left' hdecides
      obtain ⟨rfl, rfl⟩ := hone x hx q' left' hdecides
      exact Function.update_self _ _ _

theorem inv_inside {e : Future Sched α} {before after x : List (Root Sched)} {p : Path}
    {r r' : Run Sched β} {log w : List (Work Sched)}
    (h : Inv e ⟨before ++ ⟨p, β, r⟩ :: after, log⟩) (hstep : Step p r w x r') :
    Inv e ⟨before ++ ⟨p, β, r'⟩ :: (x ++ after), log ++ w⟩ := by
  have hlabel := hstep.label
  have hqueued := hstep.queued
  have hmem : (⟨p, β, r⟩ : Root Sched) ∈ before ++ ⟨p, β, r⟩ :: after :=
    List.mem_append_right _ List.mem_cons_self
  have hok := hstep.ok (h.started _ hmem)
  -- a tree after the step is one of the others, the tree that moved, or left behind by it
  have hcases : ∀ y ∈ before ++ ⟨p, β, r'⟩ :: (x ++ after),
      y ∈ before ++ ⟨p, β, r⟩ :: after ∨ y = ⟨p, β, r'⟩ ∨ y ∈ x := by
    intro y hy
    simp only [List.mem_append, List.mem_cons] at hy ⊢
    tauto
  refine ⟨h.oracle_step hlabel, ?_, ?_, ?_, ?_, ?_⟩
  · intro ω hω
    obtain ⟨hlog, hw⟩ := Agrees.append.mp hω
    have hkept := hstep.kept hw
    rw [← h.conserved ω hlog]
    simp only [todo_append, todo_cons, Root.todo, ← Multiset.coe_add, ← hkept.work, hkept.value,
      hkept.sched]
    abel
  · intro node q left n hcount
    cases List.mem_append.mp hcount with
    | inl hcount =>
      obtain ⟨v, s, harrive⟩ := h.led _ _ _ _ hcount
      exact ⟨v, s, List.mem_append_left _ harrive⟩
    | inr hcount =>
      obtain ⟨v, s, harrive⟩ := hlabel.led _ _ _ _ hcount
      exact ⟨v, s, List.mem_append_right _ harrive⟩
  · intro y hy
    rcases hcases y hy with hy | rfl | hy
    · exact h.started y hy
    · exact hok.1
    · exact hok.2 y hy
  · intro y hy z hz
    rcases hcases y hy with hy | rfl | hy
    · exact List.mem_append_left _ (h.submitted y hy z hz)
    · cases hqueued.tasks z hz with
      | inl hz => exact List.mem_append_left _ (h.submitted _ hmem z hz)
      | inr hz => exact List.mem_append_right _ hz
    · exact List.mem_append_left _ (h.submitted _ hmem z (hqueued.rest y hy z hz))
  · intro q v s hcall
    cases List.mem_append.mp hcall with
    | inl hcall => exact List.mem_append_left _ (h.placed q v s hcall)
    | inr hcall => exact List.mem_append_left _ (h.submitted _ hmem _ (hqueued.calls q v s hcall))

theorem inv_finish {e : Future Sched α} {before after : List (Root Sched)} {p : Path} {v : β}
    {s : State Sched} {log : List (Work Sched)}
    (h : Inv e ⟨before ++ ⟨p, β, .resume v s⟩ :: after, log⟩) :
    Inv e ⟨before ++ after, log ++ outlet p ⟨β, v⟩ s⟩ := by
  have hsub : ∀ y ∈ before ++ after, y ∈ before ++ ⟨p, β, .resume v s⟩ :: after := by
    intro y hy
    simp only [List.mem_append, List.mem_cons] at hy ⊢
    tauto
  refine ⟨?_, ?_, ?_, fun y hy => h.started y (hsub y hy), ?_, ?_⟩
  · obtain ⟨ω, hω⟩ := h.oracle
    exact ⟨ω, Agrees.append.mpr ⟨hω, outlet_decides⟩⟩
  · intro ω hω
    rw [← h.conserved ω (Agrees.append.mp hω).1]
    simp only [todo_append, todo_cons, Root.todo, ← Multiset.coe_add, Run.work, Run.value, Run.sched]
    abel
  · intro node q left n hcount
    cases List.mem_append.mp hcount with
    | inl hcount =>
      obtain ⟨v, s, harrive⟩ := h.led _ _ _ _ hcount
      exact ⟨v, s, List.mem_append_left _ harrive⟩
    | inr hcount =>
      obtain ⟨_, _, rfl⟩ := outlet_led hcount
      exact ⟨_, _, List.mem_append_right _ List.mem_cons_self⟩
  · intro y hy z hz
    exact List.mem_append_left _ (h.submitted y (hsub y hy) z hz)
  · intro q v' s' hcall
    cases List.mem_append.mp hcall with
    | inl hcall => exact List.mem_append_left _ (h.placed q v' s' hcall)
    | inr hcall =>
      exfalso
      unfold outlet at hcall
      split at hcall <;> simp at hcall

/-- The invariant holds in every configuration of an evaluation. -/
theorem inv_of_reachable {e : Future Sched α} {c : Conf Sched} (h : (system e).Reachable c) :
    Inv e c := by
  induction h with
  | init hinit =>
    obtain rfl : _ = _ := hinit
    exact inv_init e
  | step _ hstep ih =>
    cases hstep with
    | inside hstep => exact inv_inside ih hstep
    | finish => exact inv_finish ih

/-! ### Nothing happens twice, and in the end everything has happened -/

theorem Inv.log_le {e : Future Sched α} {c : Conf Sched} (h : Inv e c) (hω : Agrees ω c.log) :
    (c.log : Multiset (Work Sched)) ≤ e.prescribed ω [] := by
  rw [← h.conserved ω hω]
  exact Multiset.le_add_right _ _

theorem Inv.mem_prescribed {e : Future Sched α} {c : Conf Sched} (h : Inv e c) (hω : Agrees ω c.log)
    {x : Work Sched} (hx : x ∈ c.log) : x ∈ e.prescribed ω [] :=
  Multiset.mem_of_le (h.log_le hω) (Multiset.mem_coe.mpr hx)

/-- No two things happen with one key. -/
theorem Inv.nodup {e : Future Sched α} {c : Conf Sched} (h : Inv e c) : (c.log.map Work.key).Nodup := by
  obtain ⟨ω, hω⟩ := h.oracle
  have hle := Multiset.map_le_map (f := Work.key) (h.log_le hω)
  exact Multiset.coe_nodup.mp (Multiset.nodup_of_le hle (e.spread_prescribed ω []).1)

/-- What has happened with the key of a prescribed piece of work is that piece of work. -/
theorem Inv.eq_of_key {e : Future Sched α} {c : Conf Sched} (h : Inv e c) (hω : Agrees ω c.log)
    {x y : Work Sched} (hx : x ∈ c.log) (hy : y ∈ e.prescribed ω []) (hkey : x.key = y.key) : x = y :=
  (e.spread_prescribed ω []).eq_of_key (h.mem_prescribed hω hx) hy hkey

theorem Inv.roots_of_quiet {e : Future Sched α} {c : Conf Sched} (h : Inv e c) (hquiet : c.Quiet) :
    c.roots = [] := by
  apply List.eq_nil_iff_forall_not_mem.mpr
  intro x hx
  exact (h.started x hx).busy x.path (hquiet x hx)

theorem Inv.log_eq {e : Future Sched α} {c : Conf Sched} (h : Inv e c) (hω : Agrees ω c.log)
    (hquiet : c.Quiet) : (c.log : Multiset (Work Sched)) = e.prescribed ω [] := by
  rw [← h.conserved ω hω, h.roots_of_quiet hquiet]
  exact (add_zero _).symm

/-- The values the demand has been resumed with. -/
def Conf.resumed (c : Conf Sched) : List Val :=
  c.log.filterMap fun x => match x with
    | .arrive [] v _ => some v
    | _ => none

theorem Conf.mem_resumed {c : Conf Sched} {v : Val} :
    v ∈ c.resumed ↔ ∃ s, .arrive [] v s ∈ c.log := by
  rw [resumed, List.mem_filterMap]
  refine ⟨?_, fun ⟨s, hmem⟩ => ⟨_, hmem, rfl⟩⟩
  intro ⟨x, hx, hv⟩
  split at hv
  · cases hv
    exact ⟨_, hx⟩
  · cases hv

theorem length_filterMap_le_one {l : List (Work Sched)} {f : Work Sched → Option Val}
    {k : Kind × Path × Bool} (hnodup : (l.map Work.key).Nodup)
    (hf : ∀ x y, f x = some y → x.key = k) : (l.filterMap f).length ≤ 1 := by
  induction l with
  | nil => exact Nat.zero_le 1
  | cons x l ih =>
    obtain ⟨hnotMem, hnodup⟩ := List.nodup_cons.mp hnodup
    cases hx : f x with
    | none =>
      rw [List.filterMap_cons_none hx]
      exact ih hnodup
    | some y =>
      have hrest : l.filterMap f = [] := by
        rw [List.filterMap_eq_nil_iff]
        intro z hz
        cases hfz : f z with
        | none => rfl
        | some y' =>
          refine absurd (List.mem_map.mpr ⟨z, hz, ?_⟩) hnotMem
          rw [hf z y' hfz, hf x y hx]
      rw [List.filterMap_cons_some hx, hrest]
      exact Nat.le_refl 1

/-- The demand is resumed at most once. -/
theorem Inv.resumed_le {e : Future Sched α} {c : Conf Sched} (h : Inv e c) : c.resumed.length ≤ 1 := by
  refine length_filterMap_le_one (k := (.arrive, [], false)) h.nodup ?_
  intro x y hx
  split at hx
  · rfl
  · cases hx

/-- The demand is resumed with the value and the state of the expression. -/
theorem Inv.arrive_root {e : Future Sched α} {c : Conf Sched} (h : Inv e c) (hω : Agrees ω c.log)
    {v : Val} {s : State Sched} (hmem : .arrive [] v s ∈ c.log) :
    v = ⟨α, e.value ω []⟩ ∧ s = e.sched := by
  have heq := h.eq_of_key hω hmem (y := .arrive [] ⟨α, e.value ω []⟩ e.sched) arrive_mem_fed rfl
  cases heq
  exact ⟨rfl, rfl⟩

/-- The demand has been resumed when nothing is left to run. -/
theorem Inv.resumed_of_quiet {e : Future Sched α} {c : Conf Sched} (h : Inv e c)
    (hω : Agrees ω c.log) (hquiet : c.Quiet) : c.resumed = [⟨α, e.value ω []⟩] := by
  have hmem : ⟨α, e.value ω []⟩ ∈ c.resumed := by
    refine Conf.mem_resumed.mpr ⟨e.sched, Multiset.mem_coe.mp ?_⟩
    rw [h.log_eq hω hquiet]
    exact arrive_mem_fed
  have hlength := h.resumed_le
  match hresumed : c.resumed, hmem, hlength with
  | [v], hmem, _ => rw [List.mem_singleton.mp hmem]

/-! ### Future pipelines compute their meaning -/

/-- The functions that the evaluation has called, with their arguments. -/
def Conf.called (c : Conf Sched) : List (Path × Val) :=
  c.log.filterMap fun x => match x with
    | .call p v _ => some (p, v)
    | _ => none

/-- The functions of an expression without races, each with the meaning of its input. -/
def Future.calls : {α : Type} → Path → Future Sched α → List (Path × Val)
  | _, _, .ready _ => []
  | _, p, .submit _ _ => [(p, ⟨Unit, ()⟩)]
  | _, _, .contract _ => []
  | _, p, .map e _ => e.calls (.input :: p) ++ [(p, ⟨_, e.meaning⟩)]
  | _, p, .mapOk e _ =>
    e.calls (.input :: p) ++
      match e.meaning with
      | .ok v => [(p, ⟨_, v⟩)]
      | .error _ => []
  | _, p, .flatten e future => e.calls (.input :: p) ++ (future e.meaning).calls (.inner :: p)
  | _, p, .via e _ => e.calls (.input :: p)
  | _, p, .box e => e.calls (.input :: p)
  | _, p, .both e₁ e₂ => e₁.calls (.left :: p) ++ e₂.calls (.right :: p)
  | _, p, .first e₁ e₂ => e₁.calls (.left :: p) ++ e₂.calls (.right :: p)
  | _, p, .start e => e.calls (.input :: p)

/-- The work is a submission or a call at the node. -/
def Work.RunsAt (q : Path) : Work Sched → Prop
  | .task p _ => p = q
  | .call p _ _ => p = q
  | _ => False

section RunsAt

variable {p q : Path} {x : Work Sched}

theorem Work.RunsAt.mem_of_fed {w : Multiset (Work Sched)} {v : α} {s : State Sched}
    (hq : x.RunsAt q) (h : x ∈ fed p w v s) : x ∈ w := by
  cases Multiset.mem_add.mp h with
  | inl h => exact h
  | inr h =>
    rw [Multiset.mem_singleton.mp h] at hq
    exact hq.elim

theorem Work.RunsAt.mem_of_count {w : Multiset (Work Sched)} {node : Counter} {left : Bool} {n : Nat}
    (hq : x.RunsAt q) (h : x ∈ w + {.count node p left n}) : x ∈ w := by
  cases Multiset.mem_add.mp h with
  | inl h => exact h
  | inr h =>
    rw [Multiset.mem_singleton.mp h] at hq
    exact hq.elim

/-- What runs at a node below one with two inputs is below one of them. -/
theorem Work.RunsAt.mem_of_inputs {w₁ w₂ : Multiset (Work Sched)} {node : Counter} {n₁ n₂ : Nat}
    (hq : x.RunsAt q) (h : x ∈ w₁ + {.count node p true n₁} + (w₂ + {.count node p false n₂})) :
    x ∈ w₁ ∨ x ∈ w₂ :=
  (Multiset.mem_add.mp h).imp hq.mem_of_count hq.mem_of_count

end RunsAt

theorem call_mem_task {p q : Path} {t : Task α} {s place : State Sched} {v : Val}
    (h : .call q v place ∈ t.work p s) : .call q v place ∈ t.calls p s := by
  cases List.mem_append.mp (Multiset.mem_coe.mp h) with
  | inl h =>
    obtain ⟨s', _, heq⟩ := List.mem_map.mp h
    exact nomatch heq
  | inr h => exact h

/-- A function that is called is called on the meaning of its input. -/
theorem Future.mem_calls {e : Future Sched α} {p q : Path} {v : Val} {place : State Sched}
    (he : e.RaceFree) (h : .call q v place ∈ e.work ω p) : (q, v) ∈ e.calls p := by
  have hq : (Work.call q v place : Work Sched).RunsAt q := rfl
  induction e generalizing p with
  | ready | contract => exact absurd h (Multiset.notMem_zero _)
  | submit s f =>
    cases List.mem_singleton.mp (call_mem_task h)
    exact List.mem_singleton_self _
  | map e f ih =>
    cases Multiset.mem_add.mp h with
    | inl h => exact List.mem_append_left _ (ih he (hq.mem_of_fed h))
    | inr h =>
      have hcall := List.mem_singleton.mp (call_mem_task h)
      rw [value_eq_meaning e _ he] at hcall
      cases hcall
      exact List.mem_append_right _ (List.mem_singleton_self _)
  | mapOk e f ih =>
    cases Multiset.mem_add.mp h with
    | inl h => exact List.mem_append_left _ (ih he (hq.mem_of_fed h))
    | inr h =>
      have hcall := call_mem_task h
      rw [value_eq_meaning e _ he] at hcall
      refine List.mem_append_right _ ?_
      cases hmeaning : e.meaning with
      | ok v' =>
        rw [hmeaning] at hcall
        cases List.mem_singleton.mp hcall
        exact List.mem_singleton_self _
      | error x =>
        rw [hmeaning] at hcall
        exact absurd hcall List.not_mem_nil
  | flatten e future ih ihfuture =>
    cases Multiset.mem_add.mp h with
    | inl h => exact List.mem_append_left _ (ih he.1 (hq.mem_of_fed h))
    | inr h =>
      rw [value_eq_meaning e _ he.1] at h
      exact List.mem_append_right _ (ihfuture _ (he.2 _) (hq.mem_of_fed h))
  | via e s ih | box e ih | start e ih => exact ih he (hq.mem_of_fed h)
  | both e₁ e₂ ih₁ ih₂ =>
    cases hq.mem_of_inputs h with
    | inl h => exact List.mem_append_left _ (ih₁ he.1 (hq.mem_of_fed h))
    | inr h => exact List.mem_append_right _ (ih₂ he.2 (hq.mem_of_fed h))
  | first => exact he.elim

theorem Inv.called_nodup {e : Future Sched α} {c : Conf Sched} (h : Inv e c) :
    (c.called.map Prod.fst).Nodup := by
  rw [List.Nodup, List.pairwise_map, Conf.called, List.pairwise_filterMap]
  refine (List.pairwise_map.mp h.nodup).imp ?_
  intro x y hne a hx b hy heq
  split at hx
  · split at hy
    · cases hx
      cases hy
      cases heq
      exact hne rfl
    · cases hy
  · cases hx

/-- Whatever the schedulers, the order in which they run their tasks and the order in which the
promises are set: the demand is resumed at most once, with the meaning of the expression; every user
function is called at most once, on the meaning of its input; and when all tasks have been run and
all promises have been set, the demand has been resumed. -/
theorem pipeline_meaning (e : Future Sched α) (he : e.RaceFree) {c : Conf Sched}
    (h : (system e).Reachable c) :
    c.resumed.length ≤ 1 ∧ (∀ v ∈ c.resumed, v = ⟨α, e.meaning⟩) ∧
      (c.called.map Prod.fst).Nodup ∧ (∀ x ∈ c.called, x ∈ e.calls []) ∧
      (c.Quiet → c.resumed = [⟨α, e.meaning⟩]) := by
  have hinv := inv_of_reachable h
  obtain ⟨ω, hω⟩ := hinv.oracle
  rw [← e.value_eq_meaning (ω := ω) [] he]
  refine ⟨hinv.resumed_le, ?_, hinv.called_nodup, ?_, hinv.resumed_of_quiet hω⟩
  · intro v hv
    obtain ⟨s, hmem⟩ := Conf.mem_resumed.mp hv
    exact (hinv.arrive_root hω hmem).1
  · intro x hx
    obtain ⟨y, hy, hx⟩ := List.mem_filterMap.mp hx
    split at hx
    · next p v place =>
      cases hx
      have hq : (Work.call p v place : Work Sched).RunsAt p := rfl
      exact Future.mem_calls he (hq.mem_of_fed (hinv.mem_prescribed hω hy))
    · cases hx

/-- A step of an evaluation with a single tree. -/
theorem reachable_single {e : Future Sched α} {p : Path} {r r' : Run Sched β}
    {log w : List (Work Sched)} (h : (system e).Reachable ⟨[⟨p, β, r⟩], log⟩)
    (hstep : Step p r w [] r') : (system e).Reachable ⟨[⟨p, β, r'⟩], log ++ w⟩ :=
  .step h (@Conf.Step.inside _ p β r r' w [] [] [] log hstep)

theorem reachable_finish {e : Future Sched α} {p : Path} {v : β} {s : State Sched}
    {log : List (Work Sched)} (h : (system e).Reachable ⟨[⟨p, β, .resume v s⟩], log⟩) :
    (system e).Reachable ⟨[], log ++ outlet p ⟨β, v⟩ s⟩ :=
  .step h (@Conf.Step.finish _ p β v s [] [] log)

/-- A submitted function, mapped on the same scheduler, and a contract. -/
def pairExample : Future Nat (Nat × Bool) :=
  .both (.map (.submit 0 fun _ => 2) (· + 1)) (.contract true)

/-- The promise is set while the tasks of the left input have not been run. -/
theorem pairExample_run : ∃ c : Conf Nat, (system pairExample).Reachable c ∧ c.Quiet := by
  have hstart : (system pairExample).Reachable ⟨[⟨[], Nat × Bool, .later pairExample.init⟩], []⟩ :=
    .init rfl
  have hboth := reachable_single (reachable_single hstart .next) .startBoth
  have hleft := reachable_single (reachable_single hboth (.inLeft .startUnder))
    (.inLeft (.under .startSubmit))
  have hright := reachable_single (reachable_single hleft (.inRight .next)) (.inRight .startContract)
  have hset := reachable_single hright (.inRight (.set rfl))
  have hcame := reachable_single hset .bothRight
  have hran := reachable_single hcame (.inLast' (.under .run))
  have hmap := reachable_single (reachable_single hran (.inLast' .resume)) (.inLast' .run)
  have hdone := reachable_finish (reachable_single hmap .pairLeft)
  exact ⟨_, hdone, fun x hx => absurd hx List.not_mem_nil⟩

theorem pipeline_meaning_pair :
    ∃ c : Conf Nat, (system pairExample).Reachable c ∧ c.resumed = [⟨Nat × Bool, (3, true)⟩] := by
  obtain ⟨c, hreach, hquiet⟩ := pairExample_run
  exact ⟨c, hreach, (pipeline_meaning pairExample ⟨trivial, trivial⟩ hreach).2.2.2.2 hquiet⟩

end CppConcur.Futures
