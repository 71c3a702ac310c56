import Mathlib.Data.List.Basic

/-!
# Worklists

A machine that takes the first task of a list, performs it, and puts the tasks it gives rise to in front
of the others: the call stack of a program whose calls return nothing. What is shown about a worklist is
shown about the tasks at its front, for any tasks that wait behind them.
-/

namespace CppConcur.Logic.Worklist

variable {σ τ : Type*}

/-- Perform the tasks of a list. Without a result if the fuel does not suffice. -/
def run (step : σ → τ → σ × List τ) : Nat → σ → List τ → Option σ
  | _, s, [] => some s
  | 0, _, _ :: _ => none
  | fuel + 1, s, t :: tasks => run step fuel (step s t).1 ((step s t).2 ++ tasks)

variable {step : σ → τ → σ × List τ}

@[simp] theorem run_nil (fuel : Nat) (s : σ) : run step fuel s [] = some s := by cases fuel <;> rfl

@[simp] theorem run_cons (fuel : Nat) (s : σ) (t : τ) (tasks : List τ) :
    run step (fuel + 1) s (t :: tasks) = run step fuel (step s t).1 ((step s t).2 ++ tasks) := rfl

/-- More fuel does not change the result. -/
theorem run_add {fuel : Nat} {s s' : σ} {tasks : List τ} (h : run step fuel s tasks = some s') (k : Nat) :
    run step (fuel + k) s tasks = some s' := by
  induction fuel generalizing s tasks with
  | zero =>
    cases tasks with
    | nil => simpa using h
    | cons t tasks => cases h
  | succ fuel ih =>
    cases tasks with
    | nil => simpa using h
    | cons t tasks =>
      rw [Nat.add_right_comm, run_cons]
      exact ih h

/-- An invariant that each task keeps while a number decreases: the tasks at the front of the list are
all performed, and the invariant holds when none of them is left. -/
theorem exists_run (step : σ → τ → σ × List τ) {P : Nat → σ → List τ → Prop}
    (hstep : ∀ n s t tasks, P n s (t :: tasks) → ∃ m < n, P m (step s t).1 ((step s t).2 ++ tasks)) :
    ∀ n s tasks, P n s tasks → ∃ used m s', P m s' [] ∧
      ∀ fuel later, run step (fuel + used) s (tasks ++ later) = run step fuel s' later := by
  intro n
  induction n using Nat.strongRecOn with
  | ind n ih =>
    intro s tasks hinv
    cases tasks with
    | nil => exact ⟨0, n, s, hinv, fun fuel later => rfl⟩
    | cons t tasks =>
      obtain ⟨m, hm, hinv'⟩ := hstep n s t tasks hinv
      obtain ⟨used, m', s', hend, hrun⟩ := ih m hm _ _ hinv'
      refine ⟨used + 1, m', s', hend, fun fuel later => ?_⟩
      rw [← hrun fuel later, ← Nat.add_assoc, List.cons_append, run_cons, List.append_assoc]

end CppConcur.Logic.Worklist
