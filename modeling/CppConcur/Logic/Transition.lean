import Mathlib.Logic.Function.Basic

/-!
# Transition systems and interleaved threads

A system is its initial states and its atomic steps; what a concurrent program guarantees is a
property of every state a run can reach. The interleaving of threads is one such system: all threads
share a memory, each has a private state, and a step is one atomic action of one thread.

The proof rule for threads is `Program.outline`. It is the method of auxiliary variables: an
invariant of the memory, an assertion for each thread about the memory and its own private state,
and for every action an update of the auxiliary value that keeps the acting thread's assertion and
does not interfere with the assertions of the others. The auxiliary value is a parameter of the
assertions only, so the program itself never carries it.
-/

namespace CppConcur.Logic

/-- The initial states and the atomic steps of a system. -/
structure System (σ : Type*) where
  init : σ → Prop
  step : σ → σ → Prop

namespace System

variable {σ : Type*} {S : System σ}

/-- The states that some run of the system reaches. -/
inductive Reachable (S : System σ) : σ → Prop
  | init {s : σ} (hinit : S.init s) : Reachable S s
  | step {s s' : σ} (hreach : Reachable S s) (hstep : S.step s s') : Reachable S s'

/-- The system that takes only the steps allowed by a condition on the step. -/
def restrict (S : System σ) (allowed : σ → σ → Prop) : System σ where
  init := S.init
  step s s' := S.step s s' ∧ allowed s s'

theorem Reachable.of_restrict {allowed : σ → σ → Prop} {s : σ}
    (h : (S.restrict allowed).Reachable s) : S.Reachable s := by
  induction h with
  | init hinit => exact .init hinit
  | step _ hstep ih => exact .step ih hstep.1

/-- A property of the initial states that every step out of a reachable state keeps. -/
theorem Reachable.invariant {inv : σ → Prop} (hinit : ∀ s, S.init s → inv s)
    (hstep : ∀ s s', S.Reachable s → inv s → S.step s s' → inv s') {s : σ}
    (h : S.Reachable s) : inv s := by
  induction h with
  | init hi => exact hinit _ hi
  | step hreach hs ih => exact hstep _ _ hreach ih hs

/-- The states a run can reach from a given one, in any number of steps. -/
inductive Steps (S : System σ) (s : σ) : σ → Prop
  | refl : Steps S s s
  | tail {s' s'' : σ} (hsteps : Steps S s s') (hstep : S.step s' s'') : Steps S s s''

theorem Steps.trans {s s' s'' : σ} (hleft : S.Steps s s') (hright : S.Steps s' s'') : S.Steps s s'' := by
  induction hright with
  | refl => exact hleft
  | tail _ hstep ih => exact .tail ih hstep

theorem Reachable.steps {s s' : σ} (hreach : S.Reachable s) (hsteps : S.Steps s s') : S.Reachable s' := by
  induction hsteps with
  | refl => exact hreach
  | tail _ hstep ih => exact .step ih hstep

end System

/-- The memory all threads share and the private state of each of them. -/
structure Conf (Tid Mem Loc : Type*) where
  mem : Mem
  pc : Tid → Loc

/-- The atomic actions of each thread, on the memory and its own private state. -/
abbrev Program (Tid Mem Loc : Type*) := Tid → Mem → Loc → Mem → Loc → Prop

namespace Program

variable {Tid Mem Loc : Type*} [DecidableEq Tid]

/-- Every interleaving of the threads' actions. -/
def system (P : Program Tid Mem Loc) (init : Conf Tid Mem Loc → Prop) : System (Conf Tid Mem Loc) where
  init := init
  step c c' := ∃ t mem' loc', P t c.mem (c.pc t) mem' loc' ∧ c' = ⟨mem', Function.update c.pc t loc'⟩

/-- The proof rule for interleaved threads with an auxiliary value. -/
theorem outline {Aux : Type*} {P : Program Tid Mem Loc} {init : Conf Tid Mem Loc → Prop}
    (good : Mem → Aux → Prop) (assertion : Tid → Mem → Aux → Loc → Prop)
    (hinit : ∀ c, init c → ∃ aux, good c.mem aux ∧ ∀ t, assertion t c.mem aux (c.pc t))
    (haction : ∀ t mem aux loc mem' loc', good mem aux → assertion t mem aux loc → P t mem loc mem' loc' →
      ∃ aux', good mem' aux' ∧ assertion t mem' aux' loc' ∧
        ∀ u, u ≠ t → ∀ k, assertion u mem aux k → assertion u mem' aux' k)
    {c : Conf Tid Mem Loc} (h : (P.system init).Reachable c) :
    ∃ aux, good c.mem aux ∧ ∀ t, assertion t c.mem aux (c.pc t) := by
  refine h.invariant hinit ?_
  rintro c _ - ⟨aux, hgood, hpc⟩ ⟨t, mem', loc', hact, rfl⟩
  obtain ⟨aux', hgood', hown, hother⟩ := haction t _ aux _ _ _ hgood (hpc t) hact
  refine ⟨aux', hgood', fun u => ?_⟩
  by_cases hu : u = t
  · subst hu
    simpa only [Function.update_self] using hown
  · simpa only [ne_eq, hu, not_false_eq_true, Function.update_of_ne] using hother u hu _ (hpc u)

end Program

end CppConcur.Logic
