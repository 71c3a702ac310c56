import CppConcur.Logic.Transition

/-!
# Phases of a run

A call of an operation is a part of a run: it begins with a step that enters it and lasts as long as the state is inside.
`Since` collects what is observed of the steps from the entering one on, so that a result can speak of an instant of the
call, or of all that happened in it.
-/

namespace CppConcur.Logic.System

variable {σ ε : Type*} {S : System σ} {observe : σ → σ → List ε} {enter : σ → σ → Prop} {inside : σ → Prop}

/-- The state has been reached through a phase that is not over yet or that ends in this state, with the observations of
its steps. -/
inductive Since (S : System σ) (observe : σ → σ → List ε) (enter : σ → σ → Prop) (inside : σ → Prop) :
    List ε → σ → Prop
  | enter {s s' : σ} (hreach : S.Reachable s) (hstep : S.step s s') (henter : enter s s') :
      Since S observe enter inside (observe s s') s'
  | step {seen : List ε} {s s' : σ} (hsince : Since S observe enter inside seen s) (hinside : inside s)
      (hstep : S.step s s') : Since S observe enter inside (seen ++ observe s s') s'

theorem Since.reachable {seen : List ε} {s : σ} (h : S.Since observe enter inside seen s) : S.Reachable s := by
  induction h with
  | enter hreach hstep henter => exact .step hreach hstep
  | step hsince hinside hstep ih => exact .step ih hstep

/-- A relation between the observations and the state that holds when the phase is entered and that every step inside
keeps. -/
theorem Since.invariant {P : List ε → σ → Prop}
    (henter : ∀ s s', S.Reachable s → S.step s s' → enter s s' → P (observe s s') s')
    (hstep : ∀ seen s s', S.Reachable s → P seen s → inside s → S.step s s' → P (seen ++ observe s s') s')
    {seen : List ε} {s : σ} (h : S.Since observe enter inside seen s) : P seen s := by
  induction h with
  | enter hreach hs hin => exact henter _ _ hreach hs hin
  | step hsince hinside hs ih => exact hstep _ _ _ hsince.reachable ih hinside hs

end CppConcur.Logic.System
