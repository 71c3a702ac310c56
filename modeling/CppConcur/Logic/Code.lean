import Mathlib.Data.Set.Basic
import Mathlib.Logic.Function.Basic

/-!
# Code over cells

Code that reads and writes a memory of cells one at a time, so that the code of several threads can be interleaved cell by
cell. `wp own` is the weakest precondition of code that runs alone and touches only the cells of `own`. It does not depend
on the other cells, so it stays true while other threads write there, and code keeps it with each step it makes itself:
what a thread knows of the rest of its code is such a precondition.
-/

namespace CppConcur.Logic

/-- Code that reads and writes one cell at a time. `stuck` is an access through a null pointer. -/
inductive Code (Cell : Type) (Val : Cell → Type) (α : Type)
  | ret (a : α)
  | read (c : Cell) (k : Val c → Code Cell Val α)
  | write (c : Cell) (v : Val c) (k : Code Cell Val α)
  | stuck

namespace Code

variable {Cell : Type} {Val : Cell → Type} {α β : Type}

protected def bind : Code Cell Val α → (α → Code Cell Val β) → Code Cell Val β
  | ret a, f => f a
  | read c k, f => read c fun v => (k v).bind f
  | write c v k, f => write c v (k.bind f)
  | stuck, _ => stuck

instance : Monad (Code Cell Val) where
  pure := ret
  bind := Code.bind

def load (c : Cell) : Code Cell Val (Val c) := read c ret

def store (c : Cell) (v : Val c) : Code Cell Val Unit := write c v (ret ())

variable [DecidableEq Cell]

/-- The next access of the code. -/
def step : Code Cell Val α → ((c : Cell) → Val c) → Option (((c : Cell) → Val c) × Code Cell Val α)
  | ret _, _ => none
  | read c k, m => some (m, k (m c))
  | write c v k, m => some (Function.update m c v, k)
  | stuck, _ => none

/-- The code from its first access to its end, with no other thread in between. -/
def run : Code Cell Val α → ((c : Cell) → Val c) → Option (((c : Cell) → Val c) × α)
  | ret a, m => some (m, a)
  | read c k, m => (k (m c)).run m
  | write c v k, m => k.run (Function.update m c v)
  | stuck, _ => none

/-- The code touches only the cells of `own` and ends in a state with `Q`. -/
def wp (own : Set Cell) : Code Cell Val α → (α → ((c : Cell) → Val c) → Prop) → ((c : Cell) → Val c) → Prop
  | ret a, Q, m => Q a m
  | read c k, Q, m => c ∈ own ∧ (k (m c)).wp own Q m
  | write c v k, Q, m => c ∈ own ∧ k.wp own Q (Function.update m c v)
  | stuck, _, _ => False

variable {own own' : Set Cell} {Q Q' : α → ((c : Cell) → Val c) → Prop} {m m' : (c : Cell) → Val c}
  {b b' : Code Cell Val α}

/-! ### The rules of the constructs -/

@[simp] theorem wp_pure (a : α) : (pure a : Code Cell Val α).wp own Q m ↔ Q a m := Iff.rfl

@[simp] theorem wp_bind {R : β → ((c : Cell) → Val c) → Prop} (b : Code Cell Val α) (f : α → Code Cell Val β) :
    (b >>= f).wp own R m ↔ b.wp own (fun a => (f a).wp own R) m := by
  show (b.bind f).wp own R m ↔ _
  induction b generalizing m with
  | ret a => exact Iff.rfl
  | read c k ih => exact and_congr_right fun _ => ih _
  | write c v k ih => exact and_congr_right fun _ => ih
  | stuck => exact Iff.rfl

@[simp] theorem wp_load {c : Cell} {R : Val c → ((c : Cell) → Val c) → Prop} :
    (load c : Code Cell Val (Val c)).wp own R m ↔ c ∈ own ∧ R (m c) m := Iff.rfl

@[simp] theorem wp_store {c : Cell} {v : Val c} {R : Unit → ((c : Cell) → Val c) → Prop} :
    (store c v : Code Cell Val Unit).wp own R m ↔ c ∈ own ∧ R () (Function.update m c v) := Iff.rfl

/-! ### What code that owns its cells does -/

theorem wp.mono (h : b.wp own Q m) (hown : own ⊆ own') (hQ : ∀ a m', Q a m' → Q' a m') : b.wp own' Q' m := by
  induction b generalizing m with
  | ret a => exact hQ a m h
  | read c k ih => exact ⟨hown h.1, ih _ h.2⟩
  | write c v k ih => exact ⟨hown h.1, ih h.2⟩
  | stuck => exact h

/-- What other threads write outside the cells of the code does not matter to it. -/
theorem wp.congr (h : b.wp own Q m) (hsame : ∀ c ∈ own, m' c = m c)
    (hQ : ∀ a m₁ m₂, (∀ c ∈ own, m₂ c = m₁ c) → Q a m₁ → Q a m₂) : b.wp own Q m' := by
  induction b generalizing m m' with
  | ret a => exact hQ a m m' hsame h
  | read c k ih =>
    refine ⟨h.1, ?_⟩
    rw [hsame c h.1]
    exact ih _ h.2 hsame
  | write c v k ih =>
    refine ⟨h.1, ih h.2 fun d hd => ?_⟩
    by_cases hdc : d = c
    · subst hdc
      rw [Function.update_self, Function.update_self]
    · rw [Function.update_of_ne hdc, Function.update_of_ne hdc]
      exact hsame d hd
  | stuck => exact h

/-- The cells that the code does not own keep their values. -/
theorem wp.frame (h : b.wp own Q m) : b.wp own (fun a m' => Q a m' ∧ ∀ c ∉ own, m' c = m c) m := by
  suffices hframe : ∀ m₀ : (c : Cell) → Val c, (∀ c ∉ own, m c = m₀ c) →
      b.wp own (fun a m' => Q a m' ∧ ∀ c ∉ own, m' c = m₀ c) m from hframe m fun _ _ => rfl
  induction b generalizing m with
  | ret a => exact fun m₀ hm₀ => ⟨h, hm₀⟩
  | read c k ih => exact fun m₀ hm₀ => ⟨h.1, ih _ h.2 m₀ hm₀⟩
  | write c v k ih =>
    refine fun m₀ hm₀ => ⟨h.1, ih h.2 m₀ fun d hd => ?_⟩
    rw [Function.update_of_ne (ne_of_mem_of_not_mem h.1 hd).symm]
    exact hm₀ d hd
  | stuck => exact h.elim

/-- A step of the code keeps its precondition and the cells that it does not own. -/
theorem wp.step (h : b.wp own Q m) (hstep : b.step m = some (m', b')) :
    b'.wp own Q m' ∧ ∀ c ∉ own, m' c = m c := by
  cases b with
  | ret a => cases hstep
  | read c k =>
    cases hstep
    exact ⟨h.2, fun _ _ => rfl⟩
  | write c v k =>
    cases hstep
    exact ⟨h.2, fun d hd => Function.update_of_ne (ne_of_mem_of_not_mem h.1 hd).symm _ _⟩
  | stuck => exact h.elim

/-- Code whose precondition holds comes to its end. -/
theorem wp.run (h : b.wp own Q m) : ∃ m' a, b.run m = some (m', a) ∧ Q a m' := by
  induction b generalizing m with
  | ret a => exact ⟨m, a, rfl, h⟩
  | read c k ih => exact ih _ h.2
  | write c v k ih => exact ih h.2
  | stuck => exact h.elim

end Code

end CppConcur.Logic
