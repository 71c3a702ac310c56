import Mathlib.Algebra.BigOperators.Group.Finset.Piecewise
import Mathlib.Data.Fintype.BigOperators
import Mathlib.Algebra.Order.BigOperators.Group.Finset
import Mathlib.Algebra.Order.Group.Int
import Mathlib.Tactic.Abel

/-!
# Sums over finitely many parts of a state

A counter that several threads maintain is related to the rest of the state by a conservation law:
its value is a sum of contributions, one for each thread, cell or handle. An action changes the
contribution of one of them, and the law is kept when the counter changes by the same amount.
-/

namespace CppConcur.Logic

variable {ι α M : Type*} [Fintype ι] [DecidableEq ι]

/-- The sum of the contributions after one part of the state has changed. -/
theorem sum_update_add [AddCommMonoid M] (f : α → M) (g : ι → α) (i : ι) (v : α) :
    ∑ j, f (Function.update g i v j) + f (g i) = ∑ j, f (g j) + f v := by
  have hupdate : (fun j => f (Function.update g i v j)) = Function.update (fun j => f (g j)) i (f v) := by
    funext j
    by_cases hj : j = i
    · subst hj
      simp only [Function.update_self]
    · simp only [ne_eq, hj, not_false_eq_true, Function.update_of_ne]
  rw [hupdate, Finset.sum_update_of_mem (Finset.mem_univ i), Finset.sdiff_singleton_eq_erase,
    ← Finset.sum_erase_add _ _ (Finset.mem_univ i)]
  abel

/-- The same for contributions that can be subtracted. -/
theorem sum_update [AddCommGroup M] (f : α → M) (g : ι → α) (i : ι) (v : α) :
    ∑ j, f (Function.update g i v j) = ∑ j, f (g j) + (f v - f (g i)) := by
  rw [← add_sub_assoc, ← sum_update_add f g i v, add_sub_cancel_right]

/-- A sum of nonnegative contributions that is not positive has no contribution at all. -/
theorem eq_zero_of_sum_nonpos {ι : Type*} [Fintype ι] {f : ι → Int} (hf : ∀ i, 0 ≤ f i) (hsum : ∑ i, f i ≤ 0) (i : ι) :
    f i = 0 := by
  have hzero : ∑ i, f i = 0 := le_antisymm hsum (Finset.sum_nonneg fun i _ => hf i)
  exact (Finset.sum_eq_zero_iff_of_nonneg fun i _ => hf i).mp hzero i (Finset.mem_univ i)

/-- A sum of natural numbers that is one has exactly one contribution. -/
theorem exists_of_sum_eq_one {f : ι → Nat} (hsum : ∑ i, f i = 1) : ∃ i, f i = 1 ∧ ∀ j, j ≠ i → f j = 0 := by
  obtain ⟨i, _, hi⟩ := Finset.exists_ne_zero_of_sum_ne_zero (hsum ▸ Nat.one_ne_zero)
  have hsplit := Finset.add_sum_erase Finset.univ f (Finset.mem_univ i)
  have hrest : ∑ j ∈ Finset.univ.erase i, f j = 0 := by omega
  refine ⟨i, by omega, fun j hj => ?_⟩
  exact Finset.sum_eq_zero_iff.mp hrest j (Finset.mem_erase.mpr ⟨hj, Finset.mem_univ j⟩)

end CppConcur.Logic
