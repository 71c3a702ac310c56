import Mathlib.Data.List.Nodup
import Mathlib.Logic.Function.Basic

/-!
# Lists of waiting threads

A waiting list names the threads that are at certain places of their program, each once. The lemmas
say how the list follows when one thread moves.
-/

namespace CppConcur.Logic

/-- The list has those that satisfy the predicate, each once. -/
structure Roster {α : Type*} (l : List α) (P : α → Prop) : Prop where
  nodup : l.Nodup
  mem_iff : ∀ a, a ∈ l ↔ P a

/-- A thread that comes to a list did not wait, or it was scheduled and is taken off the list of those
that were. -/
inductive Arrival {α Loc : Type*} [DecidableEq α] (Q : Loc → Prop) (a : α) (x : Loc) (woken : List α) :
    List α → Prop
  | first (hout : ¬ Q x) : Arrival Q a x woken woken
  | again (hin : Q x) (hmem : a ∈ woken) : Arrival Q a x woken (woken.erase a)

namespace Roster

variable {α Loc : Type*} {l l' : List α} {P : α → Prop}

theorem nil (h : ∀ a, ¬ P a) : Roster [] P :=
  ⟨List.nodup_nil, fun a => ⟨fun hmem => absurd hmem List.not_mem_nil, fun hP => absurd hP (h a)⟩⟩

theorem perm (h : Roster l P) (hperm : l'.Perm l) : Roster l' P :=
  ⟨hperm.nodup_iff.mpr h.nodup, fun a => hperm.mem_iff.trans (h.mem_iff a)⟩

variable [DecidableEq α] {Q : Loc → Prop} {pc : α → Loc} {a : α} {x : Loc}

/-- A thread moves between two places on the same side. -/
theorem keep (h : Roster l fun b => Q (pc b)) (hQ : Q x ↔ Q (pc a)) :
    Roster l fun b => Q (Function.update pc a x b) := by
  refine ⟨h.nodup, fun b => ?_⟩
  rw [h.mem_iff b]
  rcases eq_or_ne b a with rfl | hne
  · rw [Function.update_self, hQ]
  · rw [Function.update_of_ne hne]

/-- A thread comes to wait. -/
theorem enter (h : Roster l fun b => Q (pc b)) (hout : ¬ Q (pc a)) (hin : Q x) :
    Roster (l ++ [a]) fun b => Q (Function.update pc a x b) := by
  refine ⟨?_, fun b => ?_⟩
  · rw [List.nodup_append_comm]
    exact List.nodup_cons.mpr ⟨fun hmem => hout ((h.mem_iff a).mp hmem), h.nodup⟩
  · rw [List.mem_append, List.mem_singleton, h.mem_iff b]
    rcases eq_or_ne b a with rfl | hne
    · simp only [Function.update_self, hin, or_true]
    · simp only [Function.update_of_ne hne, hne, or_false]

/-- A thread stops waiting. -/
theorem exit (h : Roster l fun b => Q (pc b)) (hout : ¬ Q x) :
    Roster (l.erase a) fun b => Q (Function.update pc a x b) := by
  refine ⟨h.nodup.erase a, fun b => ?_⟩
  rw [h.nodup.mem_erase_iff, h.mem_iff b]
  rcases eq_or_ne b a with rfl | hne
  · simp only [Function.update_self, hout, ne_eq, not_true_eq_false, false_and]
  · simp only [Function.update_of_ne hne, ne_eq, hne, not_false_eq_true, true_and]

/-! ### A list of those that wait and a list of those that were scheduled -/

variable {waiting woken woken' : List α}

/-- A thread that was scheduled goes on. -/
theorem leave (h : Roster (waiting ++ woken) fun b => Q (pc b)) (hmem : a ∈ woken) (hout : ¬ Q x) :
    Roster (waiting ++ woken.erase a) fun b => Q (Function.update pc a x b) := by
  have hnot : a ∉ waiting := fun hwaiting => List.disjoint_of_nodup_append h.nodup hwaiting hmem
  rw [← List.erase_append_right woken hnot]
  exact h.exit hout

/-- A thread comes to the end of the list. -/
theorem wait (h : Roster (waiting ++ woken) fun b => Q (pc b)) (hout : ¬ Q (pc a)) (hin : Q x) :
    Roster (waiting ++ [a] ++ woken) fun b => Q (Function.update pc a x b) := by
  apply (h.enter hout hin).perm
  rw [List.append_assoc, List.append_assoc]
  exact List.perm_append_comm.append_left waiting

/-- A thread that arrives goes on. -/
theorem pass (h : Roster (waiting ++ woken) fun b => Q (pc b)) (harrival : Arrival Q a (pc a) woken woken')
    (hout : ¬ Q x) : Roster (waiting ++ woken') fun b => Q (Function.update pc a x b) := by
  cases harrival with
  | first hnot => exact h.keep (iff_of_false hout hnot)
  | again _ hmem => exact h.leave hmem hout

/-- A thread that arrives comes, or comes back, to the end of the list. -/
theorem park (h : Roster (waiting ++ woken) fun b => Q (pc b)) (harrival : Arrival Q a (pc a) woken woken')
    (hin : Q x) : Roster (waiting ++ [a] ++ woken') fun b => Q (Function.update pc a x b) := by
  cases harrival with
  | first hout => exact h.wait hout hin
  | again hold hmem =>
    apply (h.keep (iff_of_true hin hold)).perm
    rw [List.append_assoc]
    exact (List.perm_cons_erase hmem).symm.append_left waiting

omit [DecidableEq α] in
/-- The first that waits is scheduled. -/
theorem wake (h : Roster (a :: waiting ++ woken) P) : Roster (waiting ++ (woken ++ [a])) P := by
  apply h.perm
  rw [← List.append_assoc]
  exact List.perm_append_singleton a (waiting ++ woken)

end Roster

end CppConcur.Logic
