import Mathlib.Data.List.Basic

/-!
# Gates

The specification of a place where participants wait until somebody opens it, as the set of its
histories. A participant comes once: it registers and waits, or it finds the gate open and passes. One
that waits is due when the gate is opened the next time, and is woken, once, by whoever opened it.
-/

namespace CppConcur.Logic.Gate

/-- What happens at a gate with participants `P` that is opened by `D`. -/
inductive Event (P D : Type*)
  /-- `p` comes to wait -/
  | register (p : P)
  /-- `d` opens the gate for those that wait -/
  | opened (d : D)
  /-- `d` schedules `p` -/
  | wake (d : D) (p : P)
  /-- `p` finds the gate open and goes on -/
  | pass (p : P)

/-- What has become of a participant. -/
inductive Status (D : Type*)
  | absent
  | waiting
  /-- `d` has opened the gate and will wake the participant -/
  | due (d : D)
  | woken (d : D)
  | passed

variable {P D : Type*} [DecidableEq P] {l l' : List (Event P D)} {e : Event P D} {p q : P} {d : D}

/-- What an event makes of the participant `p`. -/
def Status.after (p : P) (s : Status D) : Event P D → Status D
  | .register q => if q = p then .waiting else s
  | .opened d =>
    match s with
    | .waiting => .due d
    | s => s
  | .wake d q => if q = p then .woken d else s
  | .pass q => if q = p then .passed else s

/-- What has become of `p` after a history. -/
def status (l : List (Event P D)) (p : P) : Status D := l.foldl (Status.after p) .absent

/-- The event lets `p` go on. -/
def Event.frees (p : P) : Event P D → Bool
  | .wake _ q => q = p
  | .pass q => q = p
  | .register _ => false
  | .opened _ => false

/-- How often `p` was let go on. -/
def released (l : List (Event P D)) (p : P) : Nat := l.countP (Event.frees p)

/-- An event that may come after a history. -/
inductive Next (l : List (Event P D)) : Event P D → Prop
  | register {p : P} (hstatus : status l p = .absent) : Next l (.register p)
  | opened (d : D) : Next l (.opened d)
  | wake {d : D} {p : P} (hstatus : status l p = .due d) : Next l (.wake d p)
  | pass {p : P} (hstatus : status l p = .absent) : Next l (.pass p)

/-- The histories of a gate. -/
inductive Legal : List (Event P D) → Prop
  | nil : Legal []
  | snoc {l : List (Event P D)} {e : Event P D} (hl : Legal l) (he : Next l e) : Legal (l ++ [e])

theorem status_snoc (l : List (Event P D)) (e : Event P D) (p : P) :
    status (l ++ [e]) p = (status l p).after p e := by
  rw [status, List.foldl_append]
  rfl

theorem released_snoc (l : List (Event P D)) (e : Event P D) (p : P) :
    released (l ++ [e]) p = released l p + if e.frees p then 1 else 0 := by
  rw [released, List.countP_append, List.countP_singleton, ← released]

/-! ### The status of one participant after an event -/

theorem status_register_self : status (l ++ [.register p]) p = .waiting := by
  rw [status_snoc]
  exact if_pos rfl

theorem status_register_of_ne (h : p ≠ q) : status (l ++ [.register q]) p = status l p := by
  rw [status_snoc]
  exact if_neg h.symm

theorem status_opened_of_waiting (h : status l p = .waiting) : status (l ++ [.opened d]) p = .due d := by
  rw [status_snoc, h]
  rfl

/-- Who does not wait is not concerned when the gate is opened. -/
theorem status_opened_of_ne {s : Status D} (h : status l p = s) (hs : s ≠ .waiting) :
    status (l ++ [.opened d]) p = s := by
  rw [status_snoc, h]
  cases s with
  | waiting => exact absurd rfl hs
  | absent | due | woken | passed => rfl

theorem status_wake_self : status (l ++ [.wake d p]) p = .woken d := by
  rw [status_snoc]
  exact if_pos rfl

theorem status_wake_of_ne (h : p ≠ q) : status (l ++ [.wake d q]) p = status l p := by
  rw [status_snoc]
  exact if_neg h.symm

theorem status_pass_self : status (l ++ [.pass p]) p = .passed := by
  rw [status_snoc]
  exact if_pos rfl

theorem status_pass_of_ne (h : p ≠ q) : status (l ++ [.pass q]) p = status l p := by
  rw [status_snoc]
  exact if_neg h.symm

/-! ### What the status tells about the history -/

/-- The part of the history that concerns `p`, as its status tells it. -/
def Told (l : List (Event P D)) (p : P) : Status D → Prop
  | .absent => released l p = 0 ∧ .register p ∉ l
  | .waiting => released l p = 0 ∧ .register p ∈ l
  | .due d => released l p = 0 ∧ [.register p, .opened d].Sublist l
  | .woken d => released l p = 1 ∧ [.register p, .opened d, .wake d p].Sublist l
  | .passed => released l p = 1 ∧ .register p ∉ l

/-- Events that do not concern `p`. -/
theorem Told.keep {s : Status D} (h : Told l p s) (hfrees : e.frees p = false) (hreg : e ≠ .register p) :
    Told (l ++ [e]) p s := by
  have hreleased : released (l ++ [e]) p = released l p := by
    rw [released_snoc, hfrees]
    rfl
  have hmem : Event.register p ∈ l ++ [e] ↔ .register p ∈ l := by
    rw [List.mem_append, List.mem_singleton]
    exact or_iff_left hreg.symm
  have hsub {k : List (Event P D)} (hk : k.Sublist l) : k.Sublist (l ++ [e]) :=
    hk.trans (List.sublist_append_left l [e])
  cases s with
  | absent => exact ⟨hreleased ▸ h.1, hmem.not.mpr h.2⟩
  | waiting => exact ⟨hreleased ▸ h.1, hmem.mpr h.2⟩
  | due d => exact ⟨hreleased ▸ h.1, hsub h.2⟩
  | woken d => exact ⟨hreleased ▸ h.1, hsub h.2⟩
  | passed => exact ⟨hreleased ▸ h.1, hmem.not.mpr h.2⟩

theorem Told.opened {s : Status D} (h : Told l p s) (d : D) :
    Told (l ++ [.opened d]) p (s.after p (.opened d)) := by
  cases s with
  | waiting =>
    refine ⟨?_, ?_⟩
    · rw [released_snoc, h.1]
      rfl
    · exact (List.singleton_sublist.mpr h.2).append (List.Sublist.refl [Event.opened d])
  | absent | due | woken | passed => exact h.keep rfl nofun

theorem Legal.told (h : Legal l) (p : P) : Told l p (status l p) := by
  induction h with
  | nil => exact ⟨rfl, List.not_mem_nil⟩
  | @snoc l e _ he ih =>
    rw [status_snoc]
    cases he with
    | @register q hstatus =>
      rcases eq_or_ne q p with rfl | hne
      · rw [hstatus] at ih
        rw [Status.after, if_pos rfl]
        exact ⟨by rw [released_snoc, ih.1]; rfl, List.mem_concat_self⟩
      · rw [Status.after, if_neg hne]
        exact ih.keep rfl fun heq => hne (by cases heq; rfl)
    | opened d => exact ih.opened d
    | @wake d q hstatus =>
      rcases eq_or_ne q p with rfl | hne
      · rw [hstatus] at ih
        rw [Status.after, if_pos rfl]
        refine ⟨?_, ih.2.append (List.Sublist.refl [Event.wake d q])⟩
        rw [released_snoc, ih.1, Event.frees, decide_eq_true rfl]
        rfl
      · rw [Status.after, if_neg hne]
        exact ih.keep (decide_eq_false hne) nofun
    | @pass q hstatus =>
      rcases eq_or_ne q p with rfl | hne
      · rw [hstatus] at ih
        rw [Status.after, if_pos rfl]
        refine ⟨?_, ?_⟩
        · rw [released_snoc, ih.1, Event.frees, decide_eq_true rfl]
          rfl
        · rw [List.mem_append, List.mem_singleton, not_or]
          exact ⟨ih.2, nofun⟩
      · rw [Status.after, if_neg hne]
        exact ih.keep (decide_eq_false hne) nofun

/-- Nobody is let go on twice. -/
theorem Legal.released_le_one (h : Legal l) (p : P) : released l p ≤ 1 := by
  have htold := h.told p
  cases hs : status l p with
  | absent | waiting | due =>
    rw [hs] at htold
    exact Nat.le_one_iff_eq_zero_or_eq_one.mpr (.inl htold.1)
  | woken | passed =>
    rw [hs] at htold
    exact Nat.le_of_eq htold.1

/-- Who is woken has registered before the gate was opened by the one that wakes it. -/
theorem Legal.sublist_of_wake (h : Legal l) (hmem : .wake d p ∈ l) :
    [.register p, .opened d, .wake d p].Sublist l := by
  induction h with
  | nil => exact absurd hmem List.not_mem_nil
  | @snoc l e hl he ih =>
    rcases List.mem_append.mp hmem with hold | hnew
    · exact (ih hold).trans (List.sublist_append_left l [e])
    · obtain rfl := List.mem_singleton.mp hnew
      cases he with
      | wake hstatus =>
        have htold := hl.told p
        rw [hstatus] at htold
        exact htold.2.append (List.Sublist.refl [Event.wake d p])

end CppConcur.Logic.Gate
