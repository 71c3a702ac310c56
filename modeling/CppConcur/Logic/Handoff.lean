import Mathlib.Data.List.Basic

/-!
# Locks that are handed over in order

The specification of a fair lock, as the set of its histories: who takes the lock while nobody has it,
who comes to wait, and to whom it is handed over when its owner gives it back. Nobody can take the lock
while others wait, and it goes to the one that has waited the longest. Whoever gets the lock may be
scheduled once, before anything else happens.
-/

namespace CppConcur.Logic.Handoff

/-- What happens to a lock. -/
inductive Event (P : Type*)
  /-- `p` takes the lock, which nobody has -/
  | acquire (p : P)
  /-- `p` comes to wait -/
  | push (p : P)
  /-- the owner gives the lock back and nobody gets it -/
  | release
  /-- the owner gives the lock back and `p`, who waits, gets it -/
  | handOver (p : P)
  /-- `p` is scheduled -/
  | schedule (p : P)

variable {P : Type*} {l l' : List (Event P)} {o o' : Option P} {ws ws' : List P} {e : Event P} {p : P}

/-- Those that came to wait, in order. -/
def pushed (l : List (Event P)) : List P :=
  l.filterMap fun
    | .push p => some p
    | _ => none

/-- Those that waited and got the lock, in order. -/
def handedOver (l : List (Event P)) : List P :=
  l.filterMap fun
    | .handOver p => some p
    | _ => none

/-- Who has the lock after an event. -/
def ownerAfter (o : Option P) : Event P → Option P
  | .acquire p => some p
  | .push _ => o
  | .release => none
  | .handOver p => some p
  | .schedule _ => o

/-- Who has the lock after a history. -/
def owner (l : List (Event P)) : Option P := l.foldl ownerAfter none

/-- An event of a lock with the given owner and those that wait, after the given last event. -/
inductive Next (last : Option (Event P)) : Option P → List P → Event P → Option P → List P → Prop
  | acquire (p : P) : Next last none [] (.acquire p) (some p) []
  | push {o : P} {ws : List P} (p : P) : Next last (some o) ws (.push p) (some o) (ws ++ [p])
  | release {o : P} : Next last (some o) [] .release none []
  | handOver {o w : P} {ws : List P} : Next last (some o) (w :: ws) (.handOver w) (some w) ws
  | schedule {p : P} {ws : List P} (hlast : last = some (.acquire p) ∨ last = some (.handOver p)) :
      Next last (some p) ws (.schedule p) (some p) ws

/-- The histories of a fair lock, with its owner and those that wait. -/
inductive Legal : List (Event P) → Option P → List P → Prop
  | nil : Legal [] none []
  | snoc {l : List (Event P)} {o o' : Option P} {ws ws' : List P} {e : Event P} (hl : Legal l o ws)
      (he : Next l.getLast? o ws e o' ws') : Legal (l ++ [e]) o' ws'

theorem pushed_append : pushed (l ++ l') = pushed l ++ pushed l' :=
  List.filterMap_append

theorem handedOver_append : handedOver (l ++ l') = handedOver l ++ handedOver l' :=
  List.filterMap_append

namespace Legal

/-- Only a lock that somebody has is waited for. -/
theorem waiting_eq_nil (h : Legal l none ws) : ws = [] := by
  generalize ho : (none : Option P) = o at h
  cases h with
  | nil => rfl
  | snoc _ he =>
    cases he with
    | release => rfl
    | acquire | push | handOver | schedule => cases ho

/-- The lock goes to those that wait in the order in which they came. -/
theorem pushed_eq (h : Legal l o ws) : pushed l = handedOver l ++ ws := by
  induction h with
  | nil => rfl
  | snoc _ he ih =>
    rw [pushed_append, handedOver_append, ih]
    cases he with
    | acquire p => rfl
    | push p => simp [pushed, handedOver]
    | release => rfl
    | handOver => simp [pushed, handedOver]
    | schedule => simp [pushed, handedOver]

theorem owner_eq (h : Legal l o ws) : owner l = o := by
  induction h with
  | nil => rfl
  | snoc _ he ih =>
    rw [owner, List.foldl_append, ← owner, ih]
    cases he <;> rfl

/-- Every event of a history was possible when it happened. -/
theorem split (h : Legal l o ws) {l₁ l₂ : List (Event P)} (hl : l = l₁ ++ e :: l₂) :
    ∃ o₁ ws₁ o₂ ws₂, Legal l₁ o₁ ws₁ ∧ Next l₁.getLast? o₁ ws₁ e o₂ ws₂ := by
  induction h generalizing l₂ with
  | nil => simp at hl
  | @snoc l o o' ws ws' e' hlegal he ih =>
    rcases List.eq_nil_or_concat' l₂ with rfl | ⟨l₃, x, rfl⟩
    · obtain ⟨rfl, hlast⟩ := List.append_inj' hl rfl
      obtain rfl := List.singleton_inj.mp hlast
      exact ⟨o, ws, o', ws', hlegal, he⟩
    · rw [← List.cons_append, ← List.append_assoc] at hl
      exact ih (List.append_inj' hl rfl).1

/-- When the lock is taken, everybody who came to wait before has got it. -/
theorem pushed_of_acquire (h : Legal l o ws) {l₁ l₂ : List (Event P)} (hl : l = l₁ ++ .acquire p :: l₂) :
    pushed l₁ = handedOver l₁ := by
  obtain ⟨o₁, ws₁, o₂, ws₂, hlegal, he⟩ := h.split hl
  cases he
  rw [hlegal.pushed_eq, List.append_nil]

/-- Who is scheduled has got the lock in the event before. -/
theorem last_of_schedule (h : Legal l o ws) {l₁ l₂ : List (Event P)} (hl : l = l₁ ++ .schedule p :: l₂) :
    l₁.getLast? = some (.acquire p) ∨ l₁.getLast? = some (.handOver p) := by
  obtain ⟨o₁, ws₁, o₂, ws₂, _, he⟩ := h.split hl
  cases he with
  | schedule hlast => exact hlast

theorem acquire (h : Legal l none ws) (p : P) : Legal (l ++ [.acquire p]) (some p) ws := by
  obtain rfl := h.waiting_eq_nil
  exact h.snoc (.acquire p)

theorem schedule (h : Legal (l ++ [e]) (some p) ws) (he : e = .acquire p ∨ e = .handOver p) :
    Legal (l ++ [e] ++ [.schedule p]) (some p) ws := by
  refine h.snoc (.schedule ?_)
  rw [List.getLast?_concat]
  exact he.imp (congrArg some) (congrArg some)

end Legal

end CppConcur.Logic.Handoff
