import Mathlib.Logic.Function.Basic

/-!
# Custody

Tokens that are handed from place to place, such that each token that is in circulation is at exactly one
place. The rules say what a step has to keep: a token may move from the place where it is to another one,
come into circulation, or leave it, and nobody else moves.
-/

namespace CppConcur.Logic

variable {T P : Type*}

/-- The tokens in circulation are those that are found somewhere, and none is found at two places. -/
structure Custody (held : T → Prop) (found : P → T → Prop) : Prop where
  unique : ∀ {t p q}, found p t → found q t → p = q
  held_iff : ∀ t, held t ↔ ∃ p, found p t

namespace Custody

variable {held held' : T → Prop} {found found' : P → T → Prop} {t : T} {p q : P}

theorem existsUnique (h : Custody held found) (ht : held t) : ∃! p, found p t := by
  obtain ⟨p, hp⟩ := (h.held_iff t).mp ht
  exact ⟨p, hp, fun q hq => h.unique hq hp⟩

theorem held_of_found (h : Custody held found) (hp : found p t) : held t :=
  (h.held_iff t).mpr ⟨p, hp⟩

theorem not_found (h : Custody held found) (ht : ¬ held t) : ¬ found p t :=
  fun hp => ht (h.held_of_found hp)

/-- Nobody moves. -/
theorem congr (h : Custody held found) (hheld : ∀ u, held' u ↔ held u)
    (hfound : ∀ r u, found' r u ↔ found r u) : Custody held' found' where
  unique hp hq := h.unique ((hfound _ _).mp hp) ((hfound _ _).mp hq)
  held_iff u := by
    rw [hheld, h.held_iff]
    exact exists_congr fun r => (hfound r u).symm

/-- One token moves, comes or leaves. -/
theorem update (h : Custody held found) (hheld : held' t ↔ ∃ r, found' r t)
    (hself : ∀ r r', found' r t → found' r' t → r = r') (hheld' : ∀ u, u ≠ t → (held' u ↔ held u))
    (hother : ∀ r u, u ≠ t → (found' r u ↔ found r u)) : Custody held' found' := by
  refine ⟨fun {u r r'} hr hr' => ?_, fun u => ?_⟩
  · by_cases hu : u = t
    · subst hu
      exact hself r r' hr hr'
    · exact h.unique ((hother r u hu).mp hr) ((hother r' u hu).mp hr')
  · by_cases hu : u = t
    · subst hu
      exact hheld
    · rw [hheld' u hu, h.held_iff]
      exact exists_congr fun r => (hother r u hu).symm

/-- A token moves from the place where it is. -/
theorem move (h : Custody held found) (hp : found p t) (hheld : ∀ u, held' u ↔ held u) (hleave : ¬ found' p t)
    (harrive : found' q t) (hrest : ∀ r u, (r, u) ≠ (p, t) → (r, u) ≠ (q, t) → (found' r u ↔ found r u)) :
    Custody held' found' := by
  have hself (r : P) (hr : found' r t) : r = q := by
    by_contra hne
    have hrp : r ≠ p := fun heq => hleave (heq ▸ hr)
    exact hrp (h.unique ((hrest r t (by simp [hrp]) (by simp [hne])).mp hr) hp)
  refine h.update ?_ (fun r r' hr hr' => (hself r hr).trans (hself r' hr').symm) (fun u _ => hheld u) ?_
  · exact iff_of_true ((hheld t).mpr (h.held_of_found hp)) ⟨q, harrive⟩
  · intro r u hu
    exact hrest r u (by simp [hu]) (by simp [hu])

/-- A token comes into circulation. -/
theorem add (h : Custody held found) (ht : ¬ held t) (hheld : held' t) (hheld' : ∀ u, u ≠ t → (held' u ↔ held u))
    (harrive : found' q t) (hrest : ∀ r u, (r, u) ≠ (q, t) → (found' r u ↔ found r u)) :
    Custody held' found' := by
  have hself (r : P) (hr : found' r t) : r = q := by
    by_contra hne
    exact h.not_found ht ((hrest r t (by simp [hne])).mp hr)
  refine h.update (iff_of_true hheld ⟨q, harrive⟩) (fun r r' hr hr' => (hself r hr).trans (hself r' hr').symm)
    hheld' ?_
  intro r u hu
  exact hrest r u (by simp [hu])

/-- A token leaves the circulation. -/
theorem remove (h : Custody held found) (hp : found p t) (hheld : ¬ held' t)
    (hheld' : ∀ u, u ≠ t → (held' u ↔ held u)) (hleave : ¬ found' p t)
    (hrest : ∀ r u, (r, u) ≠ (p, t) → (found' r u ↔ found r u)) : Custody held' found' := by
  have hself (r : P) (hr : found' r t) : False := by
    have hrp : r ≠ p := fun heq => hleave (heq ▸ hr)
    exact hrp (h.unique ((hrest r t (by simp [hrp])).mp hr) hp)
  refine h.update (iff_of_false hheld fun ⟨r, hr⟩ => hself r hr) (fun r _ hr _ => (hself r hr).elim) hheld' ?_
  intro r u hu
  exact hrest r u (by simp [hu])

end Custody

end CppConcur.Logic
