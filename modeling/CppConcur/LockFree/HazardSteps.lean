import CppConcur.LockFree.HazardInvariant
import Mathlib.Data.List.Nodup
import Mathlib.Data.List.Perm.Basic

/-!
# The steps of the hazard pointers

For every action: the new owners, the invariant of the memory and of the histories, the assertion at the
new place, and what the action leaves alone. The only action that needs a condition is the call of
`CleanUp`, which frees the whole retired list without looking at the hazard slots.
-/

namespace CppConcur.LockFree.Hazard

variable {Tid S α : Type*}

/-- Replace the owner of an address. -/
def Aux.setOwn (x : Aux Tid S) (a : Addr) (o : Owner Tid S) : Aux Tid S :=
  { x with own := Function.update x.own a o }

section

variable (x : Aux Tid S) (a b : Addr) (o : Owner Tid S)

@[simp] theorem setOwn_self : (x.setOwn a o).own a = o := Function.update_self ..

theorem setOwn_ne {a b : Addr} (h : b ≠ a) : (x.setOwn a o).own b = x.own b := Function.update_of_ne h ..

/-- An owner other than the old and the new one keeps its addresses. -/
theorem setOwn_iff (o' : Owner Tid S) (hold : x.own a ≠ o') (hnew : o ≠ o') :
    (x.setOwn a o).own b = o' ↔ x.own b = o' := by
  by_cases hb : b = a
  · subst hb
    simp only [setOwn_self, hold, hnew]
  · rw [setOwn_ne x o hb]

end

variable {t : Tid} {m : Mem Tid S α} {x : Aux Tid S}

theorem Good.live (hgood : Good m x) {s : S} (huser : m.user t = some s) : m.destroyer s = none := by
  cases hdestroyer : m.destroyer s with
  | none => rfl
  | some u => exact absurd huser (hgood.unused s u hdestroyer t)

/-- The indices of two threads differ. -/
theorem Good.idx_ne (hgood : Good m x) {u : Tid} (hu : u ≠ t) {i k : Nat} (hk : m.idx u = some k) (hidx : m.idx t = some i) :
    k ≠ i := by
  intro heq
  subst heq
  exact hu (hgood.idx_inj u t k hk hidx)

/-- A private node of `u` is not one that `u` does not own. -/
theorem ne_of_owned {u : Tid} {a b : Addr} (hb : x.own b = .fresh u ∨ x.own b = .popped u) (hfresh : x.own a ≠ .fresh u)
    (hpopped : x.own a ≠ .popped u) : b ≠ a := by
  intro heq
  subst heq
  exact hb.elim hfresh hpopped

theorem Good.top_linked (hgood : Good m x) {s : S} {a : Addr} (hlive : m.destroyer s = none) (htop : m.top s = some a) :
    ∃ rest, x.list s = a :: rest ∧ Chain m.next (m.next a) rest := by
  have hchain := hgood.chain s hlive
  rw [htop] at hchain
  cases hlist : x.list s with
  | nil =>
    rw [hlist] at hchain
    cases hchain
  | cons b rest =>
    rw [hlist] at hchain
    cases hchain.1
    exact ⟨rest, rfl, hchain.2⟩

/-! ### The private part of a thread: `user`, `guarded` and its slot -/

section Private

variable [DecidableEq Tid]

theorem Good.set_user (hgood : Good m x) (hguarded : m.guarded t = none) (user : Option S)
    (hlive : ∀ s, user = some s → m.destroyer s = none) : Good { m with user := Function.update m.user t user } x :=
  { hgood with
    guarded := by
      intro u a hu
      have hne : u ≠ t := by
        intro heq
        subst heq
        rw [hguarded] at hu
        cases hu
      simpa only [ne_eq, hne, not_false_eq_true, Function.update_of_ne] using hgood.guarded u a hu
    unused := by
      intro s u hdestroyer w
      by_cases hw : w = t
      · subst hw
        simp only [Function.update_self]
        intro heq
        rw [hlive s heq] at hdestroyer
        cases hdestroyer
      · simpa only [ne_eq, hw, not_false_eq_true, Function.update_of_ne] using hgood.unused s u hdestroyer w }

theorem Frame.set_user (user : Option S) : Frame t m x { m with user := Function.update m.user t user } x :=
  { Frame.refl t m x with
    user := fun _ hu => Function.update_of_ne hu .. }

theorem Good.set_slot (hgood : Good m x) {i : Nat} (hidx : m.idx t = some i) (obj : Option Addr) :
    Good { m with
      slot := Function.update m.slot i (Function.update (m.slot i) 0 obj)
      guarded := Function.update m.guarded t none } x :=
  { hgood with
    slot := by
      intro u a hguarded
      by_cases hu : u = t
      · subst hu
        simp only [Function.update_self, reduceCtorEq] at hguarded
      · simp only [ne_eq, hu, not_false_eq_true, Function.update_of_ne] at hguarded
        obtain ⟨k, hk, hslot⟩ := hgood.slot u a hguarded
        have hki := hgood.idx_ne hu hk hidx
        refine ⟨k, hk, ?_⟩
        simpa only [ne_eq, hki, not_false_eq_true, Function.update_of_ne] using hslot
    guarded := by
      intro u a hguarded
      by_cases hu : u = t
      · subst hu
        simp only [Function.update_self, reduceCtorEq] at hguarded
      · simp only [ne_eq, hu, not_false_eq_true, Function.update_of_ne] at hguarded
        exact hgood.guarded u a hguarded }

theorem Frame.set_slot (hgood : Good m x) {i : Nat} (hidx : m.idx t = some i) (obj : Option Addr) :
    Frame t m x { m with
      slot := Function.update m.slot i (Function.update (m.slot i) 0 obj)
      guarded := Function.update m.guarded t none } x :=
  { Frame.refl t m x with
    guarded := fun _ hu => Function.update_of_ne hu ..
    slot := by
      intro u hu k hk
      have hki := hgood.idx_ne hu hk hidx
      simp only [ne_eq, hki, not_false_eq_true, Function.update_of_ne]
    new_guard := by
      intro a hguarded
      simp only [Function.update_self, reduceCtorEq] at hguarded }

theorem Good.set_guard (hgood : Good m x) {s : S} {a : Addr} {i : Nat} (huser : m.user t = some s) (hidx : m.idx t = some i)
    (hslot : m.slot i 0 = some a) (htop : m.top s = some a) :
    Good { m with guarded := Function.update m.guarded t (some a) } x :=
  { hgood with
    slot := by
      intro u b hguarded
      by_cases hu : u = t
      · subst hu
        simp only [Function.update_self, Option.some.injEq] at hguarded
        subst hguarded
        exact ⟨i, hidx, hslot⟩
      · simp only [ne_eq, hu, not_false_eq_true, Function.update_of_ne] at hguarded
        exact hgood.slot u b hguarded
    guarded := by
      intro u b hguarded
      by_cases hu : u = t
      · subst hu
        simp only [Function.update_self, Option.some.injEq] at hguarded
        subst hguarded
        obtain ⟨rest, hlist, _⟩ := hgood.top_linked (hgood.live huser) htop
        refine ⟨s, huser, .inl ((hgood.linked s a).1 ?_)⟩
        rw [hlist]
        exact List.mem_cons_self
      · simp only [ne_eq, hu, not_false_eq_true, Function.update_of_ne] at hguarded
        exact hgood.guarded u b hguarded }

theorem Good.mutator {m' : Mem Tid S α} (hgood : Good m x) (hmutator : MakeMutator t m m') : Good m' x := by
  cases hmutator with
  | old hidx => exact hgood
  | new hidx hroom =>
    have hnone : m.guarded t = none := by
      cases hguarded : m.guarded t with
      | none => rfl
      | some a =>
        obtain ⟨i, hi, _⟩ := hgood.slot t a hguarded
        rw [hidx] at hi
        cases hi
    exact { hgood with
      retired_new := fun i hi => hgood.retired_new i (Nat.le_of_succ_le hi)
      idx_lt := by
        intro u i hi
        by_cases hu : u = t
        · subst hu
          simp only [Function.update_self, Option.some.injEq] at hi
          subst hi
          exact ⟨Nat.lt_succ_self _, hroom⟩
        · simp only [ne_eq, hu, not_false_eq_true, Function.update_of_ne] at hi
          obtain ⟨hlt, hmax⟩ := hgood.idx_lt u i hi
          exact ⟨Nat.lt_succ_of_lt hlt, hmax⟩
      idx_inj := by
        intro u w i hi hj
        by_cases hu : u = t
        · by_cases hw : w = t
          · rw [hu, hw]
          · subst hu
            simp only [Function.update_self, Option.some.injEq] at hi
            simp only [ne_eq, hw, not_false_eq_true, Function.update_of_ne] at hj
            subst hi
            exact absurd (hgood.idx_lt w _ hj).1 (Nat.lt_irrefl _)
        · simp only [ne_eq, hu, not_false_eq_true, Function.update_of_ne] at hi
          by_cases hw : w = t
          · subst hw
            simp only [Function.update_self, Option.some.injEq] at hj
            subst hj
            exact absurd (hgood.idx_lt u _ hi).1 (Nat.lt_irrefl _)
          · simp only [ne_eq, hw, not_false_eq_true, Function.update_of_ne] at hj
            exact hgood.idx_inj u w i hi hj
      slot := by
        intro u a hguarded
        have hu : u ≠ t := by
          intro heq
          subst heq
          rw [hnone] at hguarded
          cases hguarded
        obtain ⟨k, hk, hslot⟩ := hgood.slot u a hguarded
        exact ⟨k, by simpa only [ne_eq, hu, not_false_eq_true, Function.update_of_ne] using hk, hslot⟩ }

theorem Frame.mutator {m' : Mem Tid S α} (hmutator : MakeMutator t m m') : Frame t m x m' x := by
  cases hmutator with
  | old hidx => exact Frame.refl t m x
  | new hidx hroom =>
    exact { Frame.refl t m x with
      idx := fun _ hu => Function.update_of_ne hu ..
      idx_kept := by
        intro i hi
        rw [hidx] at hi
        cases hi }

end Private

/-! ### Nodes that are private to a thread -/

section Private

theorem Good.own_free (hgood : Good m x) {a : Addr} (hfree : m.alive a = false) : x.own a = .free := (hgood.free a).2 hfree

/-- A node that is not linked is in no list. -/
theorem Good.chain_update (hgood : Good m x) {a : Addr} (hnot : ∀ s, x.own a ≠ .linked s) (next : Option Addr) {s : S}
    {p : Option Addr} (h : Chain m.next p (x.list s)) : Chain (Function.update m.next a next) p (x.list s) := by
  refine h.congr fun b hb => ?_
  have hne : b ≠ a := by
    intro heq
    subst heq
    exact hnot s ((hgood.linked s b).1 hb)
  rw [Function.update_of_ne hne]

theorem Held.set_own {s : S} {a b : Addr} {o : Owner Tid S} (h : Held x s b) (hold : ¬ Held x s a) :
    Held (x.setOwn a o) s b := by
  have hne : b ≠ a := by
    intro heq
    subst heq
    exact hold h
  simpa only [Held, setOwn_ne x o hne] using h

theorem not_held_of_free {s : S} {a : Addr} (h : x.own a = .free) : ¬ Held x s a := by
  rintro (hown | ⟨u, hown⟩ | ⟨i, hown⟩) <;> rw [h] at hown <;> cases hown

theorem not_held_of_fresh {s : S} {a : Addr} (h : x.own a = .fresh t) : ¬ Held x s a := by
  rintro (hown | ⟨u, hown⟩ | ⟨i, hown⟩) <;> rw [h] at hown <;> cases hown

/-- `New<Node>`. -/
theorem Good.alloc (hgood : Good m x) {a : Addr} (hfree : m.alive a = false) (v : α) (t : Tid) :
    Good { m with
      alive := Function.update m.alive a true
      value := Function.update m.value a v
      next := Function.update m.next a none
      ident := Function.update m.ident a m.allocated
      allocated := m.allocated + 1 } (x.setOwn a (.fresh t)) := by
  have hown := hgood.own_free hfree
  exact { hgood with
    free := by
      intro b
      by_cases hb : b = a
      · subst hb
        simp only [setOwn_self, Function.update_self, reduceCtorEq]
      · simpa only [setOwn_ne x _ hb, ne_eq, hb, not_false_eq_true, Function.update_of_ne] using hgood.free b
    linked := fun s b => (hgood.linked s b).trans (setOwn_iff x a b (.fresh t) (.linked s) (by rw [hown]; nofun) nofun).symm
    chain := fun s hlive => hgood.chain_update (by intro s; rw [hown]; nofun) none (hgood.chain s hlive)
    retired := fun i b => (hgood.retired i b).trans (setOwn_iff x a b (.fresh t) (.retired i) (by rw [hown]; nofun) nofun).symm
    guarded := by
      intro u b hguarded
      obtain ⟨s, hs, hheld⟩ := hgood.guarded u b hguarded
      exact ⟨s, hs, hheld.set_own (not_held_of_free hown)⟩ }

theorem Frame.alloc (hgood : Good m x) {a : Addr} (hfree : m.alive a = false) (v : α) :
    Frame t m x { m with
      alive := Function.update m.alive a true
      value := Function.update m.value a v
      next := Function.update m.next a none
      ident := Function.update m.ident a m.allocated
      allocated := m.allocated + 1 } (x.setOwn a (.fresh t)) := by
  have hown := hgood.own_free hfree
  exact { Frame.refl t m x with
    owned := by
      intro u _ b hb
      have hne : b ≠ a := ne_of_owned hb (by rw [hown]; nofun) (by rw [hown]; nofun)
      exact ⟨setOwn_ne x _ hne, Function.update_of_ne hne ..⟩
    next := by
      intro b hb _
      have hne : b ≠ a := by
        intro heq
        subst heq
        exact hb hown
      exact Function.update_of_ne hne ..
    new_retired := fun b i hb => .inl ((setOwn_iff x a b (.fresh t) (.retired i) (by rw [hown]; nofun) nofun).1 hb) }

/-- A store to the link of a private node. -/
theorem Good.set_next (hgood : Good m x) {a : Addr} (hown : x.own a = .fresh t) (next : Option Addr) :
    Good { m with next := Function.update m.next a next } x :=
  { hgood with
    chain := fun s hlive => hgood.chain_update (by intro s; rw [hown]; nofun) next (hgood.chain s hlive) }

theorem Frame.set_next {a : Addr} (hown : x.own a = .fresh t) (next : Option Addr) :
    Frame t m x { m with next := Function.update m.next a next } x :=
  { Frame.refl t m x with
    next := by
      intro b _ hb
      have hne : b ≠ a := by
        intro heq
        subst heq
        exact hb hown
      exact Function.update_of_ne hne .. }

end Private

/-! ### Linking and unlinking -/

section Link

variable [DecidableEq S]

/-- The owners after a node has been pushed. -/
def Aux.link (x : Aux Tid S) (s : S) (a : Addr) : Aux Tid S where
  own := Function.update x.own a (.linked s)
  list := Function.update x.list s (a :: x.list s)

/-- The owners after the top of a stack has been given to somebody else. -/
def Aux.unlink (x : Aux Tid S) (s : S) (a : Addr) (rest : List Addr) (o : Owner Tid S) : Aux Tid S where
  own := Function.update x.own a o
  list := Function.update x.list s rest

theorem Good.link (hgood : Good m x) {s : S} {a : Addr} (hown : x.own a = .fresh t) (heq : m.top s = m.next a)
    (hlive : m.destroyer s = none) (history : List (Event S α)) :
    Good { m with top := Function.update m.top s (some a), history := history } (x.link s a) := by
  have hne : ∀ o b, x.own b = o → o ≠ .fresh t → b ≠ a := by
    intro o b hb ho heq
    subst heq
    exact ho (hb.symm.trans hown)
  have hiff : ∀ b o, o ≠ .fresh t → o ≠ .linked s → ((x.link s a).own b = o ↔ x.own b = o) := fun b o hold hnew =>
    setOwn_iff x a b (.linked s) o (by rw [hown]; exact hold.symm) hnew.symm
  exact { hgood with
    free := fun b => (hiff b .free nofun nofun).trans (hgood.free b)
    linked := by
      intro s' b
      by_cases hs : s' = s
      · subst hs
        simp only [Aux.link, Function.update_self, List.mem_cons, hgood.linked s' b]
        by_cases hb : b = a
        · subst hb
          simp only [Function.update_self, true_or]
        · simp only [hb, false_or, ne_eq, not_false_eq_true, Function.update_of_ne]
      · rw [hiff b (.linked s') nofun (fun h => hs (Owner.linked.inj h)), ← hgood.linked s' b]
        simp only [Aux.link, ne_eq, hs, not_false_eq_true, Function.update_of_ne]
    nodup := by
      intro s'
      by_cases hs : s' = s
      · subst hs
        simp only [Aux.link, Function.update_self, List.nodup_cons]
        refine ⟨fun hmem => ?_, hgood.nodup s'⟩
        exact hne _ a ((hgood.linked s' a).1 hmem) nofun rfl
      · simpa only [Aux.link, ne_eq, hs, not_false_eq_true, Function.update_of_ne] using hgood.nodup s'
    chain := by
      intro s' hlive'
      by_cases hs : s' = s
      · subst hs
        simp only [Aux.link, Function.update_self]
        refine ⟨rfl, ?_⟩
        rw [← heq]
        exact hgood.chain s' hlive
      · simpa only [Aux.link, ne_eq, hs, not_false_eq_true, Function.update_of_ne] using hgood.chain s' hlive'
    retired := fun i b => (hgood.retired i b).trans (hiff b (.retired i) nofun nofun).symm
    guarded := by
      intro u b hguarded
      obtain ⟨s', hs', hheld⟩ := hgood.guarded u b hguarded
      exact ⟨s', hs', hheld.set_own (not_held_of_fresh hown)⟩ }

theorem Frame.link {s : S} {a : Addr} (hown : x.own a = .fresh t) (hlive : m.destroyer s = none)
    (history : List (Event S α)) :
    Frame t m x { m with top := Function.update m.top s (some a), history := history } (x.link s a) :=
  { Frame.refl t m x with
    owned := by
      intro u hu b hb
      have hfresh : x.own a ≠ .fresh u := fun heq => hu (Owner.fresh.inj (heq.symm.trans hown))
      have hne : b ≠ a := ne_of_owned hb hfresh (by rw [hown]; nofun)
      exact ⟨Function.update_of_ne hne .., rfl⟩
    new_retired := by
      intro b i hb
      exact .inl ((setOwn_iff x a b (.linked s) (.retired i) (by rw [hown]; nofun) nofun).1 hb)
    destroying := by
      intro s' u _ hdestroyer
      have hs : s' ≠ s := by
        intro heq
        subst heq
        rw [hlive] at hdestroyer
        cases hdestroyer
      simp only [hdestroyer, Aux.link, ne_eq, hs, not_false_eq_true, Function.update_of_ne, and_self] }

section Unlink

variable {s : S} {a : Addr} {rest : List Addr} {o : Owner Tid S}

omit [DecidableEq S] in
theorem Good.own_head (hgood : Good m x) (hlist : x.list s = a :: rest) : x.own a = .linked s := by
  apply (hgood.linked s a).1
  rw [hlist]
  exact List.mem_cons_self

theorem Good.linked_unlink (hgood : Good m x) (hlist : x.list s = a :: rest) (ho : ∀ s', o ≠ .linked s') (s' : S)
    (b : Addr) :
    b ∈ (x.unlink s a rest o).list s' ↔ (x.unlink s a rest o).own b = .linked s' := by
  have hnodup := hgood.nodup s
  rw [hlist, List.nodup_cons] at hnodup
  by_cases hb : b = a
  · subst hb
    simp only [Aux.unlink, Function.update_self, ho, iff_false]
    by_cases hs : s' = s
    · subst hs
      simpa only [Function.update_self] using hnodup.1
    · simp only [ne_eq, hs, not_false_eq_true, Function.update_of_ne, hgood.linked s' b, hgood.own_head hlist,
        Owner.linked.injEq, Ne.symm hs]
  · have hold := hgood.linked s' b
    by_cases hs : s' = s
    · subst hs
      rw [hlist, List.mem_cons] at hold
      simpa only [Aux.unlink, ne_eq, hb, not_false_eq_true, Function.update_of_ne, Function.update_self, false_or] using hold
    · simpa only [Aux.unlink, ne_eq, hb, hs, not_false_eq_true, Function.update_of_ne] using hold

theorem Good.nodup_unlink (hgood : Good m x) (hlist : x.list s = a :: rest) (s' : S) :
    ((x.unlink s a rest o).list s').Nodup := by
  by_cases hs : s' = s
  · subst hs
    have hnodup := hgood.nodup s'
    rw [hlist, List.nodup_cons] at hnodup
    simpa only [Aux.unlink, Function.update_self] using hnodup.2
  · simpa only [Aux.unlink, ne_eq, hs, not_false_eq_true, Function.update_of_ne] using hgood.nodup s'

theorem Good.own_unlink (hgood : Good m x) (hlist : x.list s = a :: rest) (b : Addr) (o o' : Owner Tid S)
    (hold : ∀ s', o' ≠ .linked s') (hnew : o ≠ o') : (x.unlink s a rest o).own b = o' ↔ x.own b = o' :=
  setOwn_iff x a b o o' (by rw [hgood.own_head hlist]; exact (hold s).symm) hnew

/-- The successful compare-exchange of `TryPop`. -/
theorem Good.unlink (hgood : Good m x) (hlist : x.list s = a :: rest) (hchain : Chain m.next (m.next a) rest)
    (history : List (Event S α)) (claimed : Tid → Option α) :
    Good { m with top := Function.update m.top s (m.next a), history := history, claimed := claimed }
      (x.unlink s a rest (.popped t)) :=
  { hgood with
    free := fun b => (hgood.own_unlink hlist b (.popped t) .free nofun nofun).trans (hgood.free b)
    linked := hgood.linked_unlink hlist nofun
    nodup := hgood.nodup_unlink hlist
    chain := by
      intro s' hlive
      by_cases hs : s' = s
      · subst hs
        simpa only [Aux.unlink, Function.update_self] using hchain
      · simpa only [Aux.unlink, ne_eq, hs, not_false_eq_true, Function.update_of_ne] using hgood.chain s' hlive
    retired := fun i b => (hgood.retired i b).trans (hgood.own_unlink hlist b (.popped t) (.retired i) nofun nofun).symm
    guarded := by
      intro u b hguarded
      obtain ⟨s', hs', hheld⟩ := hgood.guarded u b hguarded
      refine ⟨s', hs', ?_⟩
      by_cases hb : b = a
      · subst hb
        exact .inr (.inl ⟨t, Function.update_self ..⟩)
      · simpa only [Held, Aux.unlink, ne_eq, hb, not_false_eq_true, Function.update_of_ne] using hheld }

theorem Good.frame_unlink (hgood : Good m x) (hlist : x.list s = a :: rest) {m' : Mem Tid S α}
    (hdestroyer : m'.destroyer = m.destroyer)
    (hvalue : m'.value = m.value) (htop : ∀ s', s' ≠ s → m'.top s' = m.top s') (hretired : ∀ i, o ≠ .retired i)
    (hmine : ∀ u, u ≠ t → m.destroyer s ≠ some u) (hrest : Frame t m x m' x) : Frame t m x m' (x.unlink s a rest o) :=
  { hrest with
    owned := by
      intro u hu b hb
      have hown := hgood.own_head hlist
      have hne : b ≠ a := ne_of_owned hb (by rw [hown]; nofun) (by rw [hown]; nofun)
      exact ⟨Function.update_of_ne hne .., by rw [hvalue]⟩
    new_retired := fun b i hb => .inl ((hgood.own_unlink hlist b o (.retired i) nofun (hretired i)).1 hb)
    destroying := by
      intro s' u hu hs'
      have hs : s' ≠ s := by
        intro heq
        subst heq
        exact hmine u hu hs'
      refine ⟨by rw [hdestroyer, hs'], ?_, htop s' hs⟩
      simp only [Aux.unlink, ne_eq, hs, not_false_eq_true, Function.update_of_ne] }

/-- The deletion of a node of a stack that is being destroyed. -/
theorem Good.delete (hgood : Good m x) (hlist : x.list s = a :: rest) (hdestroyer : m.destroyer s = some t) :
    Good { m with alive := Function.update m.alive a false } (x.unlink s a rest .free) :=
  { hgood with
    free := by
      intro b
      by_cases hb : b = a
      · subst hb
        simp only [Aux.unlink, Function.update_self]
      · simpa only [Aux.unlink, ne_eq, hb, not_false_eq_true, Function.update_of_ne] using hgood.free b
    linked := hgood.linked_unlink hlist nofun
    nodup := hgood.nodup_unlink hlist
    chain := by
      intro s' hlive
      have hs : s' ≠ s := by
        intro heq
        subst heq
        rw [hdestroyer] at hlive
        cases hlive
      simpa only [Aux.unlink, ne_eq, hs, not_false_eq_true, Function.update_of_ne] using hgood.chain s' hlive
    retired := fun i b => (hgood.retired i b).trans (hgood.own_unlink hlist b .free (.retired i) nofun nofun).symm
    guarded := by
      intro u b hguarded
      obtain ⟨s', hs', hheld⟩ := hgood.guarded u b hguarded
      refine ⟨s', hs', ?_⟩
      by_cases hb : b = a
      · subst hb
        have hown := hgood.own_head hlist
        rcases hheld with heq | ⟨w, heq⟩ | ⟨i, heq⟩ <;> rw [hown] at heq <;> cases heq
        exact absurd hs' (hgood.unused s t hdestroyer u)
      · simpa only [Held, Aux.unlink, ne_eq, hb, not_false_eq_true, Function.update_of_ne] using hheld }

omit [DecidableEq S] in
/-- Nobody holds a node of a stack that is being destroyed. -/
theorem Good.not_guarded_destroyed (hgood : Good m x) (hlist : x.list s = a :: rest) (hdestroyer : m.destroyer s = some t)
    (u : Tid) : m.guarded u ≠ some a := by
  intro hguarded
  obtain ⟨s', hs', hheld⟩ := hgood.guarded u a hguarded
  have hown := hgood.own_head hlist
  rcases hheld with heq | ⟨w, heq⟩ | ⟨i, heq⟩ <;> rw [hown] at heq <;> cases heq
  exact hgood.unused s t hdestroyer u hs'

end Unlink

end Link

/-! ### Retiring and freeing -/

section Retire

variable {a : Addr} {i : Nat}

theorem Good.retire (hgood : Good m x) (hown : x.own a = .popped t) (hidx : m.idx t = some i) :
    Good { m with retired := Function.update m.retired i (m.retired i ++ [a]) } (x.setOwn a (.retired i)) := by
  have hnot : ∀ j, a ∉ m.retired j := by
    intro j hmem
    rw [hgood.retired j a, hown] at hmem
    cases hmem
  exact { hgood with
    free := fun b => (setOwn_iff x a b (.retired i) .free (by rw [hown]; nofun) nofun).trans (hgood.free b)
    linked := fun s b =>
      (hgood.linked s b).trans (setOwn_iff x a b (.retired i) (.linked s) (by rw [hown]; nofun) nofun).symm
    retired := by
      intro j b
      by_cases hb : b = a
      · subst hb
        by_cases hj : j = i
        · subst hj
          simp only [Function.update_self, List.mem_append, List.mem_singleton, or_true, setOwn_self]
        · simp only [ne_eq, hj, not_false_eq_true, Function.update_of_ne, hnot, setOwn_self, Owner.retired.injEq, Ne.symm hj]
      · rw [setOwn_ne x _ hb, ← hgood.retired j b]
        by_cases hj : j = i
        · subst hj
          simp only [Function.update_self, List.mem_append, List.mem_singleton, hb, or_false]
        · simp only [ne_eq, hj, not_false_eq_true, Function.update_of_ne]
    retired_nodup := by
      intro j
      by_cases hj : j = i
      · subst hj
        simp only [Function.update_self]
        exact (hgood.retired_nodup j).append (List.nodup_singleton a) (List.disjoint_singleton.2 (hnot j))
      · simpa only [ne_eq, hj, not_false_eq_true, Function.update_of_ne] using hgood.retired_nodup j
    retired_new := by
      intro j hj
      have hlt := (hgood.idx_lt t i hidx).1
      have hji : j ≠ i := by
        intro heq
        subst heq
        exact absurd hj (Nat.not_le_of_lt hlt)
      simpa only [ne_eq, hji, not_false_eq_true, Function.update_of_ne] using hgood.retired_new j hj
    guarded := by
      intro u b hguarded
      obtain ⟨s, hs, hheld⟩ := hgood.guarded u b hguarded
      refine ⟨s, hs, ?_⟩
      by_cases hb : b = a
      · subst hb
        exact .inr (.inr ⟨i, setOwn_self ..⟩)
      · simpa only [Held, setOwn_ne x _ hb] using hheld }

theorem Good.retired_other (hgood : Good m x) (hidx : m.idx t = some i) (l : List Addr) {u : Tid} (hu : u ≠ t) {k : Nat}
    (hk : m.idx u = some k) : Function.update m.retired i l k = m.retired k :=
  Function.update_of_ne (hgood.idx_ne hu hk hidx) ..

theorem Frame.retire (hgood : Good m x) (hown : x.own a = .popped t) (hidx : m.idx t = some i) :
    Frame t m x { m with retired := Function.update m.retired i (m.retired i ++ [a]) } (x.setOwn a (.retired i)) :=
  { Frame.refl t m x with
    retired := fun _ hu _ hk => hgood.retired_other hidx _ hu hk
    owned := by
      intro u hu b hb
      have hpopped : x.own a ≠ .popped u := fun heq => hu (Owner.popped.inj (heq.symm.trans hown))
      have hne : b ≠ a := ne_of_owned hb (by rw [hown]; nofun) hpopped
      exact ⟨setOwn_ne x _ hne, rfl⟩
    new_retired := by
      intro b j hb
      by_cases hba : b = a
      · subst hba
        rw [setOwn_self] at hb
        cases hb
        exact .inr hidx
      · rw [setOwn_ne x _ hba] at hb
        exact .inl hb }

/-- A retired node that nobody holds is freed. -/
theorem Good.reclaim (hgood : Good m x) (hown : x.own a = .retired i) (hclear : ∀ u, m.guarded u ≠ some a) {l : List Addr}
    (hl : ∀ b, b ∈ l ↔ b ∈ m.retired i ∧ b ≠ a) (hnodup : l.Nodup) :
    Good { m with alive := Function.update m.alive a false, retired := Function.update m.retired i l }
      (x.setOwn a .free) :=
  { hgood with
    free := by
      intro b
      by_cases hb : b = a
      · subst hb
        simp only [setOwn_self, Function.update_self]
      · simpa only [setOwn_ne x _ hb, ne_eq, hb, not_false_eq_true, Function.update_of_ne] using hgood.free b
    linked := fun s b => (hgood.linked s b).trans (setOwn_iff x a b .free (.linked s) (by rw [hown]; nofun) nofun).symm
    retired := by
      intro j b
      by_cases hj : j = i
      · subst hj
        simp only [Function.update_self, hl]
        by_cases hb : b = a
        · subst hb
          simp only [ne_eq, not_true_eq_false, and_false, setOwn_self, reduceCtorEq]
        · simp only [hgood.retired j b, ne_eq, hb, not_false_eq_true, and_true, setOwn_ne x _ hb]
      · rw [setOwn_iff x a b .free (.retired j) (by rw [hown]; exact fun h => hj (Owner.retired.inj h).symm) nofun,
          ← hgood.retired j b]
        simp only [ne_eq, hj, not_false_eq_true, Function.update_of_ne]
    retired_nodup := by
      intro j
      by_cases hj : j = i
      · subst hj
        simpa only [Function.update_self] using hnodup
      · simpa only [ne_eq, hj, not_false_eq_true, Function.update_of_ne] using hgood.retired_nodup j
    retired_new := by
      intro j hj
      have hmem : a ∈ m.retired i := (hgood.retired i a).2 hown
      have hji : j ≠ i := by
        intro heq
        subst heq
        rw [hgood.retired_new j hj] at hmem
        cases hmem
      simpa only [ne_eq, hji, not_false_eq_true, Function.update_of_ne] using hgood.retired_new j hj
    guarded := by
      intro u b hguarded
      obtain ⟨s, hs, hheld⟩ := hgood.guarded u b hguarded
      have hne : b ≠ a := by
        intro heq
        subst heq
        exact hclear u hguarded
      exact ⟨s, hs, by simpa only [Held, setOwn_ne x _ hne] using hheld⟩ }

theorem Frame.reclaim (hgood : Good m x) (hown : x.own a = .retired i) (hidx : m.idx t = some i) (l : List Addr) :
    Frame t m x { m with alive := Function.update m.alive a false, retired := Function.update m.retired i l }
      (x.setOwn a .free) :=
  { Frame.refl t m x with
    retired := fun _ hu _ hk => hgood.retired_other hidx _ hu hk
    owned := by
      intro u _ b hb
      have hne : b ≠ a := ne_of_owned hb (by rw [hown]; nofun) (by rw [hown]; nofun)
      exact ⟨setOwn_ne x _ hne, rfl⟩
    new_retired := by
      intro b j hb
      have hba : b ≠ a := by
        intro heq
        subst heq
        rw [setOwn_self] at hb
        cases hb
      rw [setOwn_ne x _ hba] at hb
      exact .inl hb }

/-- Overwriting an entry by the last one and dropping the last removes exactly the chosen entry. -/
theorem set_dropLast_perm {β : Type*} {l : List β} {k : Nat} {b last : β} (hentry : l[k]? = some b)
    (hlast : l.getLast? = some last) : l.Perm (b :: (l.set k last).dropLast) := by
  obtain ⟨init, rfl⟩ := List.getLast?_eq_some_iff.1 hlast
  have hk : k < (init ++ [last]).length := (List.getElem?_eq_some_iff.1 hentry).1
  rw [List.length_append, List.length_singleton] at hk
  rcases Nat.lt_or_ge k init.length with hinit | hinit
  · rw [List.getElem?_append_left hinit] at hentry
    obtain ⟨_, rfl⟩ := List.getElem?_eq_some_iff.1 hentry
    rw [List.set_append_left _ _ hinit, List.dropLast_concat]
    calc (init ++ [last]).Perm (last :: init) := List.perm_append_singleton last init
      _ |>.Perm (last :: init[k] :: init.eraseIdx k) := .cons last (List.getElem_cons_eraseIdx_perm hinit).symm
      _ |>.Perm (init[k] :: last :: init.eraseIdx k) := .swap ..
      _ |>.Perm (init[k] :: init.set k last) := .cons _ (List.set_perm_cons_eraseIdx hinit last).symm
  · obtain rfl : k = init.length := by omega
    rw [List.getElem?_concat_length] at hentry
    obtain rfl := Option.some.inj hentry
    rw [List.set_append_right _ _ (Nat.le_refl _), Nat.sub_self, List.set_cons_zero, List.dropLast_concat]
    exact List.perm_append_singleton last init

theorem swapPop_perm {l : List Addr} {k : Nat} (hentry : l[k]? = some a) : l.Perm (a :: swapPop l k) := by
  have hne : l ≠ [] := by
    rintro rfl
    cases hentry
  have hlast : l.getLast? = some (l.getLast hne) := List.getLast?_eq_some_getLast hne
  rw [swapPop, hlast]
  exact set_dropLast_perm hentry hlast

theorem mem_swapPop {l : List Addr} {k : Nat} (hentry : l[k]? = some a) (hnodup : l.Nodup) (b : Addr) :
    b ∈ swapPop l k ↔ b ∈ l ∧ b ≠ a := by
  have hperm := swapPop_perm hentry
  have hcons := hperm.nodup_iff.1 hnodup
  rw [List.nodup_cons] at hcons
  rw [hperm.mem_iff, List.mem_cons]
  constructor
  · intro hmem
    refine ⟨.inr hmem, fun heq => ?_⟩
    subst heq
    exact hcons.1 hmem
  · intro ⟨hmem, hne⟩
    exact hmem.resolve_left hne

theorem nodup_swapPop {l : List Addr} {k : Nat} (hentry : l[k]? = some a) (hnodup : l.Nodup) : (swapPop l k).Nodup :=
  (List.nodup_cons.1 ((swapPop_perm hentry).nodup_iff.1 hnodup)).2

end Retire

/-! ### The histories -/

section Histories

variable [DecidableEq S]

/-- An action that does not link a node keeps the history. -/
theorem Recorded.mono {m' : Mem Tid S α} {x' : Aux Tid S} (h : Recorded m x) (hhistory : m'.history = m.history)
    (hident : m'.ident = m.ident) (hvalue : m'.value = m.value) (hallocated : m'.allocated = m.allocated)
    (hlist : ∀ s, m'.destroyer s = none → m.destroyer s = none ∧ x'.list s = x.list s)
    (hfree : ∀ a, x.own a = .free → x'.own a = .free) (hfresh : ∀ a t, x'.own a = .fresh t → x.own a = .fresh t)
    (hlinked : ∀ a s, x'.own a = .linked s → x.own a = .linked s) : Recorded m' x' where
  contents := by
    intro s hlive
    rw [hhistory, hident, hvalue, (hlist s hlive).2]
    exact h.contents s (hlist s hlive).1
  legal := by
    rw [hhistory]
    exact h.legal
  ident_lt := by
    intro a ha
    rw [hident, hallocated]
    exact h.ident_lt a fun hold => ha (hfree a hold)
  ident_inj := by
    intro a b ha hb
    rw [hident]
    exact h.ident_inj a b (fun hold => ha (hfree a hold)) fun hold => hb (hfree b hold)
  pushed_lt := by
    rw [hhistory, hallocated]
    exact h.pushed_lt
  pushed_nodup := by
    rw [hhistory]
    exact h.pushed_nodup
  pushed_fresh := by
    intro a t ha
    rw [hhistory, hident]
    exact h.pushed_fresh a t (hfresh a t ha)
  pushed_linked := by
    intro a s ha
    rw [hhistory, hident]
    exact h.pushed_linked a s (hlinked a s ha)
  popped_pushed := by
    rw [hhistory]
    exact h.popped_pushed
  popped_nodup := by
    rw [hhistory]
    exact h.popped_nodup
  popped_linked := by
    intro a s ha
    rw [hhistory, hident]
    exact h.popped_linked a s (hlinked a s ha)

/-- An action that changes neither the nodes nor the stacks. -/
theorem Recorded.same {m' : Mem Tid S α} (h : Recorded m x) (hhistory : m'.history = m.history) (hident : m'.ident = m.ident)
    (hvalue : m'.value = m.value) (hallocated : m'.allocated = m.allocated) (hdestroyer : m'.destroyer = m.destroyer) :
    Recorded m' x :=
  h.mono hhistory hident hvalue hallocated (fun s hs => ⟨by rwa [hdestroyer] at hs, rfl⟩) (fun _ ha => ha)
    (fun _ _ ha => ha) fun _ _ ha => ha

theorem Recorded.alloc (h : Recorded m x) (hgood : Good m x) {a : Addr} (hfree : m.alive a = false) (v : α) :
    Recorded { m with
      alive := Function.update m.alive a true
      value := Function.update m.value a v
      next := Function.update m.next a none
      ident := Function.update m.ident a m.allocated
      allocated := m.allocated + 1 } (x.setOwn a (.fresh t)) := by
  have hown := hgood.own_free hfree
  have hlinked : ∀ b s, (x.setOwn a (.fresh t)).own b = .linked s → b ≠ a ∧ x.own b = .linked s := by
    intro b s hb
    rw [setOwn_iff x a b (.fresh t) (.linked s) (by rw [hown]; nofun) nofun] at hb
    refine ⟨fun heq => ?_, hb⟩
    rw [heq, hown] at hb
    cases hb
  exact {
    contents := by
      intro s hlive
      rw [h.contents s hlive]
      refine List.map_congr_left fun b hb => ?_
      have hne : b ≠ a := by
        intro heq
        rw [hgood.linked s b, heq, hown] at hb
        cases hb
      simp only [ne_eq, hne, not_false_eq_true, Function.update_of_ne]
    legal := h.legal
    ident_lt := by
      intro b hb
      by_cases hba : b = a
      · subst hba
        simp only [Function.update_self]
        exact Nat.lt_succ_self _
      · rw [setOwn_ne x _ hba] at hb
        simp only [ne_eq, hba, not_false_eq_true, Function.update_of_ne]
        exact Nat.lt_succ_of_lt (h.ident_lt b hb)
    ident_inj := by
      intro b c hb hc heq
      by_cases hba : b = a
      · by_cases hca : c = a
        · rw [hba, hca]
        · subst hba
          rw [setOwn_ne x _ hca] at hc
          simp only [Function.update_self, ne_eq, hca, not_false_eq_true, Function.update_of_ne] at heq
          exact absurd (h.ident_lt c hc) (by rw [← heq]; exact Nat.lt_irrefl _)
      · rw [setOwn_ne x _ hba] at hb
        by_cases hca : c = a
        · subst hca
          simp only [Function.update_self, ne_eq, hba, not_false_eq_true, Function.update_of_ne] at heq
          exact absurd (h.ident_lt b hb) (by rw [heq]; exact Nat.lt_irrefl _)
        · rw [setOwn_ne x _ hca] at hc
          simp only [ne_eq, hba, hca, not_false_eq_true, Function.update_of_ne] at heq
          exact h.ident_inj b c hb hc heq
    pushed_lt := fun node hnode => Nat.lt_succ_of_lt (h.pushed_lt node hnode)
    pushed_nodup := h.pushed_nodup
    pushed_fresh := by
      intro b u hb
      by_cases hba : b = a
      · subst hba
        simp only [Function.update_self]
        exact fun hmem => absurd (h.pushed_lt _ hmem) (Nat.lt_irrefl _)
      · rw [setOwn_ne x _ hba] at hb
        simp only [ne_eq, hba, not_false_eq_true, Function.update_of_ne]
        exact h.pushed_fresh b u hb
    pushed_linked := by
      intro b s hb
      obtain ⟨hba, hold⟩ := hlinked b s hb
      simp only [ne_eq, hba, not_false_eq_true, Function.update_of_ne]
      exact h.pushed_linked b s hold
    popped_pushed := h.popped_pushed
    popped_nodup := h.popped_nodup
    popped_linked := by
      intro b s hb
      obtain ⟨hba, hold⟩ := hlinked b s hb
      simp only [ne_eq, hba, not_false_eq_true, Function.update_of_ne]
      exact h.popped_linked b s hold }

theorem Recorded.link (h : Recorded m x) {s : S} {a : Addr} (hown : x.own a = .fresh t) :
    Recorded { m with
      top := Function.update m.top s (some a)
      history := m.history ++ [.push s (m.ident a) (m.value a)] } (x.link s a) := by
  have hpushed : pushedNodes (m.history ++ [.push s (m.ident a) (m.value a)]) = pushedNodes m.history ++ [m.ident a] :=
    pushedNodes_append _ _
  have hpopped : poppedNodes (m.history ++ [.push s (m.ident a) (m.value a)]) = poppedNodes m.history := by
    rw [poppedNodes_append]
    exact List.append_nil _
  have hfresh := h.pushed_fresh a t hown
  have halive : x.own a ≠ .free := by
    rw [hown]
    nofun
  have hfree : ∀ b, (x.link s a).own b ≠ .free → x.own b ≠ .free := by
    intro b hb heq
    exact hb ((setOwn_iff x a b (.linked s) .free (by rw [hown]; nofun) nofun).2 heq)
  have hlinked : ∀ b s', (x.link s a).own b = .linked s' → b = a ∨ x.own b = .linked s' := by
    intro b s' hb
    by_cases hba : b = a
    · exact .inl hba
    · right
      simpa only [Aux.link, ne_eq, hba, not_false_eq_true, Function.update_of_ne] using hb
  exact {
    contents := by
      intro s' hlive
      simp only [contents_append_push, Aux.link]
      by_cases hs : s = s'
      · subst hs
        simp only [if_true, Function.update_self, List.map_cons, h.contents s hlive]
      · simp only [hs, if_false, ne_eq, Ne.symm hs, not_false_eq_true, Function.update_of_ne, h.contents s' hlive]
    legal := h.legal.push s _ _
    ident_lt := fun b hb => h.ident_lt b (hfree b hb)
    ident_inj := fun b c hb hc => h.ident_inj b c (hfree b hb) (hfree c hc)
    pushed_lt := by
      intro node hnode
      rw [hpushed, List.mem_append, List.mem_singleton] at hnode
      rcases hnode with hold | rfl
      · exact h.pushed_lt node hold
      · exact h.ident_lt a halive
    pushed_nodup := by
      rw [hpushed]
      exact h.pushed_nodup.append (List.nodup_singleton _) (List.disjoint_singleton.2 hfresh)
    pushed_fresh := by
      intro b u hb
      have hba : b ≠ a := by
        intro heq
        subst heq
        simp only [Aux.link, Function.update_self, reduceCtorEq] at hb
      have hold : x.own b = .fresh u := by
        simpa only [Aux.link, ne_eq, hba, not_false_eq_true, Function.update_of_ne] using hb
      rw [hpushed, List.mem_append, List.mem_singleton]
      rintro (hmem | heq)
      · exact h.pushed_fresh b u hold hmem
      · exact hba (h.ident_inj b a (by rw [hold]; nofun) halive heq)
    pushed_linked := by
      intro b s' hb
      rw [hpushed, List.mem_append, List.mem_singleton]
      rcases hlinked b s' hb with rfl | hold
      · exact .inr rfl
      · exact .inl (h.pushed_linked b s' hold)
    popped_pushed := by
      intro node hnode
      rw [hpopped] at hnode
      rw [hpushed]
      exact List.mem_append_left _ (h.popped_pushed node hnode)
    popped_nodup := by
      rw [hpopped]
      exact h.popped_nodup
    popped_linked := by
      intro b s' hb
      rw [hpopped]
      rcases hlinked b s' hb with rfl | hold
      · exact fun hmem => hfresh (h.popped_pushed _ hmem)
      · exact h.popped_linked b s' hold }

theorem Recorded.unlink (h : Recorded m x) (hgood : Good m x) {s : S} {a : Addr} {rest : List Addr}
    (hlist : x.list s = a :: rest) (hlive : m.destroyer s = none) (next : Option Addr) (claimed : Tid → Option α) :
    Recorded { m with
      top := Function.update m.top s next
      history := m.history ++ [.pop s (m.ident a) (m.value a)]
      claimed := claimed } (x.unlink s a rest (.popped t)) := by
  have hpushed : pushedNodes (m.history ++ [.pop s (m.ident a) (m.value a)]) = pushedNodes m.history := by
    rw [pushedNodes_append]
    exact List.append_nil _
  have hpopped : poppedNodes (m.history ++ [.pop s (m.ident a) (m.value a)]) = poppedNodes m.history ++ [m.ident a] :=
    poppedNodes_append _ _
  have hown := hgood.own_head hlist
  have hcontents := h.contents s hlive
  rw [hlist, List.map_cons] at hcontents
  have hfree : ∀ b, (x.unlink s a rest (.popped t)).own b ≠ .free → x.own b ≠ .free := by
    intro b hb heq
    exact hb ((hgood.own_unlink hlist b (.popped t) .free nofun nofun).2 heq)
  have hlinked : ∀ b s', (x.unlink s a rest (.popped t)).own b = .linked s' → b ≠ a ∧ x.own b = .linked s' := by
    intro b s' hb
    have hba : b ≠ a := by
      intro heq
      subst heq
      simp only [Aux.unlink, Function.update_self, reduceCtorEq] at hb
    exact ⟨hba, by simpa only [Aux.unlink, ne_eq, hba, not_false_eq_true, Function.update_of_ne] using hb⟩
  exact {
    contents := by
      intro s' hlive'
      simp only [contents_append_pop, Aux.unlink]
      by_cases hs : s = s'
      · subst hs
        simp only [if_true, Function.update_self, hcontents, List.tail_cons]
      · simp only [hs, if_false, ne_eq, Ne.symm hs, not_false_eq_true, Function.update_of_ne, h.contents s' hlive']
    legal := by
      refine h.legal.pop ?_
      rw [hcontents, List.head?_cons]
    ident_lt := fun b hb => h.ident_lt b (hfree b hb)
    ident_inj := fun b c hb hc => h.ident_inj b c (hfree b hb) (hfree c hc)
    pushed_lt := by
      rw [hpushed]
      exact h.pushed_lt
    pushed_nodup := by
      rw [hpushed]
      exact h.pushed_nodup
    pushed_fresh := by
      intro b u hb
      rw [hpushed]
      exact h.pushed_fresh b u ((hgood.own_unlink hlist b (.popped t) (.fresh u) nofun nofun).1 hb)
    pushed_linked := by
      intro b s' hb
      rw [hpushed]
      exact h.pushed_linked b s' (hlinked b s' hb).2
    popped_pushed := by
      intro node hnode
      rw [hpopped, List.mem_append, List.mem_singleton] at hnode
      rw [hpushed]
      rcases hnode with hold | rfl
      · exact h.popped_pushed node hold
      · exact h.pushed_linked a s hown
    popped_nodup := by
      rw [hpopped]
      exact h.popped_nodup.append (List.nodup_singleton _) (List.disjoint_singleton.2 (h.popped_linked a s hown))
    popped_linked := by
      intro b s' hb
      obtain ⟨hba, hold⟩ := hlinked b s' hb
      rw [hpopped, List.mem_append, List.mem_singleton]
      rintro (hmem | heq)
      · exact h.popped_linked b s' hold hmem
      · exact hba (h.ident_inj b a (by rw [hold]; nofun) (by rw [hown]; nofun) heq) }

end Histories

end CppConcur.LockFree.Hazard
