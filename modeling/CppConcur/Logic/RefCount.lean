import Mathlib.Data.Finset.Card
import Mathlib.Data.Finset.SDiff

/-!
# Reference counting

Handles refer to blocks, and a block may itself hold handles. When a handle gives up its block and no
handle refers to the block any more, the block is freed and the handles in it give up theirs. A ledger
says which handles have given up their blocks and which blocks are freed, and what the counts of the
other blocks have to be. The blocks freed are the smallest collection that the release of one handle
brings down, whatever the order in which the handles are visited.
-/

namespace CppConcur.Logic.RefCount

/-- Handles and the blocks they refer to. A pinned block is not freed. -/
structure Graph (α β : Type*) where
  handles : Finset α
  target : α → Option β
  blocks : Finset β
  members : β → List α
  pinned : β → Prop

variable {α β : Type*} [DecidableEq α] [DecidableEq β]

namespace Graph

variable (G : Graph α β)

/-- The handles that refer to a block. -/
def refs (b : β) : Finset α := G.handles.filter fun x => G.target x = some b

omit [DecidableEq α] in
@[simp] theorem mem_refs {b : β} {x : α} : x ∈ G.refs b ↔ x ∈ G.handles ∧ G.target x = some b :=
  Finset.mem_filter

/-- The blocks that only the handle `p` keeps from being freed: each handle that refers to such a block
is `p`, or a handle in such a block. -/
inductive Doomed (p : α) : β → Prop where
  | intro {b : β} (owner : α → β) (hpinned : ¬ G.pinned b) (hrefs : (G.refs b).Nonempty)
      (hmember : ∀ x ∈ G.refs b, x ≠ p → x ∈ G.members (owner x))
      (howner : ∀ x ∈ G.refs b, x ≠ p → Doomed p (owner x)) : Doomed p b

omit [DecidableEq α] in
/-- A handle that refers to nothing keeps nothing alive. -/
theorem Doomed.exists_target {G : Graph α β} {p : α} {b : β} (h : G.Doomed p b) : ∃ c, G.target p = some c := by
  induction h with
  | @intro b owner _ hrefs _ _ ih =>
    obtain ⟨x, hx⟩ := hrefs
    by_cases hxp : x = p
    · exact ⟨b, hxp ▸ (G.mem_refs.mp hx).2⟩
    · exact ih x hx hxp

/-- A handle that goes with `p`. -/
def Falls (p x : α) : Prop := ∃ b, G.Doomed p b ∧ x ∈ G.members b

variable {G}

omit [DecidableEq α] in
theorem not_falls_of_target_eq_none {p : α} (hp : G.target p = none) (x : α) : ¬ G.Falls p x := by
  rintro ⟨b, hb, -⟩
  obtain ⟨c, hc⟩ := hb.exists_target
  cases hp.symm.trans hc

omit [DecidableEq α] in
theorem Doomed.falls {p x : α} {b : β} (h : G.Doomed p b) (hx : x ∈ G.refs b) (hne : x ≠ p) : G.Falls p x := by
  cases h with
  | intro owner _ _ hmember howner => exact ⟨owner x, howner x hx hne, hmember x hx hne⟩

omit [DecidableEq α] in
/-- A handle keeps nothing alive if another one refers to the same block. -/
theorem not_doomed_of_shared {p x : α} {b : β} (hp : G.target p = some b) (hx : x ∈ G.refs b) (hne : x ≠ p) (c : β) :
    ¬ G.Doomed p c := by
  intro hc
  induction hc with
  | @intro c owner _ hrefs _ _ ih =>
    obtain ⟨y, hy⟩ := hrefs
    by_cases hyp : y = p
    · subst hyp
      have hcb : b = c := Option.some.inj (hp.symm.trans (G.mem_refs.mp hy).2)
      exact ih x (hcb ▸ hx) hne
    · exact ih y hy hyp

omit [DecidableEq α] in
/-- The block of a handle is doomed if nothing else refers to it. -/
theorem doomed_of_sole {p : α} {b : β} (hp : p ∈ G.refs b) (hsole : ∀ x ∈ G.refs b, x = p) (hpinned : ¬ G.pinned b) :
    G.Doomed p b :=
  .intro (fun _ => b) hpinned ⟨p, hp⟩ (fun x hx hne => (hne (hsole x hx)).elim) fun x hx hne => (hne (hsole x hx)).elim

end Graph

/-- The release of `p`, at some point: the blocks `freed` and the handles `released` so far, and the
counts of the blocks. -/
structure Ledger (G : Graph α β) (p : α) (count : β → Int) (freed : Finset β) (released : Finset α) :
    Prop where
  doomed : ∀ b ∈ freed, G.Doomed p b
  origin : ∀ x ∈ released, x = p ∨ ∃ b ∈ freed, x ∈ G.members b
  used : ∀ b ∈ freed, G.refs b ⊆ released
  spent : ∀ b ∈ freed, count b ≤ 0
  count_eq : ∀ b ∈ G.blocks, b ∉ freed → count b = (G.refs b \ released).card
  kept : ∀ b ∉ freed, ¬ G.pinned b → (G.refs b).Nonempty → ¬ G.refs b ⊆ released

namespace Ledger

variable {G : Graph α β} {p x : α} {b : β} {count count' : β → Int} {freed : Finset β}
  {released : Finset α}

/-- Before anything is released. -/
theorem start (hcount : ∀ b ∈ G.blocks, count b = (G.refs b).card) :
    Ledger G p count ∅ ∅ where
  doomed := by simp
  origin := by simp
  used := by simp
  spent := by simp
  count_eq b hb _ := by simpa using hcount b hb
  kept b _ _ hrefs hsub := hrefs.ne_empty (Finset.subset_empty.mp hsub)

/-- Only the handles already released refer to a block that is freed. -/
theorem not_mem_freed (h : Ledger G p count freed released) (hx : x ∈ G.refs b) (hnew : x ∉ released) :
    b ∉ freed :=
  fun hb => hnew (h.used b hb hx)

/-- The count that is left when a further handle is released. -/
theorem count_release (h : Ledger G p count freed released) (hb : b ∈ G.blocks) (hx : x ∈ G.refs b)
    (hnew : x ∉ released) : count b - 1 = (G.refs b \ insert x released).card := by
  have hmem : x ∈ G.refs b \ released := Finset.mem_sdiff.mpr ⟨hx, hnew⟩
  have hpos : 0 < (G.refs b \ released).card := Finset.card_pos.mpr ⟨x, hmem⟩
  rw [h.count_eq b hb (h.not_mem_freed hx hnew), Finset.sdiff_insert, Finset.card_erase_of_mem hmem]
  omega

/-- A released handle matters to its own block only. -/
theorem sdiff_insert_of_ne (hx : x ∈ G.refs b) {c : β} (hne : c ≠ b) :
    G.refs c \ insert x released = G.refs c \ released := by
  rw [Finset.sdiff_insert, Finset.erase_eq_of_notMem]
  intro hmem
  have hc := (G.mem_refs.mp (Finset.mem_sdiff.mp hmem).1).2
  rw [(G.mem_refs.mp hx).2, Option.some.injEq] at hc
  exact hne hc.symm

theorem subset_insert_of_ne (hx : x ∈ G.refs b) {c : β} (hne : c ≠ b) :
    G.refs c ⊆ insert x released ↔ G.refs c ⊆ released := by
  rw [← Finset.sdiff_eq_empty_iff_subset, sdiff_insert_of_ne hx hne, Finset.sdiff_eq_empty_iff_subset]

/-- A handle is released and its block is kept. -/
theorem keep (h : Ledger G p count freed released) (hb : b ∈ G.blocks) (hx : x ∈ G.refs b)
    (hnew : x ∉ released) (horigin : x = p ∨ ∃ b ∈ freed, x ∈ G.members b) (hcount : count' b = count b - 1)
    (hframe : ∀ c ≠ b, count' c = count c) (hkept : ¬ (count' b = 0 ∧ ¬ G.pinned b)) :
    Ledger G p count' freed (insert x released) where
  doomed := h.doomed
  origin y hy := by
    rcases Finset.mem_insert.mp hy with rfl | hy
    · exact horigin
    · exact h.origin y hy
  used c hc := (h.used c hc).trans (Finset.subset_insert x released)
  spent c hc := by
    rw [hframe c (ne_of_mem_of_not_mem hc (h.not_mem_freed hx hnew))]
    exact h.spent c hc
  count_eq c hblock hc := by
    by_cases hcb : c = b
    · rw [hcb, hcount, h.count_release hb hx hnew]
    · rw [hframe c hcb, sdiff_insert_of_ne hx hcb, h.count_eq c hblock hc]
  kept c hc hpinned hrefs hsub := by
    by_cases hcb : c = b
    · subst hcb
      refine hkept ⟨?_, hpinned⟩
      rw [hcount, h.count_release hb hx hnew, Finset.sdiff_eq_empty_iff_subset.mpr hsub, Finset.card_empty]
      rfl
    · exact h.kept c hc hpinned hrefs ((subset_insert_of_ne hx hcb).mp hsub)

/-- The last handle of a block is released and the block is freed. -/
theorem free (h : Ledger G p count freed released) (hb : b ∈ G.blocks) (hx : x ∈ G.refs b)
    (hnew : x ∉ released) (horigin : x = p ∨ ∃ b ∈ freed, x ∈ G.members b) (hcount : count' b = count b - 1)
    (hframe : ∀ c ≠ b, count' c = count c) (hzero : count' b = 0) (hpinned : ¬ G.pinned b) :
    Ledger G p count' (insert b freed) (insert x released) := by
  have hsub : G.refs b ⊆ insert x released := by
    rw [← Finset.sdiff_eq_empty_iff_subset, ← Finset.card_eq_zero]
    have hleft := h.count_release hb hx hnew
    omega
  have horigin' : ∀ y ∈ insert x released, y = p ∨ ∃ c ∈ freed, y ∈ G.members c := by
    intro y hy
    rcases Finset.mem_insert.mp hy with rfl | hy
    · exact horigin
    · exact h.origin y hy
  -- Each other reference was released from a block freed before this one.
  have hdoomed : G.Doomed p b := by
    have howner : ∀ y, ∃ c, y ∈ G.refs b → y ≠ p → c ∈ freed ∧ y ∈ G.members c := by
      intro y
      by_cases hy : y ∈ G.refs b ∧ y ≠ p
      · obtain ⟨c, hc⟩ := (horigin' y (hsub hy.1)).resolve_left hy.2
        exact ⟨c, fun _ _ => hc⟩
      · exact ⟨b, fun hmem hne => (hy ⟨hmem, hne⟩).elim⟩
    choose owner howner using howner
    exact .intro owner hpinned ⟨x, hx⟩ (fun y hy hne => (howner y hy hne).2)
      fun y hy hne => h.doomed _ (howner y hy hne).1
  exact {
    doomed := by
      intro c hc
      rcases Finset.mem_insert.mp hc with rfl | hc
      · exact hdoomed
      · exact h.doomed c hc
    origin := fun y hy => (horigin' y hy).imp_right fun ⟨c, hc, hy⟩ => ⟨c, Finset.mem_insert_of_mem hc, hy⟩
    used := by
      intro c hc
      rcases Finset.mem_insert.mp hc with rfl | hc
      · exact hsub
      · exact (h.used c hc).trans (Finset.subset_insert x released)
    spent := by
      intro c hc
      by_cases hcb : c = b
      · rw [hcb, hzero]
      · rw [hframe c hcb]
        exact h.spent c (Finset.mem_of_mem_insert_of_ne hc hcb)
    count_eq := by
      intro c hblock hc
      have hcb : c ≠ b := fun heq => hc (heq ▸ Finset.mem_insert_self b freed)
      rw [hframe c hcb, sdiff_insert_of_ne hx hcb]
      exact h.count_eq c hblock fun hmem => hc (Finset.mem_insert_of_mem hmem)
    kept := by
      intro c hc hnot hrefs hsub'
      have hcb : c ≠ b := fun heq => hc (heq ▸ Finset.mem_insert_self b freed)
      exact h.kept c (fun hmem => hc (Finset.mem_insert_of_mem hmem)) hnot hrefs
        ((subset_insert_of_ne hx hcb).mp hsub') }

/-- The count of a block that is freed may fall further. -/
theorem spend (h : Ledger G p count freed released) (hb : b ∈ freed) (hcount : count' b = count b - 1)
    (hframe : ∀ c ≠ b, count' c = count c) : Ledger G p count' freed released where
  doomed := h.doomed
  origin := h.origin
  used := h.used
  spent c hc := by
    have hspent := h.spent c hc
    by_cases hcb : c = b
    · subst hcb
      omega
    · rwa [hframe c hcb]
  count_eq c hblock hc := by
    rw [hframe c fun heq => hc (heq ▸ hb)]
    exact h.count_eq c hblock hc
  kept := h.kept

/-- When the handles of all freed blocks are released, the freed blocks are those that were doomed. -/
theorem mem_freed_iff (h : Ledger G p count freed released) (hp : p ∈ released)
    (hclosed : ∀ c ∈ freed, ∀ x ∈ G.members c, x ∈ released ∨ G.target x = none) :
    b ∈ freed ↔ G.Doomed p b := by
  refine ⟨h.doomed b, fun hdoomed => ?_⟩
  induction hdoomed with
  | @intro b owner hpinned hrefs hmember _ ih =>
    by_contra hb
    refine h.kept b hb hpinned hrefs fun x hx => ?_
    by_cases hxp : x = p
    · exact hxp ▸ hp
    · refine (hclosed _ (ih x hx hxp) x (hmember x hx hxp)).resolve_right fun hnone => ?_
      rw [(G.mem_refs.mp hx).2] at hnone
      cases hnone

end Ledger

end CppConcur.Logic.RefCount
