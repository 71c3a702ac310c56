import CppConcur.LockFree.SharedPtrHeap

/-!
# The calls of a `Reset` that have not returned

When a `Reset` deletes a block, the members of its object are to be reset and destroyed, and the memory of
the block is to be given back. What is still to be done says which handles are constructed and which blocks
are allocated: a member is destroyed once, and not used after that.
-/

namespace CppConcur.LockFree.SharedPtr.Heap

variable {Handle : Type*} [DecidableEq Handle] {h₀ h h' : Heap Handle} {p x : Handle} {b : Addr}
  {freed : Finset Addr} {released : Finset Handle} {tasks : List (Task Handle)}

/-- A handle is not used after it is destroyed. -/
def InOrder (t t' : Task Handle) : Prop := ∀ x, t = .destroy x → t' ≠ .reset x ∧ t' ≠ .clear x

/-- How the heap and the calls that have not returned hang together, after the blocks `freed` have been
given up by their last handle and the handles `released` have given up their blocks. The last statement of
the outermost call is not among the tasks. -/
structure Agenda (h₀ : Heap Handle) (p : Handle) (freed : Finset Addr) (released : Finset Handle)
    (h : Heap Handle) (tasks : List (Task Handle)) : Prop where
  block_of_not_mem : ∀ x ∉ released, h.block x = h₀.block x
  block_some : ∀ x b, h.block x = some b → h₀.block x = some b
  cleared : ∀ x ∈ released, x ≠ p → h.block x = none ∨ .clear x ∈ tasks
  pending : ∀ b ∈ freed, ∀ x ∈ h₀.members b, x ∈ released ∨ h₀.block x = none ∨ .reset x ∈ tasks
  mem_handles : ∀ x, x ∈ h.handles ↔ x ∈ h₀.handles ∧ ∀ b ∈ freed, x ∈ h₀.members b → .destroy x ∈ tasks
  mem_blocks : ∀ b, b ∈ h.blocks ↔ b ∈ h₀.blocks ∧ (b ∈ freed → .free b ∈ tasks)
  nodup : tasks.Nodup
  order : tasks.Pairwise InOrder
  reset_task : ∀ x, .reset x ∈ tasks →
    .destroy x ∈ tasks ∧ .clear x ∉ tasks ∧ (x ∈ released → x = p)
  clear_task : ∀ x, .clear x ∈ tasks → x ∈ released ∧ .destroy x ∈ tasks
  destroy_task : ∀ x, .destroy x ∈ tasks → ∃ b ∈ freed, x ∈ h₀.members b
  free_task : ∀ b, .free b ∈ tasks → b ∈ freed

omit [DecidableEq Handle] in
theorem pairwise_destructors {xs : List Handle} (h : xs.Nodup) : (destructors xs).Pairwise InOrder := by
  induction xs with
  | nil => exact .nil
  | cons x xs ih =>
    obtain ⟨hx, hxs⟩ := List.nodup_cons.mp h
    refine List.pairwise_cons.mpr ⟨fun _ _ _ => nofun, List.pairwise_cons.mpr ⟨?_, ih hxs⟩⟩
    rintro t ht _ ⟨⟩
    obtain ⟨y, hy, rfl | rfl⟩ := mem_destructors.mp ht <;> simp [ne_of_mem_of_not_mem hy hx]

namespace Agenda

omit [DecidableEq Handle] in
/-- The agenda is about handles and blocks, not about the counts. -/
theorem congr (ha : Agenda h₀ p freed released h tasks) (hblock : h'.block = h.block)
    (hhandles : h'.handles = h.handles) (hblocks : h'.blocks = h.blocks) :
    Agenda h₀ p freed released h' tasks where
  block_of_not_mem := hblock ▸ ha.block_of_not_mem
  block_some := hblock ▸ ha.block_some
  cleared := hblock ▸ ha.cleared
  pending := ha.pending
  mem_handles := hhandles ▸ ha.mem_handles
  mem_blocks := hblocks ▸ ha.mem_blocks
  nodup := ha.nodup
  order := ha.order
  reset_task := ha.reset_task
  clear_task := ha.clear_task
  destroy_task := ha.destroy_task
  free_task := ha.free_task

omit [DecidableEq Handle] in
/-- `p` has given up its block, and nothing has been deleted. -/
theorem start : Agenda h p ∅ {p} h [] where
  block_of_not_mem _ _ := rfl
  block_some _ _ hx := hx
  cleared x hx hne := (hne (Finset.mem_singleton.mp hx)).elim
  pending := by simp
  mem_handles := by simp
  mem_blocks := by simp
  nodup := List.nodup_nil
  order := .nil
  reset_task := by simp
  clear_task := by simp
  destroy_task := by simp
  free_task := by simp

/-- `Reset` of a handle that refers to nothing. -/
theorem reset_none (ha : Agenda h₀ p freed released h (.reset x :: tasks))
    (hx : h.block x = none) : Agenda h₀ p freed released h tasks where
  block_of_not_mem := ha.block_of_not_mem
  block_some := ha.block_some
  cleared := by simpa using ha.cleared
  pending := by
    intro b hb y hy
    rcases ha.pending b hb y hy with hy | hy | hy
    · exact .inl hy
    · exact .inr (.inl hy)
    · rcases List.mem_cons.mp hy with heq | hy
      · cases heq
        by_cases hmem : x ∈ released
        · exact .inl hmem
        · exact .inr (.inl (ha.block_of_not_mem x hmem ▸ hx))
      · exact .inr (.inr hy)
  mem_handles := by simpa using ha.mem_handles
  mem_blocks := by simpa using ha.mem_blocks
  nodup := ha.nodup.of_cons
  order := ha.order.of_cons
  reset_task := by
    intro y hy
    simpa using ha.reset_task y (List.mem_cons_of_mem _ hy)
  clear_task := by simpa using ha.clear_task
  destroy_task := by simpa using ha.destroy_task
  free_task := by simpa using ha.free_task

/-- `Reset` of a handle up to the change of the counts. -/
theorem reset_some (ha : Agenda h₀ p freed released h (.reset x :: tasks)) :
    Agenda h₀ p freed (insert x released) h (.clear x :: tasks) where
  block_of_not_mem y hy := ha.block_of_not_mem y fun hmem => hy (Finset.mem_insert_of_mem hmem)
  block_some := ha.block_some
  cleared := by
    intro y hy hne
    rcases Finset.mem_insert.mp hy with rfl | hy
    · exact .inr List.mem_cons_self
    · have hcleared := ha.cleared y hy hne
      simp only [List.mem_cons, reduceCtorEq, false_or] at hcleared
      exact hcleared.imp_right (List.mem_cons_of_mem _)
  pending := by
    intro b hb y hy
    have hpending := ha.pending b hb y hy
    simp only [List.mem_cons, Task.reset.injEq, reduceCtorEq, false_or, Finset.mem_insert] at hpending ⊢
    tauto
  mem_handles := by simpa using ha.mem_handles
  mem_blocks := by simpa using ha.mem_blocks
  nodup := by
    refine List.nodup_cons.mpr ⟨?_, ha.nodup.of_cons⟩
    have hclear := (ha.reset_task x List.mem_cons_self).2.1
    exact fun hmem => hclear (List.mem_cons_of_mem _ hmem)
  order := List.pairwise_cons.mpr ⟨fun _ _ _ => nofun, ha.order.of_cons⟩
  reset_task := by
    intro y hy
    have hy' : .reset y ∈ tasks := by simpa using hy
    -- A second `Reset` of the same handle would be a second task.
    have hne : y ≠ x := fun heq => (List.nodup_cons.mp ha.nodup).1 (heq ▸ hy')
    have htask := ha.reset_task y (List.mem_cons_of_mem _ hy')
    simp only [List.mem_cons, reduceCtorEq, false_or, Task.clear.injEq, Finset.mem_insert, hne] at htask ⊢
    exact htask
  clear_task := by
    intro y hy
    rcases List.mem_cons.mp hy with heq | hy
    · cases heq
      have hdestroy := (ha.reset_task x List.mem_cons_self).1
      simp only [List.mem_cons, reduceCtorEq, false_or] at hdestroy
      exact ⟨Finset.mem_insert_self x released, List.mem_cons_of_mem _ hdestroy⟩
    · have htask := ha.clear_task y (List.mem_cons_of_mem _ hy)
      simp only [List.mem_cons, reduceCtorEq, false_or] at htask
      exact ⟨Finset.mem_insert_of_mem htask.1, List.mem_cons_of_mem _ htask.2⟩
  destroy_task := by simpa using ha.destroy_task
  free_task := by simpa using ha.free_task

omit [DecidableEq Handle] in
/-- A block is deleted: its members are to be destroyed and its memory is to be given back. -/
theorem delete (ha : Agenda h₀ p freed released h tasks) (hh : h₀.Intact)
    (hfreed : ∀ c ∈ freed, c ∈ h₀.blocks) (hb : b ∈ h₀.blocks) (hnew : b ∉ freed)
    (horigin : ∀ x ∈ released, x = p ∨ ∃ c ∈ freed, x ∈ h₀.members c) :
    Agenda h₀ p (insert b freed) released h (destructors (h₀.members b) ++ .free b :: tasks) := by
  -- The members of the block are not members of the blocks deleted before, so no task is about them.
  have hfresh : ∀ x ∈ h₀.members b, ∀ c ∈ freed, x ∉ h₀.members c := by
    intro x hx c hc hxc
    exact hnew (hh.disjoint b hb c (hfreed c hc) x hx hxc ▸ hc)
  have hdestroy : ∀ x ∈ h₀.members b, .destroy x ∉ tasks := by
    intro x hx hmem
    obtain ⟨c, hc, hxc⟩ := ha.destroy_task x hmem
    exact hfresh x hx c hc hxc
  have hreset : ∀ x ∈ h₀.members b, .reset x ∉ tasks := fun x hx hmem => hdestroy x hx (ha.reset_task x hmem).1
  have hclear : ∀ x ∈ h₀.members b, .clear x ∉ tasks := fun x hx hmem => hdestroy x hx (ha.clear_task x hmem).2
  have hfree : .free b ∉ tasks := fun hmem => hnew (ha.free_task b hmem)
  exact {
    block_of_not_mem := ha.block_of_not_mem
    block_some := ha.block_some
    cleared := by
      intro x hx hne
      exact (ha.cleared x hx hne).imp_right fun hmem => by simp [hmem]
    pending := by
      intro c hc x hx
      rcases Finset.mem_insert.mp hc with rfl | hc
      · exact .inr (.inr (by simp [hx]))
      · exact (ha.pending c hc x hx).imp_right fun hx => hx.imp_right fun hmem => by simp [hmem]
    mem_handles := by
      intro x
      rw [ha.mem_handles]
      simp only [List.mem_append, mem_destructors, List.mem_cons, reduceCtorEq, false_or, Task.destroy.injEq,
        exists_eq_right', Finset.forall_mem_insert]
      refine and_congr_right fun _ => ⟨fun hx => ⟨fun hxb => .inl hxb, fun c hc hxc => .inr (hx c hc hxc)⟩, ?_⟩
      rintro ⟨-, hx⟩ c hc hxc
      refine (hx c hc hxc).resolve_left fun hxb => hfresh x hxb c hc hxc
    mem_blocks := by
      intro c
      rw [ha.mem_blocks]
      by_cases hcb : c = b
      · subst hcb
        simp [hnew]
      · simp [hcb]
    nodup := by
      refine List.nodup_append.mpr ⟨nodup_destructors (hh.nodup b hb),
        List.nodup_cons.mpr ⟨hfree, ha.nodup⟩, ?_⟩
      intro t ht t' ht' heq
      subst heq
      obtain ⟨x, hx, rfl | rfl⟩ := mem_destructors.mp ht
      · exact hreset x hx (by simpa using ht')
      · exact hdestroy x hx (by simpa using ht')
    order := by
      refine List.pairwise_append.mpr ⟨pairwise_destructors (hh.nodup b hb),
        List.pairwise_cons.mpr ⟨fun _ _ _ => (by rintro ⟨⟩), ha.order⟩, ?_⟩
      rintro t ht t' ht' x rfl
      have hx : x ∈ h₀.members b := by simpa using ht
      exact ⟨fun heq => hreset x hx (by simpa [heq] using ht'), fun heq => hclear x hx (by simpa [heq] using ht')⟩
    reset_task := by
      intro x hx
      simp only [List.mem_append, mem_destructors, List.mem_cons, reduceCtorEq, false_or, or_false,
        Task.destroy.injEq, Task.reset.injEq, exists_eq_right'] at hx ⊢
      rcases hx with hx | hx
      · refine ⟨.inl hx, ?_, fun hmem => (horigin x hmem).resolve_right ?_⟩
        · rintro (⟨y, -, hy⟩ | hmem)
          · exact hy
          · exact hclear x hx hmem
        · rintro ⟨c, hc, hxc⟩
          exact hfresh x hx c hc hxc
      · obtain ⟨hd, hc, hp⟩ := ha.reset_task x hx
        exact ⟨.inr hd, by simpa using hc, hp⟩
    clear_task := by
      intro x hx
      have hx' : .clear x ∈ tasks := by simpa using hx
      exact ⟨(ha.clear_task x hx').1, by simp [(ha.clear_task x hx').2]⟩
    destroy_task := by
      intro x hx
      simp only [List.mem_append, mem_destructors, List.mem_cons, reduceCtorEq, false_or, Task.destroy.injEq,
        exists_eq_right'] at hx
      rcases hx with hx | hx
      · exact ⟨b, Finset.mem_insert_self b freed, hx⟩
      · obtain ⟨c, hc, hxc⟩ := ha.destroy_task x hx
        exact ⟨c, Finset.mem_insert_of_mem hc, hxc⟩
    free_task := by
      intro c hc
      simp only [List.mem_append, mem_destructors, List.mem_cons, reduceCtorEq, or_false, and_false,
        exists_false, false_or, Task.free.injEq] at hc
      rcases hc with rfl | hc
      · exact Finset.mem_insert_self c freed
      · exact Finset.mem_insert_of_mem (ha.free_task c hc) }

/-- `block_ = nullptr`. -/
theorem clear (ha : Agenda h₀ p freed released h (.clear x :: tasks)) :
    Agenda h₀ p freed released (h.setBlock x none) tasks where
  block_of_not_mem := by
    intro y hy
    have hne : y ≠ x := fun heq => hy (heq ▸ (ha.clear_task x List.mem_cons_self).1)
    simpa [setBlock, hne] using ha.block_of_not_mem y hy
  block_some := by
    intro y b hy
    by_cases hyx : y = x
    · simp [setBlock, hyx] at hy
    · exact ha.block_some y b (by simpa [setBlock, hyx] using hy)
  cleared := by
    intro y hy hne
    by_cases hyx : y = x
    · simp [setBlock, hyx]
    · simpa [setBlock, hyx] using ha.cleared y hy hne
  pending := by simpa using ha.pending
  mem_handles := by simpa [setBlock, use] using ha.mem_handles
  mem_blocks := by simpa [setBlock, use] using ha.mem_blocks
  nodup := ha.nodup.of_cons
  order := ha.order.of_cons
  reset_task := by
    intro y hy
    have htask := ha.reset_task y (List.mem_cons_of_mem _ hy)
    simp only [List.mem_cons, reduceCtorEq, false_or, not_or] at htask
    exact ⟨htask.1, htask.2.1.2, htask.2.2⟩
  clear_task := by
    intro y hy
    simpa using ha.clear_task y (List.mem_cons_of_mem _ hy)
  destroy_task := by simpa using ha.destroy_task
  free_task := by simpa using ha.free_task

/-- The lifetime of a member ends. -/
theorem destroy (ha : Agenda h₀ p freed released h (.destroy x :: tasks)) :
    Agenda h₀ p freed released { h with handles := h.handles.erase x } tasks := by
  have hlater : ∀ t ∈ tasks, t ≠ .reset x ∧ t ≠ .clear x := fun t ht => (List.pairwise_cons.mp ha.order).1 t ht x rfl
  have honce : .destroy x ∉ tasks := (List.nodup_cons.mp ha.nodup).1
  exact {
    block_of_not_mem := ha.block_of_not_mem
    block_some := ha.block_some
    cleared := by simpa using ha.cleared
    pending := by simpa using ha.pending
    mem_handles := by
      intro y
      simp only [Finset.mem_erase, ha.mem_handles, List.mem_cons, Task.destroy.injEq]
      constructor
      · rintro ⟨hne, hy, hmem⟩
        exact ⟨hy, fun b hb hyb => (hmem b hb hyb).resolve_left hne⟩
      · rintro ⟨hy, hmem⟩
        refine ⟨?_, hy, fun b hb hyb => .inr (hmem b hb hyb)⟩
        rintro rfl
        obtain ⟨b, hb, hyb⟩ := ha.destroy_task y List.mem_cons_self
        exact honce (hmem b hb hyb)
    mem_blocks := by simpa using ha.mem_blocks
    nodup := ha.nodup.of_cons
    order := ha.order.of_cons
    reset_task := by
      intro y hy
      have hne : y ≠ x := fun heq => (hlater _ hy).1 (heq ▸ rfl)
      simpa [hne] using ha.reset_task y (List.mem_cons_of_mem _ hy)
    clear_task := by
      intro y hy
      have hne : y ≠ x := fun heq => (hlater _ hy).2 (heq ▸ rfl)
      simpa [hne] using ha.clear_task y (List.mem_cons_of_mem _ hy)
    destroy_task := fun y hy => ha.destroy_task y (List.mem_cons_of_mem _ hy)
    free_task := fun b hb => ha.free_task b (List.mem_cons_of_mem _ hb) }

omit [DecidableEq Handle] in
/-- The memory of a block is given back. -/
theorem free (ha : Agenda h₀ p freed released h (.free b :: tasks)) :
    Agenda h₀ p freed released { h with blocks := h.blocks.erase b } tasks where
  block_of_not_mem := ha.block_of_not_mem
  block_some := ha.block_some
  cleared := by simpa using ha.cleared
  pending := by simpa using ha.pending
  mem_handles := by simpa using ha.mem_handles
  mem_blocks := by
    intro c
    have honce : .free b ∉ tasks := (List.nodup_cons.mp ha.nodup).1
    have hb : b ∈ freed := ha.free_task b List.mem_cons_self
    simp only [Finset.mem_erase, ha.mem_blocks, List.mem_cons, Task.free.injEq]
    by_cases hcb : c = b
    · subst hcb
      simp [hb, honce]
    · simp [hcb]
  nodup := ha.nodup.of_cons
  order := ha.order.of_cons
  reset_task := by
    intro y hy
    simpa using ha.reset_task y (List.mem_cons_of_mem _ hy)
  clear_task := by simpa using ha.clear_task
  destroy_task := by simpa using ha.destroy_task
  free_task c hc := ha.free_task c (List.mem_cons_of_mem _ hc)

end Agenda

end CppConcur.LockFree.SharedPtr.Heap
