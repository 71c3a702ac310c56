import CppConcur.LockFree.SharedPtrAgenda
import Mathlib.Algebra.BigOperators.Group.Finset.Basic

/-!
# What `Reset` destroys

`Reset` of a handle `p` may delete a block, which destroys the handles in it, and so on. The blocks it
deletes are those that only `p` keeps alive, and the handles it destroys are the members of these. A
handle that is a member of such a block itself does not survive its own `Reset`: the last statement of the
call writes to a handle that is destroyed.
-/

namespace CppConcur.LockFree.SharedPtr.Heap

open Logic RefCount

variable {Handle : Type*} [DecidableEq Handle] {h₀ h h' : Heap Handle} {p x : Handle} {b : Addr}
  {freed : Finset Addr} {released : Finset Handle} {tasks : List (Task Handle)}

/-! ### One task -/

omit [DecidableEq Handle] in
theorem count_fetchAddTransient (h : Heap Handle) (b : Addr) (add : Int) :
    (h.fetchAddTransient b add).count b = h.count b + add := by
  simp only [count, fetchAddTransient, Function.update_self]
  omega

omit [DecidableEq Handle] in
theorem count_fetchAddTransient_of_ne (h : Heap Handle) (add : Int) {b c : Addr} (hne : c ≠ b) :
    (h.fetchAddTransient b add).count c = h.count c := by
  simp only [count, fetchAddTransient, Function.update_of_ne hne]

omit [DecidableEq Handle] in
theorem strong_fetchAddTransient (h : Heap Handle) (b : Addr) (add : Int) (c : Addr) :
    ((h.fetchAddTransient b add).counter c).2 = (h.counter c).2 := by
  by_cases hcb : c = b
  · subst hcb
    simp [fetchAddTransient]
  · simp [fetchAddTransient, hcb]

omit [DecidableEq Handle] in
theorem Intact.mem_of_doomed (hh : h₀.Intact) (hb : h₀.graph.Doomed p b) : b ∈ h₀.blocks := by
  cases hb with
  | intro owner hpinned hrefs =>
    obtain ⟨x, hx⟩ := hrefs
    obtain ⟨hx, hxb⟩ := h₀.graph.mem_refs.mp hx
    exact hh.mem_blocks x hx b hxb

omit [DecidableEq Handle] in
/-- A block is deleted when nothing counts it any more. -/
theorem Intact.counter_eq_zero_iff (hh : h₀.Intact) (hb : b ∈ h₀.blocks) (hstamps : h.stamps = h₀.stamps)
    (hstrong : (h.counter b).2 = (h₀.counter b).2) :
    h.counter b = 0 ↔ h.count b = 0 ∧ ¬ h₀.graph.pinned b := by
  have hzero := hh.stamps b hb
  simp only [Prod.ext_iff, Prod.fst_zero, Prod.snd_zero, count, graph, hstamps, hstrong, not_not]
  constructor
  · rintro ⟨hfst, hsnd⟩
    rw [hzero hsnd]
    omega
  · rintro ⟨hsum, hsnd⟩
    rw [hzero hsnd] at hsum
    omega

section Release

variable (hh : h₀.Intact) (hledger : Ledger h₀.graph p h.count freed released) (hstamps : h.stamps = h₀.stamps)
  (hstrong : ∀ b, (h.counter b).2 = (h₀.counter b).2) (hb : b ∈ h₀.blocks) (hx : x ∈ h₀.graph.refs b)
  (hnew : x ∉ released) (horigin : x = p ∨ ∃ c ∈ freed, x ∈ h₀.members c)

include hh hstamps hstrong hb in
theorem counter_release_eq_zero_iff :
    ((h.use x).fetchAddTransient b (-1)).counter b = 0 ↔
      ((h.use x).fetchAddTransient b (-1)).count b = 0 ∧ ¬ h₀.graph.pinned b :=
  hh.counter_eq_zero_iff (h := (h.use x).fetchAddTransient b (-1)) hb hstamps
    ((strong_fetchAddTransient _ b _ b).trans (hstrong b))

include hh hledger hstamps hstrong hb hx hnew horigin

/-- A handle gives up its block and others still refer to it. -/
theorem ledger_keep (hpos : ((h.use x).fetchAddTransient b (-1)).counter b ≠ 0) :
    Ledger h₀.graph p ((h.use x).fetchAddTransient b (-1)).count freed (insert x released) := by
  exact hledger.keep hb hx hnew horigin (count_fetchAddTransient _ _ _)
    (fun c hne => count_fetchAddTransient_of_ne _ _ hne)
    fun hzero => hpos ((counter_release_eq_zero_iff hh hstamps hstrong hb).mpr hzero)

/-- The last handle of a block gives it up. -/
theorem ledger_free (hzero : ((h.use x).fetchAddTransient b (-1)).counter b = 0) :
    Ledger h₀.graph p ((h.use x).fetchAddTransient b (-1)).count (insert b freed) (insert x released) := by
  obtain ⟨hcount, hpinned⟩ := (counter_release_eq_zero_iff hh hstamps hstrong hb).mp hzero
  exact hledger.free hb hx hnew horigin (count_fetchAddTransient _ _ _)
    (fun c hne => count_fetchAddTransient_of_ne _ _ hne) hcount hpinned

end Release

/-- A point of a `Reset` of `p` that has changed the counts of its block. -/
structure Cascade (h₀ : Heap Handle) (p : Handle) (freed : Finset Addr) (released : Finset Handle)
    (h : Heap Handle) (tasks : List (Task Handle)) : Prop where
  ledger : Ledger h₀.graph p h.count freed released
  agenda : Agenda h₀ p freed released h tasks
  members : h.members = h₀.members
  stamps : h.stamps = h₀.stamps
  strong : ∀ b, (h.counter b).2 = (h₀.counter b).2
  root : p ∈ released
  /-- The calls are those that delete the block of `p`. -/
  first : ∀ b, h₀.block p = some b → b ∈ freed ∨ tasks = []
  /-- Unless `p` is destroyed, nothing is used after it is destroyed. -/
  fault : (∀ b ∈ freed, p ∉ h₀.members b) → h.fault = false
  once : (∀ b ∈ freed, p ∉ h₀.members b) → ∀ b, h₀.block p = some b → h.events.count (.add b (-1)) = 1
  head : ∀ b, h₀.block p = some b → ∃ later, h.events = .add b (-1) :: later

/-- The steps that a task takes when no block is deleted. -/
def Task.cost : Task Handle → Nat
  | .reset _ => 2
  | _ => 1

/-- The steps that are left when no further block is deleted. -/
def cost (tasks : List (Task Handle)) : Nat := (tasks.map Task.cost).sum

omit [DecidableEq Handle] in
@[simp] theorem cost_cons (t : Task Handle) (tasks : List (Task Handle)) : cost (t :: tasks) = t.cost + cost tasks := by
  simp [cost]

omit [DecidableEq Handle] in
@[simp] theorem cost_append (tasks later : List (Task Handle)) : cost (tasks ++ later) = cost tasks + cost later := by
  simp [cost]

omit [DecidableEq Handle] in
@[simp] theorem cost_destructors (xs : List Handle) : cost (destructors xs) = 3 * xs.length := by
  induction xs with
  | nil => rfl
  | cons x xs ih =>
    have hcons : destructors (x :: xs) = .reset x :: .destroy x :: destructors xs := rfl
    simp only [hcons, cost_cons, ih, List.length_cons, Task.cost]
    omega

/-- The further steps for the blocks that may still be deleted. -/
def weight (h₀ : Heap Handle) (freed : Finset Addr) : Nat :=
  ∑ b ∈ h₀.blocks \ freed, (3 * (h₀.members b).length + 1)

omit [DecidableEq Handle] in
theorem weight_insert (hb : b ∈ h₀.blocks) (hnew : b ∉ freed) :
    weight h₀ (insert b freed) + (3 * (h₀.members b).length + 1) = weight h₀ freed := by
  rw [weight, Finset.sdiff_insert]
  exact Finset.sum_erase_add _ _ (Finset.mem_sdiff.mpr ⟨hb, hnew⟩)

namespace Cascade

theorem mem_blocks_of_freed (hh : h₀.Intact) (hc : Cascade h₀ p freed released h tasks) :
    ∀ c ∈ freed, c ∈ h₀.blocks :=
  fun c hmem => hh.mem_of_doomed (hc.ledger.doomed c hmem)

/-- A member that is still to be destroyed is constructed. -/
theorem mem_handles_of_destroy (hh : h₀.Intact) (hc : Cascade h₀ p freed released h tasks)
    (hx : .destroy x ∈ tasks) : x ∈ h.handles := by
  obtain ⟨c, hcf, hxc⟩ := hc.agenda.destroy_task x hx
  exact (hc.agenda.mem_handles x).mpr ⟨hh.mem_handles c (hc.mem_blocks_of_freed hh c hcf) x hxc, fun _ _ _ => hx⟩

theorem reset_none (hh : h₀.Intact) (hc : Cascade h₀ p freed released h (.reset x :: tasks))
    (hx : h.block x = none) : Cascade h₀ p freed released (h.use x) tasks where
  ledger := hc.ledger
  agenda := (hc.agenda.reset_none hx).congr rfl rfl rfl
  members := hc.members
  stamps := hc.stamps
  strong := hc.strong
  root := hc.root
  first b hb := .inl ((hc.first b hb).resolve_right nofun)
  fault hp := by
    have hmem : x ∈ h.handles := hc.mem_handles_of_destroy hh (hc.agenda.reset_task x List.mem_cons_self).1
    simp [use, hc.fault hp, hmem]
  once := hc.once
  head := hc.head

/-- The counts of a block are changed by a handle that gives it up for the first time. -/
theorem of_release {freed' : Finset Addr} {tasks' : List (Task Handle)} (hh : h₀.Intact)
    (hc : Cascade h₀ p freed released h (.reset x :: tasks)) (hx : x ∈ h₀.graph.refs b) (hnew : x ∉ released)
    (hsub : freed ⊆ freed')
    (hledger : Ledger h₀.graph p ((h.use x).fetchAddTransient b (-1)).count freed' (insert x released))
    (hagenda : Agenda h₀ p freed' (insert x released) h tasks') :
    Cascade h₀ p freed' (insert x released) ((h.use x).fetchAddTransient b (-1)) tasks' where
  ledger := hledger
  agenda := hagenda.congr rfl rfl rfl
  members := hc.members
  stamps := hc.stamps
  strong c := (strong_fetchAddTransient _ b _ c).trans (hc.strong c)
  root := Finset.mem_insert_of_mem hc.root
  first c hpc := .inl (hsub ((hc.first c hpc).resolve_right nofun))
  fault hp := by
    have hbold : b ∉ freed := hc.ledger.not_mem_freed hx hnew
    obtain ⟨hxh, hxb⟩ := h₀.graph.mem_refs.mp hx
    have hmem : b ∈ h.blocks := (hc.agenda.mem_blocks b).mpr ⟨hh.mem_blocks x hxh b hxb, fun hb => (hbold hb).elim⟩
    have hxmem : x ∈ h.handles := hc.mem_handles_of_destroy hh (hc.agenda.reset_task x List.mem_cons_self).1
    simp [fetchAddTransient, use, hc.fault fun c hcf => hp c (hsub hcf), hmem, hxmem]
  once hp c hpc := by
    have hcf : c ∈ freed := (hc.first c hpc).resolve_right nofun
    have hne : b ≠ c := fun heq => hc.ledger.not_mem_freed hx hnew (heq ▸ hcf)
    simpa [fetchAddTransient, use, List.count_append, hne] using hc.once (fun c hcf => hp c (hsub hcf)) c hpc
  head c hpc := by
    obtain ⟨later, heq⟩ := hc.head c hpc
    exact ⟨later ++ [.add b (-1)], by simp [fetchAddTransient, use, heq]⟩

theorem release (hh : h₀.Intact) (hc : Cascade h₀ p freed released h (.reset x :: tasks))
    (hx : h.block x = some b) (hnew : x ∉ released) :
    ∃ freed', Cascade h₀ p freed' (insert x released) (step h (.reset x)).1 ((step h (.reset x)).2 ++ tasks) ∧
      weight h₀ freed' + cost ((step h (.reset x)).2 ++ tasks) < weight h₀ freed + cost (.reset x :: tasks) := by
  obtain ⟨c, hcf, hxc⟩ := hc.agenda.destroy_task x (hc.agenda.reset_task x List.mem_cons_self).1
  have hxh : x ∈ h₀.handles := hh.mem_handles c (hc.mem_blocks_of_freed hh c hcf) x hxc
  have hxb : h₀.block x = some b := hc.agenda.block_some x b hx
  have hrefs : x ∈ h₀.graph.refs b := h₀.graph.mem_refs.mpr ⟨hxh, hxb⟩
  have hb : b ∈ h₀.blocks := hh.mem_blocks x hxh b hxb
  have hbnew : b ∉ freed := hc.ledger.not_mem_freed hrefs hnew
  have horigin : x = p ∨ ∃ c ∈ freed, x ∈ h₀.members c := .inr ⟨c, hcf, hxc⟩
  simp only [step, hx]
  split
  case isTrue hzero =>
    have hledger := ledger_free hh hc.ledger hc.stamps hc.strong hb hrefs hnew horigin hzero
    refine ⟨insert b freed, ?_, ?_⟩
    · simp only [hc.members, List.append_assoc, List.cons_append, List.nil_append]
      refine hc.of_release hh hrefs hnew (Finset.subset_insert b freed) hledger ?_
      refine hc.agenda.reset_some.delete hh (hc.mem_blocks_of_freed hh) hb hbnew fun y hy => ?_
      rcases Finset.mem_insert.mp hy with rfl | hy
      · exact horigin
      · exact hc.ledger.origin y hy
    · have hweight := weight_insert hb hbnew
      simp only [hc.members, cost_append, cost_destructors, cost_cons, Task.cost]
      simp only [cost, List.map_nil, List.sum_nil]
      omega
  case isFalse hpos =>
    have hledger := ledger_keep hh hc.ledger hc.stamps hc.strong hb hrefs hnew horigin hpos
    refine ⟨freed, hc.of_release hh hrefs hnew (Finset.Subset.refl freed) hledger hc.agenda.reset_some, ?_⟩
    simp only [List.cons_append, List.nil_append, cost_cons, Task.cost]
    omega

/-- `p` is a member of a block that is deleted, and gives up its block for the second time. -/
theorem release_again (hc : Cascade h₀ p freed released h (.reset x :: tasks))
    (hx : h.block x = some b) (hmem : x ∈ released) :
    Cascade h₀ p freed (insert x released) (step h (.reset x)).1 ((step h (.reset x)).2 ++ tasks) ∧
      weight h₀ freed + cost ((step h (.reset x)).2 ++ tasks) < weight h₀ freed + cost (.reset x :: tasks) := by
  obtain ⟨hdestroy, -, hp⟩ := hc.agenda.reset_task x List.mem_cons_self
  obtain rfl := hp hmem
  obtain ⟨c, hcf, hxc⟩ := hc.agenda.destroy_task x hdestroy
  have hbf : b ∈ freed := (hc.first b (hc.agenda.block_some x b hx)).resolve_right nofun
  -- The counts have been used up, so the block is not deleted a second time.
  have hpos : ((h.use x).fetchAddTransient b (-1)).counter b ≠ 0 := by
    intro hzero
    have hspent := hc.ledger.spent b hbf
    have hfst : (h.counter b).1 + -1 = 0 := by simpa [fetchAddTransient, use] using congrArg Prod.fst hzero
    simp only [count] at hspent
    omega
  simp only [step, hx, if_neg hpos]
  refine ⟨?_, by simp only [List.cons_append, List.nil_append, cost_cons, Task.cost]; omega⟩
  exact {
    ledger := by
      rw [Finset.insert_eq_of_mem hmem]
      exact hc.ledger.spend hbf (count_fetchAddTransient _ _ _) fun c hne => count_fetchAddTransient_of_ne _ _ hne
    agenda := hc.agenda.reset_some.congr rfl rfl rfl
    members := hc.members
    stamps := hc.stamps
    strong := fun c => (strong_fetchAddTransient _ b _ c).trans (hc.strong c)
    root := Finset.mem_insert_of_mem hc.root
    first := fun c hpc => .inl ((hc.first c hpc).resolve_right nofun)
    fault := fun hp => (hp c hcf hxc).elim
    once := fun hp => (hp c hcf hxc).elim
    head := by
      intro c hpc
      obtain ⟨later, heq⟩ := hc.head c hpc
      exact ⟨later ++ [.add b (-1)], by simp [fetchAddTransient, use, heq]⟩ }

theorem clear (hh : h₀.Intact) (hc : Cascade h₀ p freed released h (.clear x :: tasks)) :
    Cascade h₀ p freed released (h.setBlock x none) tasks where
  ledger := hc.ledger
  agenda := hc.agenda.clear
  members := hc.members
  stamps := hc.stamps
  strong := hc.strong
  root := hc.root
  first b hb := .inl ((hc.first b hb).resolve_right nofun)
  fault hp := by
    have hmem : x ∈ h.handles := hc.mem_handles_of_destroy hh (hc.agenda.clear_task x List.mem_cons_self).2
    simp [setBlock, use, hc.fault hp, hmem]
  once := hc.once
  head := hc.head

theorem destroy (hc : Cascade h₀ p freed released h (.destroy x :: tasks)) :
    Cascade h₀ p freed released { h with handles := h.handles.erase x } tasks where
  ledger := hc.ledger
  agenda := hc.agenda.destroy
  members := hc.members
  stamps := hc.stamps
  strong := hc.strong
  root := hc.root
  first b hb := .inl ((hc.first b hb).resolve_right nofun)
  fault := hc.fault
  once := hc.once
  head := hc.head

theorem free (hh : h₀.Intact) (hc : Cascade h₀ p freed released h (.free b :: tasks)) :
    Cascade h₀ p freed released (step h (.free b)).1 tasks where
  ledger := hc.ledger
  agenda := hc.agenda.free.congr rfl rfl rfl
  members := hc.members
  stamps := hc.stamps
  strong := hc.strong
  root := hc.root
  first b hb := .inl ((hc.first b hb).resolve_right nofun)
  fault hp := by
    have hb := hc.mem_blocks_of_freed hh b (hc.agenda.free_task b List.mem_cons_self)
    have hmem : b ∈ h.blocks := (hc.agenda.mem_blocks b).mpr ⟨hb, fun _ => List.mem_cons_self⟩
    simp [step, hc.fault hp, hmem]
  once hp c hpc := by simpa [step, List.count_append] using hc.once hp c hpc
  head c hpc := by
    obtain ⟨later, heq⟩ := hc.head c hpc
    exact ⟨later ++ [.free b], by simp [step, heq]⟩

/-- Every task keeps the invariant, and brings the end nearer. -/
theorem step_task {t : Task Handle} (hh : h₀.Intact) (hc : Cascade h₀ p freed released h (t :: tasks)) :
    ∃ freed' released', Cascade h₀ p freed' released' (step h t).1 ((step h t).2 ++ tasks) ∧
      weight h₀ freed' + cost ((step h t).2 ++ tasks) < weight h₀ freed + cost (t :: tasks) := by
  cases t with
  | reset x =>
    cases hx : h.block x with
    | none =>
      refine ⟨freed, released, ?_⟩
      simp only [step, hx, List.nil_append, cost_cons, Task.cost]
      exact ⟨hc.reset_none hh hx, by omega⟩
    | some b =>
      by_cases hmem : x ∈ released
      · exact ⟨freed, _, hc.release_again hx hmem⟩
      · obtain ⟨freed', hc', hless⟩ := hc.release hh hx hmem
        exact ⟨freed', _, hc', hless⟩
  | clear x =>
    refine ⟨freed, released, hc.clear hh, ?_⟩
    simp only [step, List.nil_append, cost_cons, Task.cost]
    omega
  | destroy x =>
    refine ⟨freed, released, hc.destroy, ?_⟩
    simp only [step, List.nil_append, cost_cons, Task.cost]
    omega
  | free b =>
    refine ⟨freed, released, hc.free hh, ?_⟩
    simp only [step, List.nil_append, cost_cons, Task.cost]
    omega

/-- All calls return. -/
theorem exists_run (hh : h₀.Intact) (hc : Cascade h₀ p freed released h tasks) :
    ∃ used freed' released' h', Cascade h₀ p freed' released' h' [] ∧
      ∀ fuel later, Worklist.run step (fuel + used) h (tasks ++ later) = Worklist.run step fuel h' later := by
  obtain ⟨used, n, h', ⟨freed', released', hc', -⟩, hrun⟩ := Worklist.exists_run step
    (P := fun n h tasks => ∃ freed released, Cascade h₀ p freed released h tasks ∧ weight h₀ freed + cost tasks = n)
    (by
      rintro _ h t tasks ⟨freed, released, hc, rfl⟩
      obtain ⟨freed', released', hc', hless⟩ := hc.step_task hh
      exact ⟨_, hless, freed', released', hc', rfl⟩)
    _ h tasks ⟨freed, released, hc, rfl⟩
  exact ⟨used, freed', released', h', hc', hrun⟩

/-- The first statements of `Reset` of a handle that refers to a block. -/
theorem start (hh : h₀.Intact) (hevents : h₀.events = []) (hp : p ∈ h₀.handles) (hpb : h₀.block p = some b) :
    ∃ freed tasks, (step h₀ (.reset p)).2 = tasks ++ [.clear p] ∧
      Cascade h₀ p freed {p} (step h₀ (.reset p)).1 tasks := by
  have hb : b ∈ h₀.blocks := hh.mem_blocks p hp b hpb
  have hrefs : p ∈ h₀.graph.refs b := h₀.graph.mem_refs.mpr ⟨hp, hpb⟩
  have hstart : Ledger h₀.graph p h₀.count ∅ ∅ := .start hh.balanced
  have hof : ∀ {freed tasks}, (b ∈ freed ∨ tasks = []) →
      Ledger h₀.graph p ((h₀.use p).fetchAddTransient b (-1)).count freed {p} →
      Agenda h₀ p freed {p} h₀ tasks →
      Cascade h₀ p freed {p} ((h₀.use p).fetchAddTransient b (-1)) tasks := by
    intro freed tasks hfirst hledger hagenda
    have hsame : ∀ c, h₀.block p = some c → c = b := fun c hc => Option.some.inj (hc.symm.trans hpb)
    exact {
      ledger := hledger
      agenda := hagenda.congr rfl rfl rfl
      members := rfl
      stamps := rfl
      strong := strong_fetchAddTransient _ b _
      root := Finset.mem_singleton_self p
      first := fun c hc => hsame c hc ▸ hfirst
      fault := fun _ => by simp [fetchAddTransient, use, hh.fault, hp, hb]
      once := fun _ c hc => by simp [hsame c hc, fetchAddTransient, use, hevents]
      head := fun c hc => ⟨[], by simp [hsame c hc, fetchAddTransient, use, hevents]⟩ }
  simp only [step, hpb]
  split
  case isTrue hzero =>
    have hledger := ledger_free hh hstart rfl (fun _ => rfl) hb hrefs (Finset.notMem_empty p) (.inl rfl) hzero
    refine ⟨{b}, destructors (h₀.members b) ++ [.free b], by simp, hof (.inl (Finset.mem_singleton_self b)) hledger ?_⟩
    exact Agenda.start.delete hh (by simp) hb (Finset.notMem_empty b) (by simp)
  case isFalse hpos =>
    have hledger := ledger_keep hh hstart rfl (fun _ => rfl) hb hrefs (Finset.notMem_empty p) (.inl rfl) hpos
    exact ⟨∅, [], rfl, hof (.inr rfl) hledger .start⟩

end Cascade

/-! ### `Reset` -/

/-- What a `Reset` of `p` leaves behind. -/
structure Released (h₀ : Heap Handle) (p : Handle) (h : Heap Handle) : Prop where
  mem_handles : ∀ x, x ∈ h.handles ↔ x ∈ h₀.handles ∧ ¬ h₀.graph.Falls p x
  mem_blocks : ∀ b, b ∈ h.blocks ↔ b ∈ h₀.blocks ∧ ¬ h₀.graph.Doomed p b
  null : h.block p = none
  block_eq : ∀ x ∈ h.handles, x ≠ p → h.block x = h₀.block x
  members : h.members = h₀.members
  stamps : h.stamps = h₀.stamps
  strong : ∀ b, (h.counter b).2 = (h₀.counter b).2
  fault : h.fault = true ↔ h₀.graph.Falls p p
  balanced : h.Balanced
  once : ¬ h₀.graph.Falls p p → ∀ b, h₀.block p = some b → h.events.count (.add b (-1)) = 1
  head : ∀ b, h₀.block p = some b → ∃ later, h.events = .add b (-1) :: later
  idle : h₀.block p = none → h.events = []

/-- The last statement of `Reset`. -/
theorem Cascade.finish (hpb : h₀.block p = some b) (hp : p ∈ h₀.handles) (hc : Cascade h₀ p freed released h []) :
    Released h₀ p (h.setBlock p none) := by
  have hclosed : ∀ c ∈ freed, ∀ x ∈ h₀.members c, x ∈ released ∨ h₀.block x = none := by
    intro c hcf x hx
    simpa using hc.agenda.pending c hcf x hx
  have hdoomed : ∀ {b}, b ∈ freed ↔ h₀.graph.Doomed p b := hc.ledger.mem_freed_iff hc.root hclosed
  have hfalls : ∀ x, h₀.graph.Falls p x ↔ ∃ b ∈ freed, x ∈ h₀.members b := by
    intro x
    simp only [Graph.Falls, ← hdoomed]
    rfl
  have hhandles : ∀ x, x ∈ h.handles ↔ x ∈ h₀.handles ∧ ¬ h₀.graph.Falls p x := by
    intro x
    rw [hc.agenda.mem_handles, hfalls]
    simp
  have hblocks : ∀ b, b ∈ h.blocks ↔ b ∈ h₀.blocks ∧ ¬ h₀.graph.Doomed p b := by
    intro b
    rw [hc.agenda.mem_blocks, ← hdoomed]
    simp
  -- A handle that is left and has given up its block is `p`.
  have hleft : ∀ x ∈ h.handles, x ≠ p → x ∉ released := by
    intro x hx hne hmem
    obtain ⟨b, hb, hxb⟩ := (hc.ledger.origin x hmem).resolve_left hne
    exact ((hhandles x).mp hx).2 ((hfalls x).mpr ⟨b, hb, hxb⟩)
  exact {
    mem_handles := hhandles
    mem_blocks := hblocks
    null := by simp [setBlock]
    block_eq := by
      intro x hx hne
      simpa [setBlock, hne] using hc.agenda.block_of_not_mem x (hleft x hx hne)
    members := hc.members
    stamps := hc.stamps
    strong := hc.strong
    fault := by
      have hset : (h.setBlock p none).fault = (h.fault || decide (p ∉ h.handles)) := rfl
      rw [hset]
      by_cases hself : h₀.graph.Falls p p
      · simp [hhandles, hself]
      · have hfault := hc.fault fun b hb hpb => hself ((hfalls p).mpr ⟨b, hb, hpb⟩)
        simp [hhandles, hself, hfault, hp]
    balanced := by
      intro b hb
      obtain ⟨hb₀, hkept⟩ := (hblocks b).mp hb
      have hcount := hc.ledger.count_eq b hb₀ (mt hdoomed.mp hkept)
      refine hcount.trans (congrArg (fun s : Finset Handle => (s.card : Int)) (Finset.ext fun x => ?_))
      simp only [Finset.mem_sdiff, Graph.mem_refs]
      constructor
      · rintro ⟨⟨hx, hxb⟩, hnot⟩
        have hne : x ≠ p := fun heq => hnot (heq ▸ hc.root)
        have hkeep : ¬ h₀.graph.Falls p x := by
          rw [hfalls]
          rintro ⟨c, hcf, hxc⟩
          refine hnot ((hclosed c hcf x hxc).resolve_right fun hnone => ?_)
          cases hxb.symm.trans hnone
        refine ⟨(hhandles x).mpr ⟨hx, hkeep⟩, ?_⟩
        exact (Function.update_of_ne hne none h.block).trans ((hc.agenda.block_of_not_mem x hnot).trans hxb)
      · rintro ⟨hx, hxb : Function.update h.block p none x = some b⟩
        have hne : x ≠ p := by
          rintro rfl
          simp at hxb
        rw [Function.update_of_ne hne, hc.agenda.block_of_not_mem x (hleft x hx hne)] at hxb
        exact ⟨⟨((hhandles x).mp hx).1, hxb⟩, hleft x hx hne⟩
    once := fun hnot => hc.once fun b hb hpb => hnot ((hfalls p).mpr ⟨b, hb, hpb⟩)
    head := hc.head
    idle := fun hnone => by cases hpb.symm.trans hnone }

/-- `Reset` of a handle that refers to nothing. -/
theorem released_null (hh : h₀.Intact) (hevents : h₀.events = []) (hp : p ∈ h₀.handles) (hpb : h₀.block p = none) :
    Released h₀ p (h₀.use p) := by
  have hdoomed : ∀ b, ¬ h₀.graph.Doomed p b := by
    intro b hb
    obtain ⟨c, hc⟩ := hb.exists_target
    cases hpb.symm.trans hc
  have hfalls : ∀ x, ¬ h₀.graph.Falls p x := Graph.not_falls_of_target_eq_none hpb
  exact {
    mem_handles := fun x => ⟨fun hx => ⟨hx, hfalls x⟩, fun hx => hx.1⟩
    mem_blocks := fun b => ⟨fun hb => ⟨hb, hdoomed b⟩, fun hb => hb.1⟩
    null := hpb
    block_eq := fun _ _ _ => rfl
    members := rfl
    stamps := rfl
    strong := fun _ => rfl
    fault := by simp [use, hh.fault, hp, hfalls]
    balanced := hh.balanced
    once := fun _ b hb => by cases hpb.symm.trans hb
    head := fun b hb => by cases hpb.symm.trans hb
    idle := fun _ => hevents }

/-- `Reset` returns, and leaves behind what it should. -/
theorem exists_reset (hh : h₀.Intact) (hevents : h₀.events = []) (hp : p ∈ h₀.handles) :
    ∃ n h, Released h₀ p h ∧ ∀ fuel, h₀.reset (fuel + n) p = some h := by
  cases hpb : h₀.block p with
  | none => exact ⟨1, h₀.use p, released_null hh hevents hp hpb, fun fuel => by simp [reset, step, hpb]⟩
  | some b =>
    obtain ⟨freed, tasks, htasks, hstart⟩ := Cascade.start hh hevents hp hpb
    obtain ⟨used, freed', released', h', hend, hrun⟩ := hstart.exists_run hh
    refine ⟨used + 2, h'.setBlock p none, hend.finish hpb hp, fun fuel => ?_⟩
    rw [reset, show fuel + (used + 2) = fuel + 1 + used + 1 by omega, Worklist.run_cons, htasks, List.append_nil, hrun]
    simp [step]

end CppConcur.LockFree.SharedPtr.Heap
