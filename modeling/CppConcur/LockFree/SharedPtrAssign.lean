import CppConcur.LockFree.SharedPtrCascade

/-!
# Assignment of shared pointers

Both assignments of `SharedPtr` release the block of the left-hand side before they read the right-hand
side. The right-hand side may be the left-hand side, or a member of an object that is destroyed with it,
as in the walk `head = head->next` over a list that only `head` keeps alive. The assignment does its work
exactly when the two handles differ and both survive the release, and a program whose assignments are all
of this kind keeps its heap intact.
-/

namespace CppConcur.LockFree.SharedPtr.Heap

open Logic RefCount

variable {Handle : Type*} [DecidableEq Handle] {h h₁ h₂ : Heap Handle} {p q : Handle} {b : Addr}

/-! ### What an assignment is for -/

/-- A block is released: it counts a handle less, or it is freed. -/
def Event.IsRelease : Event Handle → Prop
  | .add _ n => n < 0
  | .free _ => True
  | .read _ => False

/-- The right-hand side is read before any block is released. -/
def ReadFirst (q : Handle) (events : List (Event Handle)) : Prop :=
  ∃ before after, events = before ++ .read q :: after ∧ ∀ e ∈ before, ¬ e.IsRelease

/-- The heap `h'` after the assignment of `q` to `p`: `p` refers to the block that `q` referred to, the
former block of `p` has been released once, and every block counts its handles. Nothing was used after it
had been destroyed. -/
structure Assigned (h : Heap Handle) (p q : Handle) (h' : Heap Handle) : Prop where
  fault : h'.fault = false
  mem_handles : p ∈ h'.handles
  block : h'.block p = h.block q
  once : ∀ b, h.block p = some b → h'.events.count (.add b (-1)) = 1
  balanced : h'.Balanced

/-- `p` refers to nothing, or the handles are different and neither is a member of an object that is
destroyed when `p` gives up its block. -/
def Apart (h : Heap Handle) (p q : Handle) : Prop :=
  h.block p = none ∨ (p ≠ q ∧ ¬ h.graph.Falls p p ∧ ¬ h.graph.Falls p q)

omit [DecidableEq Handle] in
/-- An assignment of a handle to itself. -/
theorem apart_self_iff : Apart h p p ↔ h.block p = none := by
  simp [Apart]

omit [DecidableEq Handle] in
/-- Different handles are apart if the left-hand side is not the only handle of its block: for instance, if both
refer to the same block. -/
theorem apart_of_shared {x : Handle} (hne : p ≠ q) (hx : x ∈ h.handles) (hxp : x ≠ p) (hxb : h.block x = h.block p) :
    Apart h p q := by
  cases hpb : h.block p with
  | none => exact .inl hpb
  | some b =>
    have hrefs : x ∈ h.graph.refs b := h.graph.mem_refs.mpr ⟨hx, hxb.trans hpb⟩
    have hfalls : ∀ y, ¬ h.graph.Falls p y := fun y ⟨c, hc, _⟩ => Graph.not_doomed_of_shared hpb hrefs hxp c hc
    exact .inr ⟨hne, hfalls p, hfalls q⟩

omit [DecidableEq Handle] in
/-- The members of an object are not apart from the only handle that keeps it alive. -/
theorem not_apart_of_member (hp : p ∈ h.handles) (hpb : h.block p = some b)
    (hsole : ∀ x ∈ h.handles, h.block x = some b → x = p) (hstrong : (h.counter b).2 = 0) (hq : q ∈ h.members b) :
    ¬ Apart h p q := by
  have hdoomed : h.graph.Doomed p b := by
    refine Graph.doomed_of_sole (h.graph.mem_refs.mpr ⟨hp, hpb⟩) (fun x hx => ?_) (not_not_intro hstrong)
    obtain ⟨hx, hxb⟩ := h.graph.mem_refs.mp hx
    exact hsole x hx hxb
  rintro (hnull | ⟨-, -, hother⟩)
  · cases hpb.symm.trans hnull
  · exact hother ⟨b, hdoomed, hq⟩

/-! ### The statements after `Reset` -/

theorem refs_read (h : Heap Handle) (x : Handle) (c : Addr) : (h.read x).graph.refs c = h.graph.refs c := rfl

omit [DecidableEq Handle] in
theorem refs_fetchAddTransient (h : Heap Handle) (add : Int) (c : Addr) :
    (h.fetchAddTransient b add).graph.refs c = h.graph.refs c := rfl

theorem count_setBlock (h : Heap Handle) (x : Handle) (p : Option Addr) (c : Addr) :
    (h.setBlock x p).count c = h.count c := rfl

theorem refs_setBlock_none (h : Heap Handle) (x : Handle) (c : Addr) :
    (h.setBlock x none).graph.refs c = (h.graph.refs c).erase x := by
  ext y
  by_cases hyx : y = x <;> simp [graph, setBlock, use, hyx]

theorem refs_setBlock_some (hp : p ∈ h.handles) (hnull : h.block p = none) (c : Addr) :
    (h.setBlock p (some b)).graph.refs c = if c = b then insert p (h.graph.refs c) else h.graph.refs c := by
  ext y
  by_cases hyp : y = p
  · by_cases hcb : c = b <;> simp [graph, setBlock, use, hyp, hp, hnull, hcb, Ne.symm]
  · split <;> simp [graph, setBlock, use, hyp]

omit [DecidableEq Handle] in
theorem not_mem_refs_of_null (hnull : h.block p = none) (c : Addr) : p ∉ h.graph.refs c := by
  simp [graph, hnull]

/-- A handle that refers to nothing may be set to nothing. -/
theorem Balanced.setBlock_none (hbal : h.Balanced) (hnull : h.block p = none) : (h.setBlock p none).Balanced := by
  intro c hc
  rw [refs_setBlock_none, Finset.erase_eq_of_notMem (not_mem_refs_of_null hnull c)]
  exact hbal c hc

/-- A handle that comes to refer to a block is counted by it. -/
theorem Balanced.acquire (hbal : h.Balanced) (hp : p ∈ h.handles) (hnull : h.block p = none) :
    ((h.setBlock p (some b)).fetchAddTransient b 1).Balanced := by
  intro c hc
  have hcount : h.count c = (h.graph.refs c).card := hbal c hc
  rw [refs_fetchAddTransient, refs_setBlock_some hp hnull]
  by_cases hcb : c = b
  · subst hcb
    rw [if_pos rfl, Finset.card_insert_of_notMem (not_mem_refs_of_null hnull c), count_fetchAddTransient,
      count_setBlock, hcount]
    rfl
  · rw [if_neg hcb, count_fetchAddTransient_of_ne _ _ hcb]
    exact hcount

/-- A handle takes the place of another. -/
theorem Balanced.exchange (hbal : h.Balanced) (hp : p ∈ h.handles) (hq : q ∈ h.handles) (hnull : h.block p = none)
    (hqb : h.block q = some b) : ((h.setBlock p (some b)).setBlock q none).Balanced := by
  intro c hc
  have hcount : h.count c = (h.graph.refs c).card := hbal c hc
  have hne : q ≠ p := by
    rintro rfl
    cases hnull.symm.trans hqb
  rw [count_setBlock, count_setBlock, hcount, refs_setBlock_none, refs_setBlock_some hp hnull]
  by_cases hcb : c = b
  · subst hcb
    have hmem : q ∈ h.graph.refs c := h.graph.mem_refs.mpr ⟨hq, hqb⟩
    rw [if_pos rfl, Finset.card_erase_of_mem (Finset.mem_insert_of_mem hmem),
      Finset.card_insert_of_notMem (not_mem_refs_of_null hnull c), Nat.add_sub_cancel]
  · have hmem : q ∉ h.graph.refs c := by
      intro hmem
      exact hcb (Option.some.inj ((h.graph.mem_refs.mp hmem).2.symm.trans hqb))
    rw [if_neg hcb, Finset.erase_eq_of_notMem hmem]

/-- What the statements after `Reset` do, for both assignments. The left-hand side refers to nothing. -/
structure Completes (h₁ : Heap Handle) (p q : Handle) (h₂ : Heap Handle) : Prop where
  handles : h₂.handles = h₁.handles
  blocks : h₂.blocks = h₁.blocks
  members : h₂.members = h₁.members
  stamps : h₂.stamps = h₁.stamps
  strong : ∀ b, (h₂.counter b).2 = (h₁.counter b).2
  block : h₂.block p = h₁.block q
  block_of_ne : ∀ x, x ≠ p → ∀ b, h₂.block x = some b → h₁.block x = some b
  fault : h₂.fault = false → h₁.fault = false ∧ q ∈ h₁.handles
  events : ∃ after, h₂.events = h₁.events ++ .read q :: after ∧ ∀ b, .add b (-1) ∉ after
  sound : h₁.fault = false → p ∈ h₁.handles → q ∈ h₁.handles → (∀ b, h₁.block q = some b → b ∈ h₁.blocks) →
    h₂.fault = false
  balanced : h₁.Balanced → p ∈ h₁.handles → q ∈ h₁.handles → h₂.Balanced

theorem completes_copyFrom (hnull : h₁.block p = none) : Completes h₁ p q (h₁.copyFrom p q) := by
  cases hqb : h₁.block q with
  | none =>
    simp only [copyFrom, hqb]
    exact {
      handles := rfl
      blocks := rfl
      members := rfl
      stamps := rfl
      strong := fun _ => rfl
      block := by simp [setBlock, hqb]
      block_of_ne := fun x hx b hb => by simpa [setBlock, read, use, hx] using hb
      fault := by
        intro hfault
        simp [setBlock, read, use] at hfault
        exact hfault.1
      events := ⟨[], rfl, by simp⟩
      sound := by
        intro hfault hp hq _
        simp [setBlock, read, use, hfault, hp, hq]
      balanced := fun hbal _ _ => Balanced.setBlock_none (h := h₁.read q) hbal hnull }
  | some b =>
    simp only [copyFrom, hqb]
    exact {
      handles := rfl
      blocks := rfl
      members := rfl
      stamps := rfl
      strong := strong_fetchAddTransient _ b 1
      block := by simp [setBlock, fetchAddTransient, hqb]
      block_of_ne := fun x hx b hb => by simpa [setBlock, fetchAddTransient, read, use, hx] using hb
      fault := by
        intro hfault
        simp [fetchAddTransient, setBlock, read, use] at hfault
        exact hfault.1.1
      events := ⟨[.add b 1], by simp [fetchAddTransient, setBlock, read, use], by simp⟩
      sound := by
        intro hfault hp hq hb
        simp [fetchAddTransient, setBlock, read, use, hfault, hp, hq, hb b hqb]
      balanced := fun hbal hp _ => Balanced.acquire (h := h₁.read q) hbal hp hnull }

theorem completes_moveFrom (hnull : h₁.block p = none) : Completes h₁ p q (h₁.moveFrom p q) where
  handles := rfl
  blocks := rfl
  members := rfl
  stamps := rfl
  strong _ := rfl
  block_of_ne x hx b hb := by
    by_cases hxq : x = q
    · simp [moveFrom, setBlock, hxq] at hb
    · simpa [moveFrom, setBlock, read, use, hx, hxq] using hb
  block := by
    by_cases hpq : p = q
    · subst hpq
      simp [moveFrom, setBlock, hnull]
    · simp [moveFrom, setBlock, hpq]
  fault := by
    intro hfault
    simp [moveFrom, setBlock, read, use] at hfault
    exact hfault.1.1
  events := ⟨[], rfl, by simp⟩
  sound := by
    intro hfault hp hq _
    simp [moveFrom, setBlock, read, use, hfault, hp, hq]
  balanced := by
    intro hbal hp hq
    cases hqb : h₁.block q with
    | none =>
      have hbal' := Balanced.setBlock_none (h := h₁.read q) hbal hnull
      simp only [moveFrom, hqb]
      refine hbal'.setBlock_none ?_
      by_cases hpq : q = p <;> simp [setBlock, read, use, hpq, hqb]
    | some b =>
      simp only [moveFrom, hqb]
      exact Balanced.exchange (h := h₁.read q) hbal hp hq hnull hqb

/-! ### The assignments -/

omit [DecidableEq Handle] in
/-- An assignment that starts with a release does not read the right-hand side first. -/
theorem not_readFirst_of_head {later : List (Event Handle)} : ¬ ReadFirst q (.add b (-1) :: later) := by
  rintro ⟨before, after, heq, hbefore⟩
  cases before with
  | nil => cases heq
  | cons e before =>
    obtain ⟨rfl, -⟩ := List.cons.inj heq
    exact hbefore _ List.mem_cons_self (show (-1 : Int) < 0 by decide)

section Exact

variable (hreset : Released { h with events := [] } p h₁) (hrest : Completes h₁ p q h₂)

include hreset hrest

/-- The assignment does its work if the handles are apart. -/
theorem assigned_of_apart (hh : h.Intact) (hp : p ∈ h.handles) (hq : q ∈ h.handles) (hapart : Apart h p q) :
    Assigned h p q h₂ := by
  have hself : ¬ h.graph.Falls p p := hapart.elim (fun hnull => Graph.not_falls_of_target_eq_none hnull p) (·.2.1)
  have hother : ¬ h.graph.Falls p q := hapart.elim (fun hnull => Graph.not_falls_of_target_eq_none hnull q) (·.2.2)
  have hp₁ : p ∈ h₁.handles := (hreset.mem_handles p).mpr ⟨hp, hself⟩
  have hq₁ : q ∈ h₁.handles := (hreset.mem_handles q).mpr ⟨hq, hother⟩
  have hfault : h₁.fault = false := Bool.eq_false_iff.mpr (mt hreset.fault.mp hself)
  have hblock : h₁.block q = h.block q := by
    by_cases hqp : q = p
    · subst hqp
      exact hreset.null.trans (hapart.resolve_right fun hne => hne.1 rfl).symm
    · exact hreset.block_eq q hq₁ hqp
  -- The block of the right-hand side is kept by the right-hand side.
  have hlive : ∀ b, h₁.block q = some b → b ∈ h₁.blocks := by
    intro b hb
    rw [hblock] at hb
    refine (hreset.mem_blocks b).mpr ⟨hh.mem_blocks q hq b hb, fun hdoomed => ?_⟩
    by_cases hqp : q = p
    · subst hqp
      cases hb.symm.trans (hapart.resolve_right fun hne => hne.1 rfl)
    · exact hother (hdoomed.falls (h.graph.mem_refs.mpr ⟨hq, hb⟩) hqp)
  obtain ⟨after, hevents, hafter⟩ := hrest.events
  exact {
    fault := hrest.sound hfault hp₁ hq₁ hlive
    mem_handles := hrest.handles ▸ hp₁
    block := hrest.block.trans hblock
    once := by
      intro b hb
      rw [hevents, List.count_append, hreset.once hself b hb, List.count_cons_of_ne (by simp),
        List.count_eq_zero_of_not_mem (hafter b)]
    balanced := hrest.balanced hreset.balanced hp₁ hq₁ }

/-- If the handles are not apart, the left-hand side is left without a block, or a destroyed handle is used. -/
theorem apart_of_assigned (hassigned : Assigned h p q h₂) : Apart h p q := by
  obtain ⟨hfault, hq₁⟩ := hrest.fault hassigned.fault
  cases hpb : h.block p with
  | none => exact .inl hpb
  | some b =>
    refine .inr ⟨?_, fun hself => ?_, ((hreset.mem_handles q).mp hq₁).2⟩
    · rintro rfl
      cases hpb.symm.trans (hassigned.block.symm.trans (hrest.block.trans hreset.null))
    · rw [hreset.fault.mpr hself] at hfault
      cases hfault

theorem readFirst_iff : ReadFirst q h₂.events ↔ h.block p = none := by
  obtain ⟨after, hevents, -⟩ := hrest.events
  rw [hevents]
  cases hpb : h.block p with
  | none =>
    rw [hreset.idle hpb]
    exact ⟨fun _ => rfl, fun _ => ⟨[], after, rfl, by simp⟩⟩
  | some b =>
    obtain ⟨later, hlater⟩ := hreset.head b hpb
    rw [hlater, List.cons_append]
    exact ⟨fun hfirst => (not_readFirst_of_head hfirst).elim, nofun⟩

/-- An assignment that does its work leaves the heap intact. -/
theorem intact_of_assigned (hh : h.Intact) (hassigned : Assigned h p q h₂) : h₂.Intact := by
  have hq₁ : q ∈ h₁.handles := (hrest.fault hassigned.fault).2
  have hmem : ∀ x ∈ h₁.handles, x ≠ p → ∀ b, h₁.block x = some b → b ∈ h₁.blocks := by
    intro x hx hne b hb
    obtain ⟨hx₀, hkept⟩ := (hreset.mem_handles x).mp hx
    have hxb : h.block x = some b := (hreset.block_eq x hx hne).symm.trans hb
    refine (hreset.mem_blocks b).mpr ⟨hh.mem_blocks x hx₀ b hxb, fun hdoomed => hkept ?_⟩
    exact hdoomed.falls (h.graph.mem_refs.mpr ⟨hx₀, hxb⟩) hne
  have hkept : ∀ b ∈ h₂.blocks, b ∈ h.blocks ∧ ¬ h.graph.Doomed p b := by
    intro b hb
    rw [hrest.blocks] at hb
    exact (hreset.mem_blocks b).mp hb
  have hmembers : h₂.members = h.members := hrest.members.trans hreset.members
  exact {
    fault := hassigned.fault
    mem_blocks := by
      intro x hx b hb
      rw [hrest.handles] at hx
      rw [hrest.blocks]
      by_cases hxp : x = p
      · subst hxp
        rw [hrest.block] at hb
        refine hmem q hq₁ (fun hqp => ?_) b hb
        subst hqp
        cases hreset.null.symm.trans hb
      · exact hmem x hx hxp b (hrest.block_of_ne x hxp b hb)
    mem_handles := by
      intro b hb x hx
      rw [hmembers] at hx
      rw [hrest.handles]
      obtain ⟨hb₀, hnot⟩ := hkept b hb
      refine (hreset.mem_handles x).mpr ⟨hh.mem_handles b hb₀ x hx, ?_⟩
      rintro ⟨c, hdoomed, hxc⟩
      exact hnot (hh.disjoint b hb₀ c (hh.mem_of_doomed hdoomed) x hx hxc ▸ hdoomed)
    nodup := fun b hb => by
      rw [hmembers]
      exact hh.nodup b (hkept b hb).1
    disjoint := fun b hb c hc => by
      rw [hmembers]
      exact hh.disjoint b (hkept b hb).1 c (hkept c hc).1
    stamps := fun b hb hstrong => by
      rw [hrest.strong, hreset.strong] at hstrong
      rw [hrest.stamps, hreset.stamps]
      exact hh.stamps b (hkept b hb).1 hstrong
    balanced := hassigned.balanced }

/-- All that is asked of an assignment, and all but the order. -/
theorem assigned_exact (hh : h.Intact) (hp : p ∈ h.handles) (hq : q ∈ h.handles) :
    (ReadFirst q h₂.events ∧ Assigned h p q h₂ ↔ h.block p = none) ∧ (Assigned h p q h₂ ↔ Apart h p q) := by
  have hiff : Assigned h p q h₂ ↔ Apart h p q :=
    ⟨apart_of_assigned hreset hrest, assigned_of_apart hreset hrest hh hp hq⟩
  refine ⟨?_, hiff⟩
  rw [hiff, readFirst_iff hreset hrest]
  exact ⟨And.left, fun hnull => ⟨hnull, .inl hnull⟩⟩

end Exact

omit [DecidableEq Handle] in
theorem Intact.clearEvents (hh : h.Intact) : Intact { h with events := [] } :=
  ⟨hh.fault, hh.mem_blocks, hh.mem_handles, hh.nodup, hh.disjoint, hh.stamps, hh.balanced⟩

/-! ### Programs that assign -/

/-- Any sequence of assignments of handles that are apart. -/
def assignSystem (Handle : Type*) [DecidableEq Handle] : System (Heap Handle) where
  init h := h.Intact
  step h h' := ∃ p q fuel, p ∈ h.handles ∧ q ∈ h.handles ∧ Apart h p q ∧
    (h.copyAssign fuel p q = some h' ∨ h.moveAssign fuel p q = some h')

/-- The result of a call does not depend on the fuel. -/
theorem reset_eq_of_some {h' : Heap Handle} {n fuel : Nat} (hrun : ∀ fuel, h.reset (fuel + n) p = some h₁)
    (hreset : h.reset fuel p = some h') : h' = h₁ := by
  have hmore : h.reset (fuel + n) p = some h' := Worklist.run_add hreset n
  exact Option.some.inj (hmore.symm.trans (hrun fuel))

/-- As long as the handles of every assignment are apart, the blocks count their handles and nothing is used
after it has been destroyed. -/
theorem intact_of_reachable (hreach : (assignSystem Handle).Reachable h) : h.Intact := by
  refine hreach.invariant (fun _ hinit => hinit) ?_
  rintro h h' - hh ⟨p, q, fuel, hp, hq, hapart, hstep⟩
  obtain ⟨n, h₁, hreset, hrun⟩ := exists_reset hh.clearEvents rfl hp
  have hintact : ∀ {h₂}, Completes h₁ p q h₂ → h₂.Intact := fun hrest =>
    intact_of_assigned hreset hrest hh (assigned_of_apart hreset hrest hh hp hq hapart)
  rcases hstep with hcopy | hmove
  · obtain ⟨h₂, hcall, rfl⟩ := Option.map_eq_some_iff.mp hcopy
    rw [reset_eq_of_some hrun hcall]
    exact hintact (completes_copyFrom hreset.null)
  · obtain ⟨h₂, hcall, rfl⟩ := Option.map_eq_some_iff.mp hmove
    rw [reset_eq_of_some hrun hcall]
    exact hintact (completes_moveFrom hreset.null)

/-- A list of two nodes. Handle `0` is the variable `head`, handle `1` the `next` of the first node, and
handle `2` that of the second. -/
def listOfTwo : Heap Nat where
  handles := {0, 1, 2}
  block := fun x => [some 0, some 1, none].getD x none
  blocks := {0, 1}
  members := fun b => [[1], [2]].getD b []
  counter := fun _ => (1, 0)
  stamps := fun _ => 0
  fault := false
  events := []

theorem listOfTwo_intact : listOfTwo.Intact where
  fault := rfl
  mem_blocks := by
    have hmem : ∀ x ∈ listOfTwo.handles, ∀ b ∈ listOfTwo.block x, b ∈ listOfTwo.blocks := by decide
    exact hmem
  mem_handles := by decide
  nodup := by decide
  disjoint := by decide
  stamps := by decide
  balanced := by
    unfold Balanced
    decide

theorem intact_of_reachable_cycle : ∃ h', listOfTwo.copyAssign 12 2 0 = some h' ∧ h'.Intact :=
  ⟨(listOfTwo.copyAssign 12 2 0).get (by decide), by simp,
    intact_of_reachable (.step (.init listOfTwo_intact) ⟨2, 0, 12, by decide, by decide, .inl rfl, .inl (by simp)⟩)⟩

/-- Both assignments return. They read the right-hand side before any block is released only if the left-hand
side refers to nothing. Apart from that they do what they should exactly if the left-hand side refers to
nothing, or the handles are different and both survive the release of the left-hand side's block. -/
theorem assignment_correct_iff (h : Heap Handle) (hh : h.Intact) (p q : Handle) (hp : p ∈ h.handles)
    (hq : q ∈ h.handles) :
    ∃ n, ∀ fuel,
      (∃ h', h.copyAssign (fuel + n) p q = some h' ∧
        (ReadFirst q h'.events ∧ Assigned h p q h' ↔ h.block p = none) ∧ (Assigned h p q h' ↔ Apart h p q)) ∧
      (∃ h', h.moveAssign (fuel + n) p q = some h' ∧
        (ReadFirst q h'.events ∧ Assigned h p q h' ↔ h.block p = none) ∧ (Assigned h p q h' ↔ Apart h p q)) := by
  obtain ⟨n, h₁, hreset, hrun⟩ := exists_reset hh.clearEvents rfl hp
  refine ⟨n, fun fuel => ⟨⟨h₁.copyFrom p q, ?_, ?_⟩, h₁.moveFrom p q, ?_, ?_⟩⟩
  · rw [copyAssign, hrun]
    rfl
  · exact assigned_exact hreset (completes_copyFrom hreset.null) hh hp hq
  · rw [moveAssign, hrun]
    rfl
  · exact assigned_exact hreset (completes_moveFrom hreset.null) hh hp hq

theorem assignment_correct_iff_listOfTwo : ∃ n, ∀ fuel,
    (∃ h', listOfTwo.copyAssign (fuel + n) 0 1 = some h' ∧
      (ReadFirst 1 h'.events ∧ Assigned listOfTwo 0 1 h' ↔ listOfTwo.block 0 = none) ∧
      (Assigned listOfTwo 0 1 h' ↔ Apart listOfTwo 0 1)) ∧
    (∃ h', listOfTwo.moveAssign (fuel + n) 0 1 = some h' ∧
      (ReadFirst 1 h'.events ∧ Assigned listOfTwo 0 1 h' ↔ listOfTwo.block 0 = none) ∧
      (Assigned listOfTwo 0 1 h' ↔ Apart listOfTwo 0 1)) :=
  assignment_correct_iff listOfTwo listOfTwo_intact 0 1 (by decide) (by decide)

/-- `head = head->next`, by copy and by move: the whole list is freed, the right-hand side is read after it is
destroyed, and `head` does not refer to the second node. `head = head` frees the list as well. -/
theorem list_lost_by_assignment :
    listOfTwo.Intact ∧ 0 ∈ listOfTwo.handles ∧ 1 ∈ listOfTwo.handles ∧
    (∃ h', listOfTwo.copyAssign 12 0 1 = some h' ∧ h'.fault = true ∧ h'.blocks = ∅ ∧
      h'.block 0 ≠ listOfTwo.block 1 ∧ ¬ Assigned listOfTwo 0 1 h') ∧
    (∃ h', listOfTwo.moveAssign 12 0 1 = some h' ∧ h'.fault = true ∧ h'.blocks = ∅ ∧
      h'.block 0 ≠ listOfTwo.block 1 ∧ ¬ Assigned listOfTwo 0 1 h') ∧
    (∃ h', listOfTwo.copyAssign 12 0 0 = some h' ∧ h'.blocks = ∅ ∧ h'.block 0 ≠ listOfTwo.block 0 ∧
      ¬ Assigned listOfTwo 0 0 h') := by
  refine ⟨listOfTwo_intact, by decide, by decide, ?_, ?_, ?_⟩
  · refine ⟨(listOfTwo.copyAssign 12 0 1).get (by decide), by simp, by decide, by decide, by decide, fun hassigned => ?_⟩
    exact absurd hassigned.block (by decide)
  · refine ⟨(listOfTwo.moveAssign 12 0 1).get (by decide), by simp, by decide, by decide, by decide, fun hassigned => ?_⟩
    exact absurd hassigned.block (by decide)
  · refine ⟨(listOfTwo.copyAssign 12 0 0).get (by decide), by simp, by decide, by decide, fun hassigned => ?_⟩
    exact absurd hassigned.block (by decide)

end CppConcur.LockFree.SharedPtr.Heap
