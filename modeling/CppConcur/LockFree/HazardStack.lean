import CppConcur.LockFree.HazardSafety

/-!
# The lock-free stack is linearizable

While no stack is destroyed, `CleanUp` is never called, so every run is one in which no protected node is
freed. A node that a `TryPop` has validated is then still the same node when its compare-exchange finds
the address on top, whatever has been freed and allocated since, and its link has not changed. So the
successful compare-exchanges are the pushes and pops of sequential stacks.
-/

namespace CppConcur.LockFree.Hazard

variable {Tid S α : Type*} [DecidableEq Tid] [DecidableEq S] {t : Tid} {m m' : Mem Tid S α} {pc pc' : Pc S α}
  {c : Logic.Conf Tid (Mem Tid S α) (Pc S α)}

/-! ### Runs in which no stack is destroyed -/

/-- The places of the destructor. -/
def Pc.Destroys : Pc S α → Prop
  | .destroyLoad _ | .destroyLoop _ _ | .destroyDelete _ _ _ | .cleanUpMutator | .cleanUp => True
  | _ => False

/-- A destroyed stack stays destroyed. -/
theorem Act.destroyer_none (hact : Act t m pc m' pc') {s : S} (hnone : m'.destroyer s = none) : m.destroyer s = none := by
  cases hact with
  | popMutator hmutator => cases hmutator <;> exact hnone
  | cleanUpMutator hmutator => cases hmutator <;> exact hnone
  | destroy s' hlive _ =>
    by_cases hs : s = s'
    · rw [hs, hlive]
    · simpa only [ne_eq, hs, not_false_eq_true, Function.update_of_ne] using hnone
  | _ => exact hnone

/-- A thread gets into the destructor only by destroying a stack. -/
theorem Act.destroys (hact : Act t m pc m' pc') (hpc : ¬ pc.Destroys) (hpc' : pc'.Destroys) :
    ∃ s, m'.destroyer s = some t := by
  cases hact with
  | destroy s _ _ => exact ⟨s, Function.update_self ..⟩
  | popRetire _ =>
    split at hpc'
    · exact hpc'.elim
    · exact hpc'.elim
  | scanSlot =>
    unfold scanNext at hpc'
    split at hpc'
    · exact hpc'.elim
    · split at hpc'
      · exact hpc'.elim
      · exact hpc'.elim
  | destroyLoad => exact absurd trivial hpc
  | destroyNode => exact absurd trivial hpc
  | destroyDelete => exact absurd trivial hpc
  | destroyDone => exact absurd trivial hpc
  | cleanUpMutator _ => exact absurd trivial hpc
  | cleanUpFree _ _ => exact absurd trivial hpc
  | _ => exact hpc'.elim

/-- While no stack is destroyed, no thread is in a destructor and every step is safe. -/
theorem safe_of_live (h : (system Tid S α).Reachable c) (hlive : ∀ s, c.mem.destroyer s = none) :
    (safeSystem Tid S α).Reachable c ∧ ∀ t, ¬ (c.pc t).Destroys := by
  induction h with
  | init hinit =>
    refine ⟨.init hinit, fun t => ?_⟩
    rw [hinit.pc]
    exact id
  | @step c c' _ hstep ih =>
    obtain ⟨t, m', pc', hact, rfl⟩ := hstep
    obtain ⟨hsafe, hpc⟩ := ih fun s => hact.destroyer_none (hlive s)
    have hpc' : ¬ pc'.Destroys := by
      intro hdestroys
      obtain ⟨s, hs⟩ := hact.destroys (hpc t) hdestroys
      rw [hlive s] at hs
      cases hs
    refine ⟨hsafe.step ⟨t, m', pc', ⟨hact, fun heq => ?_⟩, rfl⟩, fun u => ?_⟩
    · have hnot := hpc t
      rw [heq] at hnot
      exact absurd trivial hnot
    · by_cases hu : u = t
      · subst hu
        simpa only [Function.update_self] using hpc'
      · simpa only [ne_eq, hu, not_false_eq_true, Function.update_of_ne] using hpc u

/-! ### Linearizability -/

omit [DecidableEq Tid] in
/-- The top of a stack is the node that was pushed last and is still there. -/
theorem Recorded.head {x : Aux Tid S} (hrecorded : Recorded m x) (hgood : Good m x) {s : S} (hlive : m.destroyer s = none) :
    (Hazard.contents s m.history).head? = (m.top s).map fun a => (m.ident a, m.value a) := by
  have hchain := hgood.chain s hlive
  rw [hrecorded.contents s hlive]
  cases hlist : x.list s with
  | nil =>
    rw [hlist] at hchain
    rw [show m.top s = none from hchain]
    rfl
  | cons a rest =>
    rw [hlist] at hchain
    rw [hchain.1]
    rfl

/-- In every run of any number of threads in which no stack is destroyed: the successful compare-exchanges are a
history of sequential stacks, in which every pop takes the node pushed last that is still there, and the top of a stack
is this node; a `TryPop` returns the value of the node it has popped, and nothing only if it has seen the stack empty; no
node is pushed or popped twice; and the top is never a node that has been popped or freed. -/
theorem stack_linearizable (c : Logic.Conf Tid (Mem Tid S α) (Pc S α)) (h : (system Tid S α).Reachable c)
    (hlive : ∀ s, c.mem.destroyer s = none) :
    Legal c.mem.history ∧
      (∀ s, (contents s c.mem.history).head? = (c.mem.top s).map fun a => (c.mem.ident a, c.mem.value a)) ∧
      (∀ t v, c.pc t = .popGuard v → c.mem.claimed t = some v) ∧
      (∀ t sawEmpty, c.pc t = .popNull sawEmpty → sawEmpty = true) ∧
      (pushedNodes c.mem.history).Nodup ∧ (poppedNodes c.mem.history).Nodup ∧
      ∀ s a, c.mem.top s = some a →
        c.mem.alive a = true ∧ c.mem.ident a ∈ pushedNodes c.mem.history ∧ c.mem.ident a ∉ poppedNodes c.mem.history := by
  obtain ⟨x, ⟨hgood, hrecorded⟩, hown⟩ := good_of_safe (safe_of_live h hlive).1
  refine ⟨hrecorded.legal, fun s => hrecorded.head hgood (hlive s), fun t v hpc => ?_, fun t sawEmpty hpc => ?_,
    hrecorded.pushed_nodup, hrecorded.popped_nodup, fun s a htop => ?_⟩
  · have hassert := hown t
    rw [hpc] at hassert
    exact hassert
  · have hassert := hown t
    rw [hpc] at hassert
    exact hassert
  · obtain ⟨rest, hlist, _⟩ := hgood.top_linked (hlive s) htop
    have hlinked := hgood.own_head hlist
    refine ⟨?_, hrecorded.pushed_linked a s hlinked, hrecorded.popped_linked a s hlinked⟩
    cases halive : c.mem.alive a with
    | true => rfl
    | false =>
      rw [hgood.own_free halive] at hlinked
      cases hlinked

/-- Two pushes and a pop by another thread: the node pushed first is the top again. -/
theorem stack_linearizable_two_pushes : ∃ c : Logic.Conf Bool (Mem Bool Bool Unit) (Pc Bool Unit),
    (system Bool Bool Unit).Reachable c ∧ (∀ s, c.mem.destroyer s = none) ∧
      c.mem.history = [.push false 0 (), .push false 1 (), .pop false 1 ()] ∧ Legal c.mem.history ∧
      (poppedNodes c.mem.history).Nodup ∧ c.mem.top false = some 0 ∧ c.mem.alive 0 = true := by
  have hfirst := push_run (t := false) start_reachable rfl false 0 () rfl rfl
  have hsecond := push_run (t := false) hfirst rfl false 1 () rfl rfl
  have hprotect := protect_run (t := true) hsecond rfl false 1 rfl rfl (by decide) rfl
  have hpop := reachable_of_safe (pop_run (t := true) (i := 0) hprotect rfl rfl rfl (by decide))
  obtain ⟨hlegal, _, _, _, _, hnodup, htop⟩ := stack_linearizable _ hpop fun _ => rfl
  exact ⟨_, hpop, fun _ => rfl, rfl, hlegal, hnodup, rfl, (htop false 0 rfl).1⟩

end CppConcur.LockFree.Hazard
