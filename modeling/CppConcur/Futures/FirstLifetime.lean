import CppConcur.Logic.Transition

/-!
# The lifetime of a `First` computation

`FirstComputation` is allocated by `Materialize` and deletes itself: each of its two producers
increments `finished_` when it completes, the first one resumes the consumer, which is stored in the
object, and the second one deletes the object. The completions are those of two threads, or of one
thread when the consumer that the first producer resumes completes the second one; either way a run
is an interleaving of their steps.
-/

namespace CppConcur.Futures.FirstLifetime

open Logic

/-- The object: its counter, and how often it has been deleted. -/
structure Mem where
  finished : Nat
  destroyed : Nat

/-- Where the completion of a producer is in `FirstContinuation::Resume`. -/
inductive Pc
  /-- the producer has not completed -/
  | running
  /-- `fetch_add` returned 0 and `consumer_.Resume` is the next call -/
  | won
  /-- inside `consumer_.Resume` -/
  | resuming
  /-- `consumer_.Resume` has returned -/
  | returned
  /-- `fetch_add` returned 1 and `destroy_comp_` is the next call -/
  | lost
  /-- the object is deleted -/
  | deleted
  deriving DecidableEq

/-- One step of `FirstContinuation::Resume`. -/
inductive Act (m : Mem) : Pc → Mem → Pc → Prop
  | win (h : m.finished = 0) : Act m .running { m with finished := m.finished + 1 } .won
  | lose (h : m.finished ≠ 0) : Act m .running { m with finished := m.finished + 1 } .lost
  | call : Act m .won m .resuming
  | ret : Act m .resuming m .returned
  | delete : Act m .lost { m with destroyed := m.destroyed + 1 } .deleted

/-- The two producers: `true` for the first one. -/
def program : Program Bool Mem Pc := fun _ m l m' l' => Act m l m' l'

def system : System (Conf Bool Mem Pc) :=
  program.system fun c => c = ⟨⟨0, 0⟩, fun _ => .running⟩

/-- The producer has incremented `finished_` first and its call of `consumer_.Resume` has not
returned. -/
def Pc.UsesConsumer : Pc → Prop
  | .won => True
  | .resuming => True
  | _ => False

/-- The runs in which a producer completes second only after the first one's call of
`consumer_.Resume` has returned. -/
def orderedSystem : System (Conf Bool Mem Pc) :=
  system.restrict fun c c' => c.mem.finished = 1 → c'.mem.finished = 2 → ∀ t, ¬ (c.pc t).UsesConsumer

/-- How far the two completions are: `safe` says that the one that came second did so after the
other's call of the consumer returned. -/
inductive Phase (safe : Prop) : Conf Bool Mem Pc → Prop
  | none : Phase safe ⟨⟨0, 0⟩, fun _ => .running⟩
  | one {c : Conf Bool Mem Pc} (t : Bool) (hwon : (c.pc t).UsesConsumer ∨ c.pc t = .returned)
      (hother : c.pc (!t) = .running) (hmem : c.mem = ⟨1, 0⟩) : Phase safe c
  | two {c : Conf Bool Mem Pc} (t : Bool) (hwon : (c.pc t).UsesConsumer ∨ c.pc t = .returned)
      (hsafe : safe → c.pc t = .returned) (hother : c.pc (!t) = .lost) (hmem : c.mem = ⟨2, 0⟩) :
      Phase safe c
  | gone {c : Conf Bool Mem Pc} (t : Bool) (hwon : (c.pc t).UsesConsumer ∨ c.pc t = .returned)
      (hsafe : safe → c.pc t = .returned) (hother : c.pc (!t) = .deleted) (hmem : c.mem = ⟨2, 1⟩) :
      Phase safe c

section Phases

variable {safe : Prop} {m m' : Mem} {l l' : Pc}

theorem same_or_other (u t : Bool) : u = t ∨ u = !t := by
  cases u <;> cases t <;> simp

/-- The producer that came first only goes through its call of the consumer. -/
theorem Act.winner (h : Act m l m' l') (hwon : l.UsesConsumer ∨ l = .returned) :
    m' = m ∧ l.UsesConsumer ∧ (l'.UsesConsumer ∨ l' = .returned) := by
  cases h with
  | call => exact ⟨rfl, trivial, .inl trivial⟩
  | ret => exact ⟨rfl, trivial, .inr rfl⟩
  | win | lose | delete => exact nomatch hwon

/-- While a producer is in its call of the consumer, that call has not returned. -/
theorem Pc.UsesConsumer.ne_returned (h : l.UsesConsumer) : l ≠ .returned := by
  intro heq
  rw [heq] at h
  exact h

/-- Every step of a producer leads on, if the second one completes as `safe` asks. -/
theorem Phase.step {c : Conf Bool Mem Pc} (h : Phase safe c) {u : Bool} (hact : Act c.mem (c.pc u) m' l')
    (hordered : safe → c.mem.finished = 1 → m'.finished = 2 → ∀ t, ¬ (c.pc t).UsesConsumer) :
    Phase safe ⟨m', Function.update c.pc u l'⟩ := by
  cases h with
  | none =>
    cases hact with
    | win =>
      refine .one u (.inl ?_) ?_ rfl
      · simp only [Function.update_self]
        trivial
      · simp
    | lose hne => exact absurd rfl hne
  | one t hwon hother hmem =>
    rcases same_or_other u t with rfl | rfl
    · obtain ⟨rfl, _, hwon'⟩ := hact.winner hwon
      exact .one u (by simpa using hwon') (by simpa using hother) hmem
    · rw [hother, hmem] at hact
      cases hact with
      | win h => exact nomatch h
      | lose =>
        refine .two t (by simpa using hwon) ?_ (by simp) rfl
        intro hsafe
        have hnot := hordered hsafe (by rw [hmem]) rfl t
        simpa using hwon.resolve_left hnot
  | two t hwon hsafe hother hmem =>
    rcases same_or_other u t with rfl | rfl
    · obtain ⟨rfl, huses, hwon'⟩ := hact.winner hwon
      exact .two u (by simpa using hwon') (fun h => absurd (hsafe h) huses.ne_returned)
        (by simpa using hother) hmem
    · rw [hother, hmem] at hact
      cases hact with
      | delete => exact .gone t (by simpa using hwon) (by simpa using hsafe) (by simp) rfl
  | gone t hwon hsafe hother hmem =>
    rcases same_or_other u t with rfl | rfl
    · obtain ⟨rfl, huses, hwon'⟩ := hact.winner hwon
      exact .gone u (by simpa using hwon') (fun h => absurd (hsafe h) huses.ne_returned)
        (by simpa using hother) hmem
    · rw [hother, hmem] at hact
      exact nomatch hact

theorem phase_of_reachable {c : Conf Bool Mem Pc} (h : system.Reachable c) : Phase False c := by
  induction h with
  | init hinit =>
    obtain rfl : _ = _ := hinit
    exact .none
  | step _ hstep ih =>
    obtain ⟨u, m', l', hact, rfl⟩ := hstep
    exact ih.step hact fun h => h.elim

theorem phase_of_ordered {c : Conf Bool Mem Pc} (h : orderedSystem.Reachable c) : Phase True c := by
  induction h with
  | init hinit =>
    obtain rfl : _ = _ := hinit
    exact .none
  | step _ hstep ih =>
    obtain ⟨⟨u, m', l', hact, rfl⟩, hordered⟩ := hstep
    exact ih.step hact fun _ => hordered

/-- Whatever the interleaving, the object is destroyed at most once, and only after both producers
have completed. -/
theorem Phase.destroyed {c : Conf Bool Mem Pc} (h : Phase safe c) :
    c.mem.destroyed ≤ 1 ∧ (0 < c.mem.destroyed →
      ∀ t, c.pc t ≠ .running ∧ (safe → ¬ (c.pc t).UsesConsumer)) := by
  cases h with
  | none => exact ⟨Nat.zero_le 1, nofun⟩
  | one t hwon hother hmem =>
    rw [hmem]
    exact ⟨Nat.zero_le 1, nofun⟩
  | two t hwon hsafe hother hmem =>
    rw [hmem]
    exact ⟨Nat.zero_le 1, nofun⟩
  | gone t hwon hsafe hother hmem =>
    rw [hmem]
    refine ⟨Nat.le_refl 1, ?_⟩
    intro _ u
    rcases same_or_other u t with rfl | rfl
    · refine ⟨?_, fun h => by rw [hsafe h]; exact id⟩
      intro hrunning
      rw [hrunning] at hwon
      exact nomatch hwon
    · rw [hother]
      exact ⟨nofun, fun _ => id⟩

end Phases

/-- In every run the object is destroyed at most once and only after both producers have completed. If
the second producer completes after the call of the consumer that the first one makes, the object is
not destroyed while that call, which uses the consumer stored in it, is under way. -/
theorem first_destroyed_after_use {c : Conf Bool Mem Pc} (h : system.Reachable c) :
    c.mem.destroyed ≤ 1 ∧ (0 < c.mem.destroyed → ∀ t, c.pc t ≠ .running) ∧
      (orderedSystem.Reachable c → 0 < c.mem.destroyed → ∀ t, ¬ (c.pc t).UsesConsumer) := by
  obtain ⟨honce, hafter⟩ := (phase_of_reachable h).destroyed
  refine ⟨honce, fun hpos t => (hafter hpos t).1, ?_⟩
  intro hordered hpos t
  exact ((phase_of_ordered hordered).destroyed.2 hpos t).2 trivial

/-- The left producer completes first, and its call of the consumer has returned. -/
def leftReturned : Conf Bool Mem Pc :=
  ⟨⟨1, 0⟩, Function.update (fun _ => .running) true .returned⟩

theorem leftReturned_reachable : orderedSystem.Reachable leftReturned := by
  have hwin : orderedSystem.Reachable ⟨⟨1, 0⟩, Function.update (fun _ => .running) true .won⟩ :=
    .step (.init rfl) ⟨⟨true, _, _, .win rfl, rfl⟩, fun h => nomatch h⟩
  have hcall : orderedSystem.Reachable ⟨⟨1, 0⟩, Function.update (fun _ => .running) true .resuming⟩ :=
    .step hwin ⟨⟨true, _, _, .call, by simp⟩, fun _ h => nomatch h⟩
  exact .step hcall ⟨⟨true, _, _, .ret, by simp [leftReturned]⟩, fun _ h => nomatch h⟩

/-- The producers complete one after the other. -/
theorem first_destroyed_after_use_sequential :
    ∃ c, orderedSystem.Reachable c ∧ c.mem.destroyed = 1 ∧ ∀ t, ¬ (c.pc t).UsesConsumer := by
  have hlose : orderedSystem.Reachable ⟨⟨2, 0⟩, Function.update leftReturned.pc false .lost⟩ := by
    refine .step leftReturned_reachable ⟨⟨false, _, _, .lose nofun, rfl⟩, ?_⟩
    intro _ _ t
    cases t <;> exact id
  have hdelete : orderedSystem.Reachable
      ⟨⟨2, 1⟩, Function.update (Function.update leftReturned.pc false .lost) false .deleted⟩ :=
    .step hlose ⟨⟨false, _, _, .delete, rfl⟩, fun h => nomatch h⟩
  exact ⟨_, hdelete, rfl, (first_destroyed_after_use hdelete.of_restrict).2.2 hdelete Nat.one_pos⟩

/-- The second producer completes on another thread, or from inside the consumer, while the first one
is in its call of the consumer: it deletes the object the consumer is stored in. -/
theorem first_destroyed_in_use :
    ∃ c, system.Reachable c ∧ c.mem.destroyed = 1 ∧ c.pc true = .resuming := by
  have hwin : system.Reachable ⟨⟨1, 0⟩, Function.update (fun _ => .running) true .won⟩ :=
    .step (.init rfl) ⟨true, _, _, .win rfl, rfl⟩
  have hcall : system.Reachable _ := .step hwin ⟨true, _, _, .call, rfl⟩
  have hlose : system.Reachable _ := .step hcall ⟨false, _, _, .lose nofun, rfl⟩
  have hdelete : system.Reachable _ := .step hlose ⟨false, _, _, .delete, rfl⟩
  exact ⟨_, hdelete, rfl, rfl⟩

end CppConcur.Futures.FirstLifetime
