import CppConcur.Futures.Detach
import CppConcur.Futures.Placement
import Mathlib.Data.Multiset.Filter

/-!
# The calls that the objects of a computation know

The calls that still access a computation stand in the tree of its objects: as a call under way, a
second input that is not started, a task, or a promise that is not set. A step of a call takes this
call from them and adds those it leads to.

A `ContractState` is followed through the tree in the same way: the tree says for each node in which
state the contract there is, or that no contract is there any more.
-/

namespace CppConcur.Futures.Detach

variable {Sched : Type} {α β : Type} {p q : Path} {f : Frame} {eff : Effect}

/-! ### The calls that the objects know -/

/-- The calls that still access the objects of a tree. -/
def pending : {α : Type} → Path → Run Sched α → Multiset Frame
  | _, _, .ready _ => 0
  | _, _, .submit _ _ => 0
  | _, p, .contract _ st => if st.isSet then 0 else {.produce p}
  | _, p, .begin r => {.start p} + pending p r
  | _, p, .later r => {.second p} + pending p r
  | _, p, .task _ _ => {.run p}
  | _, p, .resume _ _ => {.resume p}
  | _, p, .under r k => pending (k.branch :: p) r
  | _, p, .both l r => pending (.left :: p) l + pending (.right :: p) r
  | _, p, .bothA _ r => pending (.right :: p) r
  | _, p, .bothB l _ => pending (.left :: p) l
  | _, p, .first l r => pending (.left :: p) l + pending (.right :: p) r
  | _, p, .eager r => pending (.input :: p) r
  | _, _, .eagerDone _ _ => 0

/-- The node that a call belongs to. -/
def Frame.path : Frame → Path
  | start p => p
  | resume p => p
  | run p => p
  | produce p => p
  | second p => p
  | delete p _ => p
  | ret => []

/-- The calls that the objects below a node know belong to that node or to one below it. -/
theorem mem_pending {r : Run Sched α} (h : f ∈ pending p r) : f.uses = true ∧ p <:+ f.path := by
  induction r generalizing p with
  | ready | submit | eagerDone => exact absurd h (Multiset.notMem_zero f)
  | contract v st =>
    simp only [pending] at h
    split at h
    · exact absurd h (Multiset.notMem_zero f)
    · rw [Multiset.mem_singleton.mp h]
      exact ⟨rfl, List.suffix_rfl⟩
  | begin r ih | later r ih =>
    rcases Multiset.mem_add.mp h with h | h
    · rw [Multiset.mem_singleton.mp h]
      exact ⟨rfl, List.suffix_rfl⟩
    · exact ih h
  | task | resume =>
    rw [Multiset.mem_singleton.mp h]
    exact ⟨rfl, List.suffix_rfl⟩
  | under r k ih => exact (ih h).imp_right (List.suffix_cons _ _).trans
  | both l r ihl ihr | first l r ihl ihr =>
    rcases Multiset.mem_add.mp h with h | h
    · exact (ihl h).imp_right (List.suffix_cons _ _).trans
    · exact (ihr h).imp_right (List.suffix_cons _ _).trans
  | bothA a r ih => exact (ih h).imp_right (List.suffix_cons _ _).trans
  | bothB l b ih => exact (ih h).imp_right (List.suffix_cons _ _).trans
  | eager r ih => exact (ih h).imp_right (List.suffix_cons _ _).trans

/-- No call of a node belongs to one of its inputs. -/
theorem not_mem_pending {b : Branch} {r : Run Sched β} (hf : f.path = p) : f ∉ pending (b :: p) r := by
  intro h
  have hpath := (mem_pending h).2
  rw [hf] at hpath
  exact not_cons_suffix hpath

/-- Only objects that are about to resume the consumer of their node know of that call. -/
theorem eq_resume {r : Run Sched α} {started : Bool} (hok : r.Ok started)
    (h : .resume p ∈ pending p r) : started = true ∧ ∃ v s, r = .resume v s := by
  induction r generalizing started with
  | ready | submit | eagerDone => exact absurd h (Multiset.notMem_zero _)
  | contract v st =>
    simp only [pending] at h
    split at h
    · exact absurd h (Multiset.notMem_zero _)
    · exact nomatch Multiset.mem_singleton.mp h
  | begin r ih | later r ih =>
    rcases Multiset.mem_add.mp h with h | h
    · exact nomatch Multiset.mem_singleton.mp h
    · exact nomatch (ih hok.2 h).1
  | task => exact nomatch Multiset.mem_singleton.mp h
  | resume v s => exact ⟨hok, v, s, rfl⟩
  | under r k ih => exact absurd h (not_mem_pending rfl)
  | both l r | first l r =>
    rcases Multiset.mem_add.mp h with h | h
    · exact absurd h (not_mem_pending rfl)
    · exact absurd h (not_mem_pending rfl)
  | bothA | bothB | eager => exact absurd h (not_mem_pending rfl)

/-! ### Expressions without `Start` and `First` -/

/-- The inner futures of a continuation are without `Start` and `First`. -/
def ContPlain : {α β : Type} → Cont Sched β α → Prop
  | _, _, .flatten future => ∀ v, (future v).Plain
  | _, _, .start => False
  | _, _, _ => True

/-- The objects are those of an expression without `Start` and `First`. -/
def RunPlain : {α : Type} → Run Sched α → Prop
  | _, .begin r => RunPlain r
  | _, .later r => RunPlain r
  | _, .under r k => RunPlain r ∧ ContPlain k
  | _, .both l r => RunPlain l ∧ RunPlain r
  | _, .bothA _ r => RunPlain r
  | _, .bothB l _ => RunPlain l
  | _, .first _ _ => False
  | _, .eager _ => False
  | _, .eagerDone _ _ => False
  | _, _ => True

theorem plain_init {e : Future Sched α} (he : e.Plain) : RunPlain e.init := by
  induction e with
  | ready | submit | contract => exact trivial
  | map e f ih | mapOk e f ih | via e s ih | box e ih => exact ⟨ih he, trivial⟩
  | flatten e future ih => exact ⟨ih he.1, he.2⟩
  | both e₁ e₂ ih₁ ih₂ => exact ⟨ih₁ he.1, ih₂ he.2⟩
  | first | start => exact he.elim

theorem plain_met {v : α} {m : Rendezvous × Bool} : RunPlain (.met v m : Run Sched α) := by
  unfold Run.met
  split <;> exact trivial

theorem plain_resume {k : Cont Sched β α} {v : β} {s : State Sched} (hk : ContPlain k) :
    RunPlain (k.resume p v s).1 := by
  cases k with
  | map | mapOk =>
    cases s with
    | none | some => exact trivial
  | flatten future => exact ⟨plain_init (hk v), trivial⟩
  | inner | via | box => exact trivial
  | start => exact hk.elim

theorem Exec.plain {r r' : Run Sched α} (h : Exec p r f eff r') (hr : RunPlain r) : RunPlain r' := by
  induction h with
  | ready | submit | run | pairLeft | pairRight => exact trivial
  | consume | produce => exact plain_met
  | input | both | second => exact hr
  | resume => exact plain_resume hr.2
  | bothLeft => exact hr.2
  | bothRight => exact hr.1
  | begin _ ih | later _ ih | inLast _ ih | inLast' _ ih => exact ih hr
  | under _ ih | inLeft _ ih => exact ⟨ih hr.1, hr.2⟩
  | inRight _ ih => exact ⟨hr.1, ih hr.2⟩

/-- The promises of an expression are all that is pending before it is started. -/
theorem pending_init {e : Future Sched α} (he : e.Plain) (p : Path) :
    pending p e.init = ((e.contracts p).map Frame.produce : List Frame) := by
  induction e generalizing p with
  | ready | submit | contract => rfl
  | map e f ih | mapOk e f ih | via e s ih | box e ih => exact ih he _
  | flatten e future ih => exact ih he.1 _
  | both e₁ e₂ ih₁ ih₂ =>
    simp only [Future.init, pending, Future.contracts, List.map_append, ← Multiset.coe_add, ih₁ he.1,
      ih₂ he.2]
  | first | start => exact he.elim

/-! ### A step keeps track of the calls -/

/-- All calls that a step leads to: on the stack, by the tasks and by the promises. -/
def Effect.calls (eff : Effect) : Multiset Frame :=
  (eff.frames : Multiset Frame) + (eff.tasks.map Frame.run : List Frame) +
    (eff.promises.map Frame.produce : List Frame)

/-- Those of them that access the computation. -/
def Effect.pending (eff : Effect) : Multiset Frame :=
  eff.calls.filter fun f => f.uses = true

theorem pending_resumes : ({ frames := [.resume p, .ret] } : Effect).pending = {.resume p} := rfl

theorem pending_start : ({ frames := [.start p, .ret] } : Effect).pending = {.start p} := rfl

theorem pending_starts {p' : Path} :
    ({ frames := [.start p, .second p'] } : Effect).pending = {.start p} + {.second p'} := rfl

theorem pending_task : ({ tasks := [p] } : Effect).pending = {.run p} := rfl

theorem pending_none : ({} : Effect).pending = 0 := rfl

theorem pending_dispatch {t : Task α} {s : State Sched} :
    pending p (t.dispatch p s).1 = (Effect.dispatch p s).pending := by
  cases s with
  | none | some => rfl

theorem pending_resume {k : Cont Sched β α} {v : β} {s : State Sched} (hk : ContPlain k) :
    pending p (k.resume p v s).1 = (resumeEffect p k v s).pending := by
  cases k with
  | map | mapOk => exact pending_dispatch
  | flatten future =>
    simp [Cont.resume, resumeEffect, pending, Cont.branch, pending_init (hk v), Effect.pending,
      Effect.calls, Frame.uses, List.filter_map, Function.comp_def]
  | inner | via | box => rfl
  | start => exact hk.elim

theorem pending_consume {v : α} {st : Rendezvous} :
    pending p (.met v st.consume : Run Sched α) =
      pending p (.contract v st : Run Sched α) + (Effect.meet p .consume st.consume.2).pending := by
  cases st <;> simp [Run.met, Rendezvous.consume, Effect.meet, pending, Effect.pending, Effect.calls,
    Frame.uses, Rendezvous.isSet]

theorem pending_produce {v : α} {st : Rendezvous} (hst : st.isSet = false) :
    pending p (.met v st.produce : Run Sched α) = (Effect.meet p .produce st.produce.2).pending := by
  cases st with
  | empty | consumed =>
    simp [Run.met, Rendezvous.produce, Effect.meet, pending, Effect.pending, Effect.calls, Frame.uses,
      Rendezvous.isSet]
  | produced | rendezvous => cases hst

/-- A step of a call takes that call from those the objects know, and adds those it leads to. -/
theorem Exec.calls {r r' : Run Sched α} (h : Exec p r f eff r') (hr : RunPlain r) :
    pending p r' + {f} = pending p r + eff.pending := by
  induction h with
  | ready | pairLeft | pairRight | run =>
    simp only [pending, pending_resumes]
    abel
  | second | input =>
    simp only [pending, pending_start]
    abel
  | both =>
    simp only [pending, pending_starts]
    abel
  | submit => simp [pending, pending_task, add_comm]
  | consume =>
    simp only [pending_consume, pending]
    abel
  | produce hst =>
    rw [pending_produce hst]
    simp [pending, hst, add_comm]
  | resume => rw [pending_resume hr.2, pending, pending, add_comm]
  | bothLeft | bothRight => simp [pending, pending_none, add_comm]
  | begin _ ih | later _ ih =>
    rw [pending, pending, add_assoc, ih hr, add_assoc]
  | under _ ih => exact ih hr.1
  | inLeft _ ih =>
    rw [pending, pending, add_right_comm, ih hr.1, add_right_comm]
  | inRight _ ih => rw [pending, pending, add_assoc, ih hr.2, add_assoc]
  | inLast _ ih | inLast' _ ih => exact ih hr

theorem Exec.uses {r r' : Run Sched α} (h : Exec p r f eff r') (hr : RunPlain r) : f.uses = true := by
  have hmem : f ∈ Detach.pending p r' + {f} :=
    Multiset.mem_add.mpr (.inr (Multiset.mem_singleton_self f))
  rw [h.calls hr] at hmem
  rcases Multiset.mem_add.mp hmem with hmem | hmem
  · exact (mem_pending hmem).1
  · exact (Multiset.mem_filter.mp hmem).2

/-- Every call that the objects know can go on, and it is the demand that the last one resumes. -/
theorem exec_of_mem_pending {r : Run Sched α} {started : Bool} (hok : r.Ok started) (hr : RunPlain r)
    (h : f ∈ pending p r) : f = .resume p ∨ ∃ eff r', Exec p r f eff r' := by
  induction r generalizing p started with
  | ready | submit => exact absurd h (Multiset.notMem_zero f)
  | first | eager | eagerDone => exact hr.elim
  | contract v st =>
    simp only [pending] at h
    split at h
    · exact absurd h (Multiset.notMem_zero f)
    · rename_i hst
      rw [Multiset.mem_singleton.mp h]
      exact .inr ⟨_, _, .produce (by simpa using hst)⟩
  | begin r ih =>
    rcases Multiset.mem_add.mp h with h | h
    · rw [Multiset.mem_singleton.mp h]
      refine .inr ?_
      cases r with
      | ready => exact ⟨_, _, .ready⟩
      | submit => exact ⟨_, _, .submit⟩
      | contract => exact ⟨_, _, .consume⟩
      | under => exact ⟨_, _, .input⟩
      | both => exact ⟨_, _, .both⟩
      | first | eager | eagerDone => exact hr.elim
      | begin | later | task | resume | bothA | bothB => exact nomatch hok.2
    · refine .inr ?_
      obtain rfl | ⟨eff, r', hexec⟩ := ih hok.2 hr h
      · exact nomatch (eq_resume hok.2 h).1
      · exact ⟨eff, _, .begin hexec⟩
  | later r ih =>
    refine .inr ?_
    rcases Multiset.mem_add.mp h with h | h
    · rw [Multiset.mem_singleton.mp h]
      exact ⟨_, _, .second⟩
    · obtain rfl | ⟨eff, r', hexec⟩ := ih hok.2 hr h
      · exact nomatch (eq_resume hok.2 h).1
      · exact ⟨eff, _, .later hexec⟩
  | task =>
    rw [Multiset.mem_singleton.mp h]
    exact .inr ⟨_, _, .run⟩
  | resume => exact .inl (Multiset.mem_singleton.mp h)
  | under r k ih =>
    refine .inr ?_
    obtain rfl | ⟨eff, r', hexec⟩ := ih hok hr.1 h
    · obtain ⟨_, v, s, rfl⟩ := eq_resume (r := r) hok h
      exact ⟨_, _, .resume⟩
    · exact ⟨eff, _, .under hexec⟩
  | both l r ihl ihr =>
    refine .inr ?_
    rcases Multiset.mem_add.mp h with h | h
    · obtain rfl | ⟨eff, r', hexec⟩ := ihl hok.1 hr.1 h
      · obtain ⟨_, v, s, rfl⟩ := eq_resume hok.1 h
        exact ⟨_, _, .bothLeft⟩
      · exact ⟨eff, _, .inLeft hexec⟩
    · obtain rfl | ⟨eff, r', hexec⟩ := ihr hok.2 hr.2 h
      · obtain ⟨_, v, s, rfl⟩ := eq_resume hok.2 h
        exact ⟨_, _, .bothRight⟩
      · exact ⟨eff, _, .inRight hexec⟩
  | bothA a r ih =>
    refine .inr ?_
    obtain rfl | ⟨eff, r', hexec⟩ := ih hok.2 hr h
    · obtain ⟨_, v, s, rfl⟩ := eq_resume hok.2 h
      exact ⟨_, _, .pairRight⟩
    · exact ⟨eff, _, .inLast hexec⟩
  | bothB l b ih =>
    refine .inr ?_
    obtain rfl | ⟨eff, r', hexec⟩ := ih hok.2 hr h
    · obtain ⟨_, v, s, rfl⟩ := eq_resume hok.2 h
      exact ⟨_, _, .pairLeft⟩
    · exact ⟨eff, _, .inLast' hexec⟩

/-! ### The contracts -/

/-- The contracts of the inner future of a `Flatten` may be anywhere below its node. -/
def reserved (p : Path) : {α β : Type} → Cont Sched β α → Path → Option Rendezvous
  | _, _, .flatten _, q => if (.inner :: p) <:+ q then some .empty else none
  | _, _, _, _ => none

/-- The state of the contract at a node, if there is one or if one may still come. -/
def slot : {α : Type} → Path → Run Sched α → Path → Option Rendezvous
  | _, p, .contract _ st, q => if q = p then some st else none
  | _, p, .begin r, q => slot p r q
  | _, p, .later r, q => slot p r q
  | _, p, .under r k, q => (slot (k.branch :: p) r q).or (reserved p k q)
  | _, p, .both l r, q => (slot (.left :: p) l q).or (slot (.right :: p) r q)
  | _, p, .bothA _ r, q => slot (.right :: p) r q
  | _, p, .bothB l _, q => slot (.left :: p) l q
  | _, p, .first l r, q => (slot (.left :: p) l q).or (slot (.right :: p) r q)
  | _, p, .eager r, q => slot (.input :: p) r q
  | _, _, _, _ => none

theorem reserved_suffix {k : Cont Sched β α} {st : Rendezvous} (h : reserved p k q = some st) :
    (.inner :: p) <:+ q ∧ st = .empty ∧ k.branch = .input := by
  cases k with
  | flatten =>
    simp only [reserved] at h
    split at h
    · exact ⟨‹_›, (Option.some.inj h).symm, rfl⟩
    · exact nomatch h
  | map | mapOk | inner | via | box | start => exact nomatch h

theorem slot_suffix {r : Run Sched α} {st : Rendezvous} (h : slot p r q = some st) : p <:+ q := by
  induction r generalizing p with
  | ready | submit | task | resume | eagerDone => exact nomatch h
  | contract v st' =>
    simp only [slot] at h
    split at h
    · rename_i hq
      rw [hq]
    · exact nomatch h
  | begin r ih | later r ih => exact ih h
  | under r k ih =>
    rcases Option.or_eq_some_iff.mp h with h | ⟨_, h⟩
    · exact (List.suffix_cons _ _).trans (ih h)
    · exact (List.suffix_cons _ _).trans (reserved_suffix h).1
  | both l r ihl ihr | first l r ihl ihr =>
    rcases Option.or_eq_some_iff.mp h with h | ⟨_, h⟩
    · exact (List.suffix_cons _ _).trans (ihl h)
    · exact (List.suffix_cons _ _).trans (ihr h)
  | bothA a r ih => exact (List.suffix_cons _ _).trans (ih h)
  | bothB l b ih => exact (List.suffix_cons _ _).trans (ih h)
  | eager r ih => exact (List.suffix_cons _ _).trans (ih h)

/-- The contracts of different inputs are at different nodes. -/
theorem slot_eq_none {b b' : Branch} {l : Run Sched α} {r : Run Sched β} (hne : b ≠ b')
    (h : (slot (b :: p) l q).isSome = true) : slot (b' :: p) r q = none := by
  obtain ⟨st, hst⟩ := Option.isSome_iff_exists.mp h
  by_contra hsome
  obtain ⟨st', hst'⟩ := Option.ne_none_iff_exists'.mp hsome
  exact hne (Future.branch_eq_of_suffix (slot_suffix hst) (slot_suffix hst'))

/-- No contract of the input of a `Flatten` is where its inner future may have one. -/
theorem reserved_eq_none {k : Cont Sched β α} {r : Run Sched β}
    (h : (slot (k.branch :: p) r q).isSome = true) : reserved p k q = none := by
  obtain ⟨st, hst⟩ := Option.isSome_iff_exists.mp h
  by_contra hsome
  obtain ⟨st', hst'⟩ := Option.ne_none_iff_exists'.mp hsome
  obtain ⟨hsuffix, _, hbranch⟩ := reserved_suffix hst'
  rw [hbranch] at hst
  exact nomatch Future.branch_eq_of_suffix (slot_suffix hst) hsuffix

/-- Nobody has come to a contract of a future that is not materialized. -/
theorem slot_init {e : Future Sched α} {st : Rendezvous} (h : slot p e.init q = some st) :
    st = .empty := by
  induction e generalizing p with
  | ready | submit => exact nomatch h
  | contract v =>
    simp only [Future.init, slot] at h
    split at h
    · exact (Option.some.inj h).symm
    · exact nomatch h
  | map e f ih | mapOk e f ih | flatten e future ih | via e s ih | box e ih =>
    rcases Option.or_eq_some_iff.mp h with h | ⟨_, h⟩
    · exact ih h
    · exact (reserved_suffix h).2.1
  | both e₁ e₂ ih₁ ih₂ | first e₁ e₂ ih₁ ih₂ =>
    rcases Option.or_eq_some_iff.mp h with h | ⟨_, h⟩
    · exact ih₁ h
    · exact ih₂ h
  | start e ih => exact ih h

/-- How a step changes the state of the contract at a node, with who arrives there in it and whom it
leaves to delete the `ContractState`. -/
inductive SlotStep : Option Rendezvous → Option Rendezvous → List Party → Multiset Party → Prop
  | keep (st : Option Rendezvous) : SlotStep st st [] 0
  /-- the inner future has no contract at the node -/
  | vacate : SlotStep (some .empty) none [] 0
  | produceFirst : SlotStep (some .empty) (some .produced) [.produce] 0
  | consumeFirst : SlotStep (some .empty) (some .consumed) [.consume] 0
  | produceSecond : SlotStep (some .consumed) none [.produce] {.produce}
  | consumeSecond : SlotStep (some .produced) none [.consume] {.consume}

theorem SlotStep.or_left {a a' b : Option Rendezvous} {arrivals : List Party}
    {disposals : Multiset Party} (h : SlotStep a a' arrivals disposals)
    (hb : a.isSome = true → b = none) : SlotStep (a.or b) (a'.or b) arrivals disposals := by
  cases h with
  | keep => exact .keep _
  | vacate | produceFirst | consumeFirst | produceSecond | consumeSecond =>
    rw [hb rfl]
    constructor

theorem SlotStep.or_right {a a' b : Option Rendezvous} {arrivals : List Party}
    {disposals : Multiset Party} (h : SlotStep a a' arrivals disposals)
    (hb : a.isSome = true → b = none) : SlotStep (b.or a) (b.or a') arrivals disposals := by
  cases h with
  | keep => exact .keep _
  | vacate | produceFirst | consumeFirst | produceSecond | consumeSecond =>
    rw [hb rfl]
    constructor

/-- The party, if it is one of the `ContractState` at a node. -/
def partyAt (q : Path) (x : Path × Party) : Option Party :=
  if x.1 = q then some x.2 else none

/-- Who is about to delete the `ContractState` at a node. -/
def Frame.disposes (q : Path) (f : Frame) : Option Party :=
  f.disposal.bind (partyAt q)

@[simp] theorem disposes_delete {party : Party} :
    (Frame.delete p party).disposes q = if p = q then some party else none := rfl

theorem disposes_of_uses (hf : f.uses = true) : f.disposes q = none := by
  cases f with
  | start | resume | run | produce | second => rfl
  | delete | ret => exact nomatch hf

@[simp] theorem disposes_resume : (Frame.resume p).disposes q = none := rfl

def Effect.arrivalsAt (eff : Effect) (q : Path) : List Party :=
  eff.arrival.toList.filterMap (partyAt q)

def Effect.disposalsAt (eff : Effect) (q : Path) : Multiset Party :=
  eff.calls.filterMap (Frame.disposes q)

theorem resume_slot {k : Cont Sched β α} {v : β} {s : State Sched} :
    SlotStep (reserved p k q) (slot p (k.resume p v s).1 q) ((resumeEffect p k v s).arrivalsAt q)
      ((resumeEffect p k v s).disposalsAt q) := by
  cases k with
  | map | mapOk =>
    cases s with
    | none | some => exact .keep none
  | flatten future =>
    have hdisposals : ((resumeEffect p (.flatten future) v s).disposalsAt q) = 0 := by
      simp [resumeEffect, Effect.disposalsAt, Effect.calls, Frame.disposes, Frame.disposal]
    rw [hdisposals]
    show SlotStep (reserved p (.flatten future) q)
      ((slot (.inner :: p) (future v).init q).or none) [] 0
    rw [Option.or_none]
    cases hslot : slot (.inner :: p) (future v).init q with
    | some st =>
      rw [slot_init hslot, reserved, if_pos (slot_suffix hslot)]
      exact .keep _
    | none =>
      rw [reserved]
      split
      · exact .vacate
      · exact .keep none
  | inner | via | box | start => exact .keep none

theorem meet_arrivalsAt {party : Party} {met : Bool} :
    (Effect.meet p party met).arrivalsAt q = if p = q then [party] else [] := by
  show List.filterMap (partyAt q) [(p, party)] = _
  by_cases hq : p = q <;> simp [partyAt, hq]

theorem meet_disposalsAt {party : Party} {met : Bool} :
    (Effect.meet p party met).disposalsAt q = if p = q ∧ met = true then {party} else 0 := by
  cases met with
  | false => simp [Effect.meet, Effect.disposalsAt, Effect.calls]
  | true =>
    by_cases hq : p = q <;>
      simp [Effect.meet, Effect.disposalsAt, Effect.calls, List.filterMap_cons, hq]

/-- An arrival at a contract changes the state of this contract only. -/
theorem meet_slot {v : α} {st : Rendezvous} {party : Party} {m : Rendezvous × Bool}
    (h : SlotStep (some st) (if m.2 then none else some m.1) [party] (if m.2 then {party} else 0)) :
    SlotStep (slot p (.contract v st : Run Sched α) q) (slot p (.met v m : Run Sched α) q)
      ((Effect.meet p party m.2).arrivalsAt q) ((Effect.meet p party m.2).disposalsAt q) := by
  obtain ⟨st', met⟩ := m
  rw [meet_arrivalsAt, meet_disposalsAt]
  by_cases hq : q = p
  · obtain rfl := hq
    cases met with
    | false | true => simpa [Run.met, slot] using h
  · have hslot : slot p (.met v (st', met) : Run Sched α) q = none := by
      cases met with
      | false | true => simp [Run.met, slot, hq]
    rw [hslot, slot, if_neg hq, if_neg (Ne.symm hq), if_neg fun h => hq h.1.symm]
    exact .keep none

theorem consume_slot {v : α} {st : Rendezvous} (hok : (Run.contract v st : Run Sched α).Ok false) :
    SlotStep (slot p (.contract v st : Run Sched α) q) (slot p (.met v st.consume : Run Sched α) q)
      ((Effect.meet p .consume st.consume.2).arrivalsAt q)
      ((Effect.meet p .consume st.consume.2).disposalsAt q) := by
  apply meet_slot
  cases st with
  | empty => exact .consumeFirst
  | produced => exact .consumeSecond
  | consumed => exact nomatch hok
  | rendezvous => exact hok.elim

theorem produce_slot {v : α} {st : Rendezvous} (hst : st.isSet = false) :
    SlotStep (slot p (.contract v st : Run Sched α) q) (slot p (.met v st.produce : Run Sched α) q)
      ((Effect.meet p .produce st.produce.2).arrivalsAt q)
      ((Effect.meet p .produce st.produce.2).disposalsAt q) := by
  apply meet_slot
  cases st with
  | empty => exact .produceFirst
  | consumed => exact .produceSecond
  | produced | rendezvous => exact nomatch hst

/-- A step of a call changes the contracts as its arrivals and its calls say. -/
theorem Exec.slot {r r' : Run Sched α} (h : Exec p r f eff r') {started : Bool} (hok : r.Ok started)
    (q : Path) :
    SlotStep (slot p r q) (Detach.slot p r' q) (eff.arrivalsAt q) (eff.disposalsAt q) := by
  induction h generalizing started with
  | ready | submit | run | pairLeft | pairRight => exact .keep none
  | consume => exact consume_slot hok.2
  | produce hst => exact produce_slot hst
  | input | both | second | bothLeft => exact .keep _
  | bothRight =>
    show SlotStep ((Detach.slot _ _ q).or none) _ _ _
    rw [Option.or_none]
    exact .keep _
  | resume => exact resume_slot
  | begin _ ih | later _ ih | inLast _ ih | inLast' _ ih => exact ih hok.2
  | under _ ih => exact (ih hok).or_left reserved_eq_none
  | inLeft _ ih => exact (ih hok.1).or_left (slot_eq_none nofun)
  | inRight _ ih => exact (ih hok.2).or_right (slot_eq_none nofun)

end CppConcur.Futures.Detach
