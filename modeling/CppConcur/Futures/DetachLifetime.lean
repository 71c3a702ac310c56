import CppConcur.Futures.DetachSteps

/-!
# The lifetime of a detached computation

The calls on the threads that still access the computation, together with the tasks and the promises,
are at all times those its objects know. When the demand is resumed the objects know this one call
only, so that nobody is left who would access the computation after it is deleted.
-/

namespace CppConcur.Futures.Detach

variable {Sched : Type} {α : Type} {p q : Path} {f : Frame} {eff : Effect}

namespace Machine

/-- All calls: those on the threads, and those that the tasks and the promises will make. -/
def frames (m : Machine Sched α) : Multiset Frame :=
  (m.threads.flatten : Multiset Frame) + (m.tasks.map Frame.run : List Frame) +
    (m.promises.map Frame.produce : List Frame)

/-- The calls of `Produce` and `Consume` of the `ContractState` at a node, in their order. -/
def arrivalsAt (m : Machine Sched α) (q : Path) : List Party :=
  m.arrivals.filterMap (partyAt q)

/-- Who has deleted the `ContractState` at a node or is about to. -/
def disposalsAt (m : Machine Sched α) (q : Path) : Multiset Party :=
  m.frames.filterMap (Frame.disposes q) + (m.deleted.filterMap (partyAt q) : List Party)

/-- The calls other than the one on top of a stack. -/
def others (m : Machine Sched α) (before after : List (List Frame)) (rest : List Frame) :
    Multiset Frame :=
  { m with threads := before ++ rest :: after }.frames

end Machine

section Frames

variable {m : Machine Sched α} {before after : List (List Frame)} {rest : List Frame}

theorem coe_flatten (before after : List (List Frame)) (frames rest : List Frame) :
    ((before ++ (frames ++ rest) :: after).flatten : Multiset Frame) =
      (frames : Multiset Frame) + ((before ++ rest :: after).flatten : Multiset Frame) := by
  simp only [List.flatten_append, List.flatten_cons, ← Multiset.coe_add]
  abel

theorem frames_of_top (hthreads : m.threads = before ++ (f :: rest) :: after) :
    m.frames = f ::ₘ m.others before after rest := by
  have hflatten := coe_flatten before after [f] rest
  rw [List.singleton_append] at hflatten
  simp only [Machine.frames, Machine.others, hthreads, hflatten, Multiset.coe_singleton,
    Multiset.singleton_add, Multiset.cons_add]

theorem frames_exec {tree : Run Sched α} :
    (m.exec before after rest eff tree).frames = eff.calls + m.others before after rest := by
  simp only [Machine.frames, Machine.exec, Machine.others, Effect.calls, coe_flatten, List.map_append,
    ← Multiset.coe_add]
  abel

/-- A task that a thread begins to run is the same call as before. -/
theorem frames_work {front back : List Path} (htasks : m.tasks = front ++ p :: back) :
    { m with threads := [.run p] :: m.threads, tasks := front ++ back }.frames = m.frames := by
  simp only [Machine.frames, htasks, List.flatten_cons, List.map_append, List.map_cons,
    ← Multiset.coe_add, ← Multiset.cons_coe, ← Multiset.singleton_add, Multiset.coe_nil, add_zero]
  abel

theorem frames_set {front back : List Path} (hpromises : m.promises = front ++ p :: back) :
    { m with threads := [.produce p] :: m.threads, promises := front ++ back }.frames = m.frames := by
  simp only [Machine.frames, hpromises, List.flatten_cons, List.map_append, List.map_cons,
    ← Multiset.coe_add, ← Multiset.cons_coe, ← Multiset.singleton_add, Multiset.coe_nil, add_zero]
  abel

end Frames

/-- The state of a contract, who has come to it, and who deletes the `ContractState` or has done so. -/
inductive Slot : Option Rendezvous → List Party → Multiset Party → Prop
  | none : Slot none [] 0
  | empty : Slot (some .empty) [] 0
  | produced : Slot (some .produced) [.produce] 0
  | consumed : Slot (some .consumed) [.consume] 0
  | met (party : Party) : Slot none [party.other, party] {party}

theorem Slot.step {st st' : Option Rendezvous} {arrivals arrivals' : List Party}
    {disposals disposals' : Multiset Party} (h : Slot st arrivals disposals)
    (hstep : SlotStep st st' arrivals' disposals') :
    Slot st' (arrivals ++ arrivals') (disposals' + disposals) := by
  cases hstep with
  | keep =>
    rw [List.append_nil, zero_add]
    exact h
  | vacate =>
    cases h with
    | empty => exact .none
  | produceFirst =>
    cases h with
    | empty => exact .produced
  | consumeFirst =>
    cases h with
    | empty => exact .consumed
  | produceSecond =>
    cases h with
    | consumed => exact .met .produce
  | consumeSecond =>
    cases h with
    | produced => exact .met .consume

/-- What holds in every state of a detached computation. -/
structure Sound (m : Machine Sched α) : Prop where
  fault : m.fault = false
  ok : m.tree.Ok true
  plain : RunPlain m.tree
  destroyed : m.destroyed ≤ 1
  calls : m.frames.filter (fun f => f.uses = true) = if m.destroyed = 0 then pending [] m.tree else 0
  contracts : ∀ q, Slot (slot [] m.tree q) (m.arrivalsAt q) (m.disposalsAt q)

section Sound

variable {m m' : Machine Sched α} {before after : List (List Frame)} {rest : List Frame}

/-- A call that accesses the computation finds it alive, and its objects know the call. -/
theorem Sound.alive (h : Sound m) (hmem : f ∈ m.frames) (hf : f.uses = true) :
    m.destroyed = 0 ∧ f ∈ pending [] m.tree := by
  have hcalls : f ∈ m.frames.filter fun f => f.uses = true := Multiset.mem_filter.mpr ⟨hmem, hf⟩
  rw [h.calls] at hcalls
  split at hcalls
  · exact ⟨‹_›, hcalls⟩
  · exact absurd hcalls (Multiset.notMem_zero f)

theorem Sound.touch (h : Sound m) (hmem : f ∈ m.frames) (hf : f.uses = true) : m.touch = m := by
  have hfault : (m.fault || m.destroyed != 0) = m.fault := by simp [(h.alive hmem hf).1]
  rw [Machine.touch, hfault]

theorem mem_of_top (hthreads : m.threads = before ++ (f :: rest) :: after) : f ∈ m.frames := by
  rw [frames_of_top hthreads]
  exact Multiset.mem_cons_self f _

theorem calls_of_top (hthreads : m.threads = before ++ (f :: rest) :: after) (hf : f.uses = true) :
    m.frames.filter (fun f => f.uses = true) =
      f ::ₘ (m.others before after rest).filter fun f => f.uses = true := by
  rw [frames_of_top hthreads]
  exact Multiset.filter_cons_of_pos _ hf

theorem calls_of_done (hthreads : m.threads = before ++ (f :: rest) :: after) (hf : f.uses = false) :
    m.frames.filter (fun f => f.uses = true) =
      (m.others before after rest).filter fun f => f.uses = true := by
  rw [frames_of_top hthreads, Multiset.filter_cons_of_neg]
  simp [hf]

theorem disposals_of_top (hthreads : m.threads = before ++ (f :: rest) :: after)
    (hf : f.disposes q = none) :
    m.disposalsAt q = (m.others before after rest).filterMap (Frame.disposes q) +
      (m.deleted.filterMap (partyAt q) : List Party) := by
  rw [Machine.disposalsAt, frames_of_top hthreads, Multiset.filterMap_cons_none _ _ hf]

theorem Sound.exec (h : Sound m) (hthreads : m.threads = before ++ (f :: rest) :: after)
    (halive : m.destroyed = 0) {tree : Run Sched α} (hexec : Exec [] m.tree f eff tree) :
    Sound (m.exec before after rest eff tree) := by
  have huses := hexec.uses h.plain
  obtain ⟨w, hw⟩ := hexec.step
  refine ⟨h.fault, (hw.ok h.ok).1, hexec.plain h.plain, h.destroyed, ?_, ?_⟩
  · have hcalls := h.calls
    rw [calls_of_top hthreads huses, if_pos halive] at hcalls
    rw [frames_exec, Multiset.filter_add]
    show eff.pending + _ = if m.destroyed = 0 then pending [] tree else 0
    rw [if_pos halive]
    refine add_right_cancel (b := {f}) ?_
    rw [hexec.calls h.plain, ← hcalls, ← Multiset.singleton_add]
    abel
  · intro q
    have hslot := (h.contracts q).step (hexec.slot h.ok q)
    have harrivals : (m.exec before after rest eff tree).arrivalsAt q =
        m.arrivalsAt q ++ eff.arrivalsAt q :=
      List.filterMap_append
    have hdisposals : (m.exec before after rest eff tree).disposalsAt q =
        eff.disposalsAt q + m.disposalsAt q := by
      rw [disposals_of_top hthreads (disposes_of_uses huses), Machine.disposalsAt, frames_exec,
        Multiset.filterMap_add, add_assoc]
      rfl
    rw [harrivals, hdisposals]
    exact hslot

/-- The demand is resumed when the objects know no other call. -/
theorem Sound.demand (h : Sound m) (hthreads : m.threads = before ++ (.resume [] :: rest) :: after) :
    Sound { m.touch with threads := before ++ rest :: after, destroyed := m.destroyed + 1 } := by
  have hmem := mem_of_top hthreads
  obtain ⟨halive, hpending⟩ := h.alive hmem rfl
  obtain ⟨_, v, s, htree⟩ := eq_resume h.ok hpending
  have hcalls := h.calls
  rw [h.touch hmem rfl]
  refine ⟨h.fault, h.ok, h.plain, ?_, ?_, ?_⟩
  · show m.destroyed + 1 ≤ 1
    omega
  · show (m.others before after rest).filter _ = if m.destroyed + 1 = 0 then _ else 0
    rw [if_pos halive, calls_of_top hthreads rfl, htree, pending] at hcalls
    rw [if_neg (Nat.succ_ne_zero _)]
    exact (Multiset.cons_inj_right _).mp hcalls
  · intro q
    have hslot := h.contracts q
    rw [disposals_of_top hthreads rfl] at hslot
    exact hslot

theorem Sound.delete (h : Sound m) {party : Party}
    (hthreads : m.threads = before ++ (.delete p party :: rest) :: after) :
    Sound { m with threads := before ++ rest :: after, deleted := m.deleted ++ [(p, party)] } := by
  refine ⟨h.fault, h.ok, h.plain, h.destroyed, ?_, ?_⟩
  · exact (calls_of_done hthreads rfl).symm.trans h.calls
  · intro q
    have hslot := h.contracts q
    have hdisposals : Machine.disposalsAt
        { m with threads := before ++ rest :: after, deleted := m.deleted ++ [(p, party)] } q =
        m.disposalsAt q := by
      rw [Machine.disposalsAt, Machine.disposalsAt, frames_of_top hthreads, List.filterMap_append,
        ← Multiset.coe_add]
      show (m.others before after rest).filterMap (Frame.disposes q) + _ = _
      by_cases hq : p = q
      · have hdelete : (Frame.delete p party).disposes q = some party := if_pos hq
        rw [Multiset.filterMap_cons_some _ _ _ hdelete]
        simp [partyAt, hq, ← Multiset.singleton_add]
        abel
      · have hdelete : (Frame.delete p party).disposes q = none := if_neg hq
        rw [Multiset.filterMap_cons_none _ _ hdelete]
        simp [partyAt, hq]
    rw [← hdisposals] at hslot
    exact hslot

theorem Sound.ret (h : Sound m) (hthreads : m.threads = before ++ (.ret :: rest) :: after) :
    Sound { m with threads := before ++ rest :: after } := by
  refine ⟨h.fault, h.ok, h.plain, h.destroyed, (calls_of_done hthreads rfl).symm.trans h.calls, ?_⟩
  intro q
  have hslot := h.contracts q
  rw [disposals_of_top hthreads rfl] at hslot
  exact hslot

theorem Sound.of_frames (h : Sound m) {threads : List (List Frame)} {tasks promises : List Path}
    (hframes : { m with threads, tasks, promises }.frames = m.frames) :
    Sound { m with threads, tasks, promises } := by
  refine ⟨h.fault, h.ok, h.plain, h.destroyed, ?_, ?_⟩
  · rw [hframes]
    exact h.calls
  · intro q
    have hslot := h.contracts q
    rw [Machine.disposalsAt, ← hframes] at hslot
    exact hslot

theorem Sound.step (h : Sound m) (hstep : m.Step m') : Sound m' := by
  cases hstep with
  | exec hthreads halive hexec => exact h.exec hthreads halive hexec
  | touch hthreads huses =>
    rw [h.touch (mem_of_top hthreads) huses]
    exact h
  | demand hthreads => exact h.demand hthreads
  | delete hthreads => exact h.delete hthreads
  | ret hthreads => exact h.ret hthreads
  | work htasks => exact h.of_frames (frames_work htasks)
  | set hpromises => exact h.of_frames (frames_set hpromises)

theorem sound_initial {e : Future Sched α} (he : e.Plain) : Sound (.initial e) := by
  refine ⟨rfl, ⟨rfl, e.init_ok⟩, plain_init he, Nat.zero_le 1, ?_, ?_⟩
  · show _ = {.start []} + pending [] e.init
    rw [pending_init he]
    simp [Machine.frames, Machine.initial, Frame.uses, List.filter_map, Function.comp_def]
  · intro q
    have hdisposals : Machine.disposalsAt (.initial e) q = 0 := by
      simp [Machine.disposalsAt, Machine.frames, Machine.initial, Frame.disposes, Frame.disposal]
    rw [hdisposals]
    show Slot (slot [] e.init q) [] 0
    cases hslot : slot [] e.init q with
    | none => exact .none
    | some st =>
      rw [slot_init hslot]
      exact .empty

theorem sound_of_reachable {e : Future Sched α} (he : e.Plain) (h : (system e).Reachable m) :
    Sound m := by
  apply h.invariant
  · rintro m rfl
    exact sound_initial he
  · intro m m' _ hsound hstep
    exact hsound.step hstep

/-! ### What follows for a run -/

/-- The demand is resumed at most once. -/
theorem Sound.demands (h : Sound m) : m.frames.count (.resume []) + m.destroyed ≤ 1 := by
  by_cases hmem : .resume [] ∈ m.frames
  · obtain ⟨halive, hpending⟩ := h.alive hmem rfl
    obtain ⟨_, v, s, htree⟩ := eq_resume h.ok hpending
    have hcalls := h.calls
    rw [if_pos halive, htree, pending] at hcalls
    rw [halive, ← Multiset.count_filter_of_pos (p := fun f => f.uses = true) rfl, hcalls]
    simp
  · rw [Multiset.count_eq_zero_of_notMem hmem, Nat.zero_add]
    exact h.destroyed

/-- Who deletes a `ContractState`, or has done so, came second to it. -/
theorem Slot.second {st : Option Rendezvous} {arrivals : List Party} {disposals : Multiset Party}
    (h : Slot st arrivals disposals) {party : Party} (hmem : party ∈ disposals) :
    disposals = {party} ∧ arrivals = [party.other, party] := by
  cases h with
  | none | empty | produced | consumed => exact absurd hmem (Multiset.notMem_zero party)
  | met party' =>
    rw [Multiset.mem_singleton.mp hmem]
    exact ⟨rfl, rfl⟩

theorem Slot.card_le {st : Option Rendezvous} {arrivals : List Party} {disposals : Multiset Party}
    (h : Slot st arrivals disposals) : disposals.card ≤ 1 := by
  cases h with
  | none | empty | produced | consumed => exact Nat.zero_le 1
  | met party => exact Nat.le_refl 1

/-- When both have come to a contract, the second one deletes the `ContractState` or has done so. -/
theorem Slot.disposed {st : Option Rendezvous} {a b : Party} {disposals : Multiset Party}
    (h : Slot st [a, b] disposals) : b ∈ disposals := by
  cases h with
  | met => exact Multiset.mem_singleton_self b

theorem disposes_eq_some {party : Party} : f.disposes q = some party ↔ f = .delete q party := by
  cases f with
  | delete p party' => simp [and_comm, eq_comm]
  | start | resume | run | produce | second | ret => exact ⟨nofun, nofun⟩

theorem partyAt_eq_some {x : Path × Party} {party : Party} :
    partyAt q x = some party ↔ x = (q, party) := by
  obtain ⟨p, party'⟩ := x
  simp [partyAt]

theorem mem_disposalsAt {party : Party} :
    party ∈ m.disposalsAt q ↔ .delete q party ∈ m.threads.flatten ∨ (q, party) ∈ m.deleted := by
  simp [Machine.disposalsAt, Machine.frames, disposes_eq_some, partyAt_eq_some]

theorem Sound.deleted_nodup (h : Sound m) : (m.deleted.map Prod.fst).Nodup := by
  rw [List.nodup_iff_count_le_one]
  intro q
  have hcount : (m.deleted.map Prod.fst).count q = (m.deleted.filterMap (partyAt q)).length := by
    rw [List.length_filterMap_eq_countP, List.count, List.countP_map]
    apply List.countP_congr
    intro x _
    by_cases hq : x.1 = q <;> simp [partyAt, hq]
  have hcard := (h.contracts q).card_le
  rw [Machine.disposalsAt, Multiset.card_add, Multiset.coe_card] at hcard
  omega

end Sound

/-- The objects of a detached computation go through states of an evaluation of its expression. -/
theorem evaluates {e : Future Sched α} {m : Machine Sched α} (h : (system e).Reachable m) :
    ∃ log, (Futures.system e).Reachable ⟨[⟨[], α, m.tree⟩], log⟩ := by
  induction h with
  | init hinit =>
    obtain rfl : _ = Machine.initial e := hinit
    exact ⟨_, reachable_single (.init rfl) .next⟩
  | step _ hstep ih =>
    cases hstep with
    | exec _ _ h =>
      obtain ⟨log, hlog⟩ := ih
      obtain ⟨w, hw⟩ := h.step
      exact ⟨_, reachable_single hlog hw⟩
    | touch | demand | delete | ret | work | set => exact ih

/-- Under `Detach` the demand is resumed at most once, and each call of its `Resume()` destroys the
computation; a call that still accesses the computation finds it alive, and can go on. Every
`ContractState` is deleted at most once, by the one of `Produce` and `Consume` that comes second. -/
theorem detached_lifetime (e : Future Sched α) (he : e.Plain) {m : Machine Sched α}
    (h : (system e).Reachable m) :
    m.frames.count (.resume []) + m.destroyed ≤ 1 ∧ m.fault = false ∧
      (∀ f ∈ m.frames, f.uses = true →
        m.destroyed = 0 ∧ (f = .resume [] ∨ ∃ eff tree, Exec [] m.tree f eff tree)) ∧
      (m.deleted.map Prod.fst).Nodup ∧
      (∀ q party, (q, party) ∈ m.deleted → m.arrivalsAt q = [party.other, party]) ∧
      ∀ q first second, m.arrivalsAt q = [first, second] →
        .delete q second ∈ m.threads.flatten ∨ (q, second) ∈ m.deleted := by
  have hm := sound_of_reachable he h
  refine ⟨hm.demands, hm.fault, ?_, hm.deleted_nodup, ?_, ?_⟩
  · intro f hmem hf
    obtain ⟨halive, hpending⟩ := hm.alive hmem hf
    exact ⟨halive, exec_of_mem_pending hm.ok hm.plain hpending⟩
  · intro q party hmem
    exact ((hm.contracts q).second (mem_disposalsAt.mpr (.inr hmem))).2
  · intro q first second harrivals
    have hslot := hm.contracts q
    rw [harrivals] at hslot
    exact mem_disposalsAt.mp hslot.disposed

/-- A contract next to a value that is ready. -/
def pairOfContract : Future Unit (Nat × Bool) :=
  .both (.contract 7) (.ready true)

theorem reachable_exec {e : Future Sched α} {m : Machine Sched α} (h : (system e).Reachable m)
    (before after : List (List Frame)) (rest : List Frame) {f : Frame} {eff : Effect}
    {tree : Run Sched α} (hthreads : m.threads = before ++ (f :: rest) :: after)
    (halive : m.destroyed = 0) (hexec : Exec [] m.tree f eff tree) :
    (system e).Reachable (m.exec before after rest eff tree) :=
  .step h (.exec hthreads halive hexec)

/-- The promise is set after both inputs have been started, while `BothComputation::Start` has not
returned: the thread that sets it deletes the computation and then the `ContractState`. -/
theorem detached_lifetime_pair : ∃ m : Machine Unit (Nat × Bool),
    (system pairOfContract).Reachable m ∧ m.destroyed = 1 ∧ m.deleted = [([.left], .produce)] ∧
      m.arrivalsAt [.left] = [.consume, .produce] ∧ m.fault = false := by
  have hinit : (system pairOfContract).Reachable (.initial pairOfContract) := .init rfl
  have hboth := reachable_exec hinit [] [] [.ret] rfl rfl .both
  have hleft := reachable_exec hboth [] [] [.second [.right], .ret] rfl rfl (.inLeft .consume)
  have hsecond := reachable_exec hleft [] [] [.ret] rfl rfl (.inRight .second)
  have hright := reachable_exec hsecond [] [] [.ret, .ret] rfl rfl (.inRight .ready)
  have hcame := reachable_exec hright [] [] [.ret, .ret, .ret] rfl rfl .bothRight
  have hset : (system pairOfContract).Reachable
      ⟨.bothB (.contract 7 .consumed) true, [[.produce [.left]], [.ret, .ret, .ret]], [], [], 0,
        [([.left], .consume)], [], false⟩ :=
    .step hcame (@Machine.Step.set _ _ _ [] [] _ rfl)
  have hmet := reachable_exec hset [] [[.ret, .ret, .ret]] [] rfl rfl (.inLast' (.produce rfl))
  have hpair := reachable_exec hmet [] [[.ret, .ret, .ret]] [.delete [.left] .produce] rfl rfl .pairLeft
  have hdemand : (system pairOfContract).Reachable
      ⟨.resume (7, true) none, [[.ret, .delete [.left] .produce], [.ret, .ret, .ret]], [], [], 1,
        [([.left], .consume), ([.left], .produce)], [], false⟩ :=
    .step hpair (@Machine.Step.demand _ _ _ [] _ _ rfl)
  have hret : (system pairOfContract).Reachable
      ⟨.resume (7, true) none, [[.delete [.left] .produce], [.ret, .ret, .ret]], [], [], 1,
        [([.left], .consume), ([.left], .produce)], [], false⟩ :=
    .step hdemand (@Machine.Step.ret _ _ _ [] _ _ rfl)
  have hdelete : (system pairOfContract).Reachable
      ⟨.resume (7, true) none, [[], [.ret, .ret, .ret]], [], [], 1,
        [([.left], .consume), ([.left], .produce)], [([.left], .produce)], false⟩ :=
    .step hret (@Machine.Step.delete _ _ _ [] _ _ _ _ rfl)
  obtain ⟨_, hfault, _, _, hsecond, _⟩ :=
    detached_lifetime pairOfContract ⟨trivial, trivial⟩ hdelete
  exact ⟨_, hdelete, rfl, rfl, hsecond _ _ (List.mem_singleton_self _), hfault⟩

end CppConcur.Futures.Detach
