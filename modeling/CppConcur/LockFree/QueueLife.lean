import CppConcur.LockFree.QueueLinearizable

/-!
# The life of a node of the lock-free queue

A node is filled by a pusher, linked, passed by `head_`, emptied by the `TryPop` that has claimed its value,
and put into the pool, from where a pusher takes it again. What a thread has to do with a node is its
`Role`: it prepares the node for a push, returns it to the pool, or still owes it one of the two increments
of `try_del_count`. An action has one of few effects on the lists, the counters and the roles, whatever
the thread has read; they are listed once, in `Effect`, and the life of a node is followed through them.
-/

namespace CppConcur.LockFree.Queue

variable {T Tid : Type*}

/-! ### Roles -/

/-- The nodes that are in the hands of a thread: one it has taken from the pool and not filled yet, one it has filled and
not linked yet, and one it is putting into the pool; and the nodes it has to increment the counter of: the one it has
moved `head_` away from, and the one it has claimed the value of, before and after it has moved the value out. -/
structure Role where
  renews : Option Addr := none
  filled : Option Addr := none
  returns : Option Addr := none
  passes : Option Addr := none
  takes : Option Addr := none
  drops : Option Addr := none

/-- The node whose value is still to be moved out after `ToPool`. -/
def After.takes : After T → Option Addr
  | .takeValue headNext _ => headNext.value.rawPtr
  | .ret _ _ => none

def Pc.role : Pc T → Role
  | .newSetValue _ a => { renews := some a }
  | .newLoadOwn _ a | .newStoreOwn _ a _ | .pushLoadTail _ a | .pushLoadNext _ a _ | .pushCheckTail _ a _ _
  | .pushLink _ a _ _ | .pushHelp _ a _ _ => { filled := some a }
  | .popDropHead headOld headNext _ => { passes := headOld.value.rawPtr, takes := headNext.value.rawPtr }
  | .popTakeValue headNext _ => { takes := headNext.value.rawPtr }
  | .popDropNext headNext _ _ => { drops := headNext.value.rawPtr }
  | .poolLoadTop a after | .poolLoadOwn a _ after | .poolStore a _ _ after | .poolCas a _ _ after =>
      { returns := some a, takes := after.takes }
  | _ => {}

/-- The node is in the hands of the thread. -/
def Role.Holds (r : Role) (a : Addr) : Prop := r.renews = some a ∨ r.filled = some a ∨ r.returns = some a

/-- The thread still has to increment the counter of the node. -/
def Role.Owes (r : Role) (a : Addr) : Prop := r.passes = some a ∨ r.takes = some a ∨ r.drops = some a

/-! ### The uses of a node -/

/-- What happens to a node: the constructor makes it the dummy, a pusher writes its value, it is linked, `head_` moves past
it, its value is moved out, it enters the pool. -/
inductive Use where
  | construct
  | fill
  | link
  | pass
  | take
  | enter

/-- The node that an action uses, and how. -/
def use : Pc T → Pc T → Option (Addr × Use)
  | .newSetValue _ a, _ => some (a, .fill)
  | .newAlloc _, .pushLoadTail _ a => some (a, .fill)
  | .pushLink _ a _ _, .pushSwing _ _ => some (a, .link)
  | .popCasHead headOld _, .popDropHead _ _ _ => headOld.value.rawPtr.map (·, .pass)
  | .popTakeValue headNext _, .popDropNext _ _ _ => headNext.value.rawPtr.map (·, .take)
  | .poolCas _ _ _ _, .poolStore _ _ _ _ => none
  | .poolCas a _ _ _, _ => some (a, .enter)
  | _, _ => none

/-- How far a node is in its life. -/
inductive Life where
  | resting
  | filled
  | linked (passed taken : Bool)

/-- The only order in which a node may be used. -/
def Life.next : Life → Use → Option Life
  | .resting, .construct => some (.linked false true)
  | .resting, .fill => some .filled
  | .filled, .link => some (.linked false false)
  | .linked false taken, .pass => some (.linked true taken)
  | .linked passed false, .take => some (.linked passed true)
  | .linked true true, .enter => some .resting
  | _, _ => none

/-- The life of a node after these uses, if they come in the right order. -/
def life (uses : List Use) : Option Life := uses.foldlM Life.next .resting

theorem life_append (uses : List Use) (u : Use) : life (uses ++ [u]) = (life uses).bind (·.next u) := by
  simp [life, List.foldlM_append]

/-! ### The lists -/

/-- The nodes that are reached from a pointer. -/
def Mem.Reaches (m : Mem T) (p : Option Addr) (a : Addr) : Prop := ∃ n, m.follow n p = some a

/-- The node is in the list from `head_`. -/
def Mem.InQueue (m : Mem T) (a : Addr) : Prop := m.Reaches m.head.value.rawPtr a

/-- The node is in the list from `head_`, and not its first node. -/
def Mem.AfterHead (m : Mem T) (a : Addr) : Prop := ∃ n, m.follow (n + 1) m.head.value.rawPtr = some a

/-- The node is in the list of the pool. -/
def Mem.InPool (m : Mem T) (a : Addr) : Prop := m.Reaches m.top.value.rawPtr a

/-- The successor of a node. -/
def Mem.succ (m : Mem T) (a : Addr) : Option Addr := (m.node a).next.value.rawPtr

section Lists

variable {m m' : Mem T} {p : Option Addr} {a b : Addr}

theorem Mem.Reaches.self : m.Reaches (some a) a := ⟨0, rfl⟩

theorem Mem.Reaches.succ (h : m.Reaches (m.succ b) a) : m.Reaches (some b) a := by
  obtain ⟨n, hn⟩ := h
  exact ⟨n + 1, hn⟩

theorem Mem.Reaches.cases (h : m.Reaches (some b) a) : a = b ∨ m.Reaches (m.succ b) a := by
  obtain ⟨n, hn⟩ := h
  cases n with
  | zero => exact .inl (Option.some.inj hn).symm
  | succ n => exact .inr ⟨n, hn⟩

theorem follow_succ (m : Mem T) (n : Nat) (p : Option Addr) : m.follow (n + 1) p = (m.follow n p).bind m.succ := by
  induction n generalizing p with
  | zero => rfl
  | succ n ih => exact ih _

/-- The successor of a node that is reached is reached. -/
theorem Mem.Reaches.tail (h : m.Reaches p b) (hsucc : m.succ b = some a) : ∃ n, m.follow (n + 1) p = some a := by
  obtain ⟨n, hn⟩ := h
  exact ⟨n, by rw [follow_succ, hn]; exact hsucc⟩

/-- Writes that do not change a successor on the way. -/
theorem follow_mono {n : Nat} (hsame : ∀ a c, m.Reaches p a → m.succ a = some c → m'.succ a = some c)
    (h : m.follow n p = some a) : m'.follow n p = some a := by
  induction n generalizing a with
  | zero => exact h
  | succ n ih =>
    rw [follow_succ] at h ⊢
    obtain ⟨b, hb, hnext⟩ := Option.bind_eq_some_iff.1 h
    rw [ih hb]
    exact hsame b a ⟨n, hb⟩ hnext

theorem Mem.Reaches.mono (h : m.Reaches p a) (hsame : ∀ a c, m.Reaches p a → m.succ a = some c → m'.succ a = some c) :
    m'.Reaches p a := by
  obtain ⟨n, hn⟩ := h
  exact ⟨n, follow_mono hsame hn⟩

theorem Mem.AfterHead.inQueue (h : m.AfterHead a) : m.InQueue a := by
  obtain ⟨n, hn⟩ := h
  exact ⟨n + 1, hn⟩

end Lists

/-! ### Where the nodes are -/

section Places

variable {t : Tid} {m : Mem T} {x : Aux Tid} {a : Addr}

theorem Good.follow_eq (hgood : Good m x) (n : Nat) :
    m.follow n m.head.value.rawPtr =
      if m.popped.length + n ≤ m.pushed.length then some (x.chain (m.popped.length + n)) else none := by
  have hle := hgood.popped_le
  induction n with
  | zero =>
    rw [Nat.add_zero, if_pos hle, hgood.head_value]
    rfl
  | succ n ih =>
    rw [follow_succ, ih]
    by_cases hlast : m.popped.length + n < m.pushed.length
    · rw [if_pos hlast.le, if_pos (show m.popped.length + (n + 1) ≤ m.pushed.length from hlast)]
      exact hgood.next_ptr _ (Nat.le_add_right ..) hlast
    · rw [if_neg (show ¬ m.popped.length + (n + 1) ≤ m.pushed.length from hlast)]
      split
      · have heq : m.popped.length + n = m.pushed.length := by omega
        rw [heq]
        exact hgood.next_last
      · rfl

theorem Good.inQueue (hgood : Good m x) (h : m.InQueue a) :
    ∃ i, m.popped.length ≤ i ∧ i ≤ m.pushed.length ∧ x.chain i = a ∧ x.place a = .linked i := by
  obtain ⟨n, hn⟩ := h
  rw [hgood.follow_eq] at hn
  split at hn
  · rename_i hle
    cases hn
    exact ⟨_, Nat.le_add_right .., hle, rfl, hgood.place_of_le (Nat.le_add_right ..) hle⟩
  · cases hn

theorem Good.afterHead (hgood : Good m x) (h : m.AfterHead a) : ∃ i, m.popped.length < i ∧ x.place a = .linked i := by
  obtain ⟨n, hn⟩ := h
  rw [hgood.follow_eq] at hn
  split at hn
  · rename_i hle
    cases hn
    exact ⟨_, by omega, hgood.place_of_le (by omega) hle⟩
  · cases hn

theorem Good.inQueue_of_le (hgood : Good m x) {i : Nat} (hi : m.popped.length ≤ i) (hle : i ≤ m.pushed.length) :
    m.InQueue (x.chain i) := by
  refine ⟨i - m.popped.length, ?_⟩
  have heq : m.popped.length + (i - m.popped.length) = i := by omega
  rw [hgood.follow_eq, heq, if_pos hle]

theorem follow_chained {l : List Addr} (h : Chained m.node l) (n : Nat) : m.follow n l.head? = l[n]? := by
  induction l generalizing n with
  | nil =>
    induction n with
    | zero => rfl
    | succ n ih => exact ih
  | cons b rest ih =>
    cases n with
    | zero => rfl
    | succ n =>
      have hnext : m.follow (n + 1) (some b) = m.follow n rest.head? := by
        rw [← h.1]
        rfl
      exact hnext.trans (ih h.2 n)

theorem Good.inPool (hgood : Good m x) : m.InPool a ↔ x.place a = .pool := by
  rw [← hgood.mem_pool a, List.mem_iff_getElem?, Mem.InPool, Mem.Reaches, hgood.top_value]
  simp only [follow_chained hgood.pool_chained]

/-- A node in the hands of a thread. -/
theorem Assertion.holds {pc : Pc T} (h : Assertion t m x pc) (ha : pc.role.Holds a) : x.place a = .held t := by
  rcases ha with ha | ha | ha <;> cases pc <;> simp only [Pc.role, Option.some.injEq, reduceCtorEq] at ha <;> subst ha
  all_goals first | exact h | exact h.1 | exact h.1.1

/-- The node that `head_` has been moved away from, until its counter is incremented. -/
theorem Assertion.passes {pc : Pc T} (h : Assertion t m x pc) (hgood : Good m x) (ha : pc.role.passes = some a) :
    ∃ k, x.place a = .linked k ∧ k < m.popped.length ∧ x.popper k = some t ∧ x.passedDone k = false := by
  cases pc with
  | popDropHead headOld headNext k =>
    obtain ⟨hticket, hpassed, hptr⟩ := h
    have hlive : x.Live k := by
      rintro ⟨_, hboth⟩
      rw [hpassed] at hboth
      cases hboth
    have hlt := hticket.lt
    have hle := hgood.popped_le
    rw [show headOld.value.rawPtr = some a from ha] at hptr
    cases hptr
    exact ⟨k, hgood.place_chain k (by omega) hlive, hlt, hticket.popper, hpassed⟩
  | _ => cases ha

theorem Ticket.place {headNext : Loaded Addr} {k : Nat} (h : Ticket m x t headNext k) (hgood : Good m x)
    (ha : headNext.value.rawPtr = some a) : x.place a = .linked (k + 1) := by
  have hlt := h.lt
  have hle := hgood.popped_le
  have hptr := h.ptr
  rw [ha] at hptr
  cases hptr
  exact hgood.place_chain (k + 1) (by omega) (hgood.live_of_not_taken h.not_taken)

/-- The node whose value a thread has claimed, until it has moved the value out. -/
theorem Assertion.takes {pc : Pc T} (h : Assertion t m x pc) (hgood : Good m x) (ha : pc.role.takes = some a) :
    ∃ k, x.place a = .linked (k + 1) ∧ k < m.popped.length ∧ x.popper k = some t ∧ x.valueDone (k + 1) = false ∧
      x.valueTaken (k + 1) = false := by
  have hof : ∀ {headNext k}, Ticket m x t headNext k → headNext.value.rawPtr = some a →
      ∃ k, x.place a = .linked (k + 1) ∧ k < m.popped.length ∧ x.popper k = some t ∧ x.valueDone (k + 1) = false ∧
        x.valueTaken (k + 1) = false :=
    fun hticket ha => ⟨_, hticket.place hgood ha, hticket.lt, hticket.popper, hticket.not_done, hticket.not_taken⟩
  have hafter : ∀ {after : After T}, AfterOk m x t after → after.takes = some a →
      ∃ k, x.place a = .linked (k + 1) ∧ k < m.popped.length ∧ x.popper k = some t ∧ x.valueDone (k + 1) = false ∧
        x.valueTaken (k + 1) = false := by
    intro after hok hsome
    cases after with
    | takeValue headNext k => exact hof hok hsome
    | ret val k => cases hsome
  cases pc with
  | popDropHead headOld headNext k => exact hof h.1 ha
  | popTakeValue headNext k => exact hof h ha
  | poolLoadTop b after => exact hafter h.2 ha
  | poolLoadOwn b oldTop after => exact hafter h.2.2 ha
  | poolStore b oldTop oldNext after => exact hafter h.2.2.2 ha
  | poolCas b oldTop oldNext after => exact hafter h.2.2.2 ha
  | _ => cases ha

/-- The same after the value has been moved out, until the counter is incremented. -/
theorem Assertion.drops {pc : Pc T} (h : Assertion t m x pc) (hgood : Good m x) (ha : pc.role.drops = some a) :
    ∃ k, x.place a = .linked (k + 1) ∧ k < m.popped.length ∧ x.popper k = some t ∧ x.valueDone (k + 1) = false ∧
      x.valueTaken (k + 1) = true := by
  cases pc with
  | popDropNext headNext val k =>
    obtain ⟨hclaimed, htaken, hdone, hptr⟩ := h
    have hlive : x.Live (k + 1) := by
      rintro ⟨hboth, _⟩
      rw [hdone] at hboth
      cases hboth
    have hlt := hclaimed.lt
    have hle := hgood.popped_le
    rw [show headNext.value.rawPtr = some a from ha] at hptr
    cases hptr
    exact ⟨k, hgood.place_chain (k + 1) (by omega) hlive, hlt, hclaimed.popper, hdone, htaken⟩
  | _ => cases ha

end Places

/-! ### The effects of an action -/

/-- What most actions leave alone. -/
structure Unmoved (m m' : Mem T) : Prop where
  head : m'.head.value.rawPtr = m.head.value.rawPtr
  top : m'.top.value.rawPtr = m.top.value.rawPtr
  allocated : m'.allocated = m.allocated
  succ : m'.succ = m.succ
  count : ∀ a, (m'.node a).tryDelCount = (m.node a).tryDelCount

/-- The effects of an action on the lists, the counters and the role of the thread, with the use it makes of a node. -/
inductive Effect (m : Mem T) (r : Role) (m' : Mem T) : Role → Option (Addr × Use) → Prop
  | keep (hhead : m'.head.value.rawPtr = m.head.value.rawPtr) (htop : m'.top.value.rawPtr = m.top.value.rawPtr)
      (hallocated : m'.allocated = m.allocated) (hsucc : ∀ a, ¬ r.Holds a → m'.succ a = m.succ a)
      (hcount : ∀ a, (m'.node a).tryDelCount = (m.node a).tryDelCount) : Effect m r m' r none
  | fill {a : Addr} (hr : r = { renews := some a }) (hsame : Unmoved m m') :
      Effect m r m' { filled := some a } (some (a, .fill))
  | unpool {a : Addr} (hr : r = {}) (htop : m.top.value.rawPtr = some a) (htop' : m'.top.value.rawPtr = m.succ a)
      (hhead : m'.head.value.rawPtr = m.head.value.rawPtr) (hallocated : m'.allocated = m.allocated)
      (hnode : m'.node = m.node) : Effect m r m' { renews := some a } none
  | alloc {a : Addr} (hr : r = {}) (hnew : m.allocated a = false) (hallocated : m'.allocated = Function.update m.allocated a true)
      (hhead : m'.head.value.rawPtr = m.head.value.rawPtr) (htop : m'.top.value.rawPtr = m.top.value.rawPtr)
      (hnode : ∀ b, b ≠ a → m'.node b = m.node b) : Effect m r m' { filled := some a } (some (a, .fill))
  | link {a b : Addr} (hr : r = { filled := some a }) (ha : m.succ a = none) (hb : m.InQueue b)
      (hlast : m.succ b = none) (hsucc : m'.succ = Function.update m.succ b (some a)) (hhead : m'.head.value.rawPtr = m.head.value.rawPtr)
      (htop : m'.top.value.rawPtr = m.top.value.rawPtr) (hallocated : m'.allocated = m.allocated)
      (hcount : ∀ a, (m'.node a).tryDelCount = (m.node a).tryDelCount) : Effect m r m' {} (some (a, .link))
  | moveHead {a b : Addr} (hr : r = {}) (hhead : m.head.value.rawPtr = some a) (hsucc : m.succ a = some b)
      (hhead' : m'.head.value.rawPtr = some b) (htop : m'.top.value.rawPtr = m.top.value.rawPtr)
      (hallocated : m'.allocated = m.allocated) (hnode : m'.node = m.node) :
      Effect m r m' { passes := some a, takes := some b } (some (a, .pass))
  | dropHead {a b : Addr} (hr : r = { passes := some a, takes := some b }) (hhead : m'.head = m.head) (htop : m'.top = m.top)
      (hallocated : m'.allocated = m.allocated) (hnode : m'.node = Function.update m.node a (m.node a).bumpTryDel) :
      Effect m r m' (if m.lastTryDel a then { returns := some a, takes := some b } else { takes := some b }) none
  | take {b : Addr} (hr : r = { takes := some b }) (hsame : Unmoved m m') :
      Effect m r m' { drops := some b } (some (b, .take))
  | dropNext {b : Addr} (hr : r = { drops := some b }) (hhead : m'.head = m.head) (htop : m'.top = m.top)
      (hallocated : m'.allocated = m.allocated) (hnode : m'.node = Function.update m.node b (m.node b).bumpTryDel) :
      Effect m r m' (if m.lastTryDel b then { returns := some b } else {}) none
  | enter {a : Addr} {b : Option Addr} (hr : r = { returns := some a, takes := b }) (hsucc : m.succ a = m.top.value.rawPtr)
      (htop : m'.top.value.rawPtr = some a) (hhead : m'.head.value.rawPtr = m.head.value.rawPtr)
      (hallocated : m'.allocated = m.allocated) (hnode : m'.node = m.node) :
      Effect m r m' { takes := b } (some (a, .enter))

section Effect

variable {t : Tid} {m m' : Mem T} {x : Aux Tid} {pc pc' : Pc T}

theorem Unmoved.refl (m : Mem T) : Unmoved m m := ⟨rfl, rfl, rfl, rfl, fun _ => rfl⟩

/-- An action that only reads, or writes a cell that no list starts from. -/
theorem Effect.of_unmoved {r : Role} (h : Unmoved m m') : Effect m r m' r none :=
  .keep h.head h.top h.allocated (fun a _ => congrFun h.succ a) h.count

theorem succ_setNode (m : Mem T) (a : Addr) (n : Node T) :
    (m.setNode a n).succ = Function.update m.succ a n.next.value.rawPtr := by
  funext b
  by_cases hb : b = a
  · subst hb
    simp only [Mem.succ, Mem.setNode, Function.update_self]
  · simp only [Mem.succ, Mem.setNode, ne_eq, hb, not_false_eq_true, Function.update_of_ne]

/-- A write that changes neither the link nor the counter of a node. -/
theorem Unmoved.setNode (m : Mem T) (a : Addr) (n : Node T) (hnext : n.next = (m.node a).next)
    (hcount : n.tryDelCount = (m.node a).tryDelCount) : Unmoved m (m.setNode a n) := by
  refine ⟨rfl, rfl, rfl, ?_, fun b => ?_⟩
  · rw [succ_setNode, hnext]
    exact Function.update_eq_self ..
  · by_cases hb : b = a
    · subst hb
      simp only [Mem.setNode, Function.update_self, hcount]
    · simp only [Mem.setNode, ne_eq, hb, not_false_eq_true, Function.update_of_ne]

/-- A write to the link of a node in the hands of the thread. -/
theorem Effect.storeNext {r : Role} {a : Addr} (ha : r.Holds a) (p : StampedPtr Addr) :
    Effect m r (m.setNode a ((m.node a).storeNext p)) r none := by
  refine .keep rfl rfl rfl (fun b hb => ?_) fun b => ?_
  · have hne : b ≠ a := by
      rintro rfl
      exact hb ha
    rw [succ_setNode, Function.update_of_ne hne]
  · by_cases hb : b = a
    · subst hb
      simp only [Mem.setNode, Node.storeNext, Function.update_self]
    · simp only [Mem.setNode, ne_eq, hb, not_false_eq_true, Function.update_of_ne]

/-- A loaded pointer that the cell still holds. -/
theorem Seen.ptr_eq {cell : AtomicStampedPtr Addr} {seen : Loaded Addr} (hseen : Seen cell seen)
    (heq : cell.updates = seen.time) : cell.value.rawPtr = seen.value.rawPtr := by rw [hseen.2.1 heq]

theorem newCasTop_effect (hgood : Good m x) (value : T) (currTop next : Loaded Addr) (choice : Choice T)
    (hpc : Assertion t m x (.newCasTop value currTop next)) (hfresh : m.top.Fresh currTop) :
    Effect m (Pc.newCasTop value currTop next).role (step m choice (.newCasTop value currTop next)).1
      (step m choice (.newCasTop value currTop next)).2.role
      (use (.newCasTop value currTop next) (step m choice (.newCasTop value currTop next)).2) := by
  obtain ⟨hseen, a, ha, hnext⟩ := hpc
  simp only [step, ha]
  split
  · rename_i hcas
    have heq := hseen.updates_eq_of_matches hgood.top_stamp hfresh hcas.1
    exact .unpool rfl ((hseen.ptr_eq heq).trans ha) (hnext heq).symm rfl rfl rfl
  · exact .of_unmoved (.refl m)

theorem pushLink_effect (hgood : Good m x) (value : T) (a : Addr) (oldTail oldTailNext : Loaded Addr) (choice : Choice T)
    (hpc : Assertion t m x (.pushLink value a oldTail oldTailNext))
    (hfresh : Fresh m (.pushLink value a oldTail oldTailNext)) :
    Effect m (Pc.pushLink value a oldTail oldTailNext).role (step m choice (.pushLink value a oldTail oldTailNext)).1
      (step m choice (.pushLink value a oldTail oldTailNext)).2.role
      (use (.pushLink value a oldTail oldTailNext) (step m choice (.pushLink value a oldTail oldTailNext)).2) := by
  obtain ⟨hready, _, b, hb, tick, hseenNext, hlast⟩ := hpc
  simp only [step, hb]
  split
  · rename_i hcas
    have hplace := hlast (hseenNext.tick_eq hgood (hfresh b hb) hcas.1)
    obtain ⟨_, hchain, _⟩ := hgood.linked_pos b _ hplace
    have hqueue := hgood.inQueue_of_le hgood.popped_le (Nat.le_refl _)
    rw [hchain] at hqueue
    have hnull := hgood.next_last
    rw [hchain] at hnull
    refine .link rfl hready.2.2 hqueue hnull (succ_setNode m b ((m.node b).storeNext ⟨some a, oldTailNext.value.stamp + 1⟩)) rfl rfl rfl
      fun c => ?_
    by_cases hc : c = b
    · subst hc
      simp only [Mem.link, Node.storeNext, Function.update_self]
    · simp only [Mem.link, ne_eq, hc, not_false_eq_true, Function.update_of_ne]
  · exact .of_unmoved (.refl m)

theorem popCasHead_effect (hgood : Good m x) (headOld headNext : Loaded Addr) (choice : Choice T)
    (hpc : Assertion t m x (.popCasHead headOld headNext)) (hfresh : m.head.Fresh headOld) :
    Effect m (Pc.popCasHead headOld headNext : Pc T).role (step m choice (.popCasHead headOld headNext)).1
      (step m choice (.popCasHead headOld headNext)).2.role
      (use (.popCasHead headOld headNext) (step m choice (.popCasHead headOld headNext)).2) := by
  obtain ⟨hseen, ⟨b, hb, a, ha, hnext⟩, _⟩ := hpc
  simp only [step]
  split
  · rename_i hcas
    have heq := hseen.updates_eq_of_matches hgood.head_stamp hfresh hcas.1
    simp only [Pc.role, use, ha, hb, Option.map_some]
    exact .moveHead rfl ((hseen.ptr_eq heq).trans ha) (hnext heq) rfl rfl rfl rfl
  · exact .of_unmoved (.refl m)

theorem poolCas_effect (hgood : Good m x) (a : Addr) (oldTop oldNext : Loaded Addr) (after : After T) (choice : Choice T)
    (hpc : Assertion t m x (.poolCas a oldTop oldNext after)) (hfresh : m.top.Fresh oldTop) :
    Effect m (Pc.poolCas a oldTop oldNext after).role (step m choice (.poolCas a oldTop oldNext after)).1
      (step m choice (.poolCas a oldTop oldNext after)).2.role
      (use (.poolCas a oldTop oldNext after) (step m choice (.poolCas a oldTop oldNext after)).2) := by
  obtain ⟨_, hseen, hnext, _⟩ := hpc
  simp only [step]
  split
  · rename_i hcas
    have heq := hseen.updates_eq_of_matches hgood.top_stamp hfresh hcas.1
    have hsucc : m.succ a = m.top.value.rawPtr := by
      rw [hseen.ptr_eq heq, Mem.succ, hnext]
    cases after with
    | takeValue headNext k => exact .enter rfl hsucc rfl rfl rfl rfl
    | ret val k => exact .enter rfl hsucc rfl rfl rfl rfl
  · exact .of_unmoved (.refl m)

/-- Every step has one of the effects. -/
theorem step_effect (hgood : Good m x) (choice : Choice T) (hpc : Assertion t m x pc) (hfresh : Fresh m pc)
    (halloc : ∀ value, pc = .newAlloc value → m.allocated choice.addr = false) :
    Effect m pc.role (step m choice pc).1 (step m choice pc).2.role (use pc (step m choice pc).2) := by
  have hread : ∀ {pc pc' : Pc T}, pc'.role = pc.role → use pc pc' = none → Effect m pc.role m pc'.role (use pc pc') := by
    intro pc pc' hrole huse
    rw [hrole, huse]
    exact .of_unmoved (.refl m)
  cases pc with
  | newLoadTop value =>
    simp only [step]
    split <;> exact hread rfl rfl
  | newLoadNext value currTop =>
    obtain ⟨_, a, ha⟩ := hpc
    simp only [step, ha]
    exact hread rfl rfl
  | newCasTop value currTop next => exact newCasTop_effect hgood value currTop next choice hpc hfresh
  | newAlloc value =>
    refine .alloc rfl (halloc value rfl) rfl rfl rfl fun b hb => ?_
    exact Function.update_of_ne hb ..
  | newSetValue value a => exact .fill rfl (Unmoved.setNode m a _ rfl rfl)
  | newStoreOwn value a oldNext => exact Effect.storeNext (.inr (.inl rfl)) _
  | pushLoadNext value a oldTail =>
    obtain ⟨_, _, b, hb⟩ := hpc
    simp only [step, hb]
    exact hread rfl rfl
  | pushCheckTail value a oldTail oldTailNext =>
    simp only [step]
    split
    · exact hread rfl rfl
    · split <;> exact hread rfl rfl
  | pushLink value a oldTail oldTailNext => exact pushLink_effect hgood value a oldTail oldTailNext choice hpc hfresh
  | pushHelp value a oldTail oldTailNext =>
    simp only [step]
    split
    · exact .of_unmoved ⟨rfl, rfl, rfl, rfl, fun _ => rfl⟩
    · exact hread rfl rfl
  | pushSwing a oldTail =>
    simp only [step]
    split
    · exact .of_unmoved ⟨rfl, rfl, rfl, rfl, fun _ => rfl⟩
    · exact hread rfl rfl
  | popLoadNext headOld =>
    obtain ⟨_, a, ha⟩ := hpc
    simp only [step, ha]
    exact hread rfl rfl
  | popCheckHead headOld headNext tailOld sawEmpty =>
    simp only [step]
    split
    · exact hread rfl rfl
    · split
      · split <;> exact hread rfl rfl
      · split <;> exact hread rfl rfl
  | popCasHead headOld headNext => exact popCasHead_effect hgood headOld headNext choice hpc hfresh
  | popHelp headNext tailOld =>
    simp only [step]
    split
    · exact .of_unmoved ⟨rfl, rfl, rfl, rfl, fun _ => rfl⟩
    · exact hread rfl rfl
  | popDropHead headOld headNext k =>
    obtain ⟨hticket, _, hptr⟩ := hpc
    have heffect : Effect m { passes := some (x.chain k), takes := some (x.chain (k + 1)) }
        (m.setNode (x.chain k) (m.node (x.chain k)).bumpTryDel)
        (if m.lastTryDel (x.chain k) then { returns := some (x.chain k), takes := some (x.chain (k + 1)) }
          else { takes := some (x.chain (k + 1)) }) none := .dropHead rfl rfl rfl rfl rfl
    simp only [step, hptr]
    split <;> rename_i hlast
    · simpa only [Pc.role, After.takes, use, hptr, hticket.ptr, hlast, if_true] using heffect
    · simpa only [Pc.role, use, hptr, hticket.ptr, hlast, Bool.false_eq_true, if_false] using heffect
  | popTakeValue headNext k =>
    simp only [step, hpc.ptr, Pc.role, use, Option.map_some]
    exact .take rfl (Unmoved.setNode m _ _ rfl rfl)
  | popDropNext headNext val k =>
    obtain ⟨_, _, _, hptr⟩ := hpc
    have heffect : ∀ m' : Mem T, m'.head = m.head → m'.top = m.top → m'.allocated = m.allocated →
        m'.node = Function.update m.node (x.chain (k + 1)) (m.node (x.chain (k + 1))).bumpTryDel →
        Effect m { drops := some (x.chain (k + 1)) } m'
          (if m.lastTryDel (x.chain (k + 1)) then { returns := some (x.chain (k + 1)) } else {}) none :=
      fun m' => .dropNext rfl
    simp only [step, hptr]
    split <;> rename_i hlast
    · simpa only [Pc.role, After.takes, use, hptr, hlast, if_true] using heffect (m.setNode _ _) rfl rfl rfl rfl
    · simpa only [Pc.role, resume, use, hptr, hlast, Bool.false_eq_true, if_false] using
        heffect ((m.setNode _ _).record val k) rfl rfl rfl rfl
  | poolStore a oldTop oldNext after => exact Effect.storeNext (.inr (.inr rfl)) _
  | poolCas a oldTop oldNext after => exact poolCas_effect hgood a oldTop oldNext after choice hpc hfresh
  | crash => exact hpc.elim
  | _ => exact hread rfl rfl

end Effect

end CppConcur.LockFree.Queue
