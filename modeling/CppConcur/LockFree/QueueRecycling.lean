import CppConcur.LockFree.QueueLife

/-!
# Recycling the nodes of the lock-free queue

Every node is in exactly one place and is used in the order of its life, whatever the interleaving: the
counter of a node is even while nobody or both of the two threads concerned owe it an increment, and odd
while one of them does, so the second increment, and only the second, takes the node out of the list for
good. When no operation is in progress the two lists are all there is, and the destructors of the queue
and of its pool delete each node once.
-/

namespace CppConcur.LockFree.Queue

variable {T Tid : Type*} {t : Tid} {m m' : Mem T} {x : Aux Tid} {R : Tid → Role} {r r' : Role}
  {u : Option (Addr × Use)} {a : Addr}

/-! ### The roles and the places -/

/-- The nodes the threads deal with are where the invariant of the queue has them. -/
structure Placed (m : Mem T) (x : Aux Tid) (R : Tid → Role) : Prop where
  holds : ∀ t a, (R t).Holds a → x.place a = .held t
  passes : ∀ t a, (R t).passes = some a →
    ∃ k, x.place a = .linked k ∧ k < m.popped.length ∧ x.popper k = some t ∧ x.passedDone k = false
  takes : ∀ t a, (R t).takes = some a → ∃ k, x.place a = .linked (k + 1) ∧ k < m.popped.length ∧ x.popper k = some t ∧
    x.valueDone (k + 1) = false ∧ x.valueTaken (k + 1) = false
  drops : ∀ t a, (R t).drops = some a → ∃ k, x.place a = .linked (k + 1) ∧ k < m.popped.length ∧ x.popper k = some t ∧
    x.valueDone (k + 1) = false ∧ x.valueTaken (k + 1) = true

theorem Good.placed (hgood : Good m x) {pc : Tid → Pc T} (h : ∀ t, Assertion t m x (pc t)) :
    Placed m x fun t => (pc t).role where
  holds t _ ha := (h t).holds ha
  passes t _ ha := (h t).passes hgood ha
  takes t _ ha := (h t).takes hgood ha
  drops t _ ha := (h t).drops hgood ha

theorem Placed.owes (h : Placed m x R) (ha : (R t).Owes a) : ∃ i, x.place a = .linked i := by
  rcases ha with ha | ha | ha
  · obtain ⟨k, hplace, _⟩ := h.passes t a ha
    exact ⟨k, hplace⟩
  · obtain ⟨k, hplace, _⟩ := h.takes t a ha
    exact ⟨k + 1, hplace⟩
  · obtain ⟨k, hplace, _⟩ := h.drops t a ha
    exact ⟨k + 1, hplace⟩

/-- A node in the hands of a thread is in no list. -/
theorem Placed.not_inQueue (h : Placed m x R) (hgood : Good m x) (ha : (R t).Holds a) : ¬ m.InQueue a := by
  intro hqueue
  obtain ⟨i, _, _, _, hplace⟩ := hgood.inQueue hqueue
  rw [h.holds t a ha] at hplace
  cases hplace

theorem Placed.not_inPool (h : Placed m x R) (hgood : Good m x) (ha : (R t).Holds a) : ¬ m.InPool a := by
  intro hpool
  have hplace := hgood.inPool.1 hpool
  rw [h.holds t a ha] at hplace
  cases hplace

theorem Good.lastTryDel (hgood : Good m x) {i : Nat} (hplace : x.place a = .linked i) :
    m.lastTryDel a = true ↔ x.valueDone i = true ∨ x.passedDone i = true := by
  have hcount := hgood.tryDel_linked a i hplace
  simp only [Mem.lastTryDel, decide_eq_true_eq]
  split at hcount <;> rename_i hdone
  · exact iff_of_true hcount hdone
  · exact iff_of_false (by omega) hdone

/-! ### How the nodes move -/

/-- The changes an action makes to the lists and to the role of its thread. A node changes its list or its role only when
it is used. -/
structure Flow (m : Mem T) (r : Role) (m' : Mem T) (r' : Role) (u : Option (Addr × Use)) : Prop where
  allocated : ∀ a, m.allocated a = false → m'.allocated a = false ∨ u = some (a, .fill)
  pool : ∀ a, m.InPool a → m'.InPool a ∨ r'.renews = some a
  renews : ∀ a, r.renews = some a → r'.renews = some a ∨ u = some (a, .fill)
  filled : ∀ a, r.filled = some a → r'.filled = some a ∨ u = some (a, .link)
  queue : ∀ a, m.InQueue a → m'.InQueue a ∨ u = some (a, .pass)
  queue_new : ∀ a, m'.InQueue a → m.InQueue a ∨ u = some (a, .link)
  passed : ∀ a, u = some (a, .pass) → ¬ m'.InQueue a
  afterHead : ∀ a, m.AfterHead a → m'.AfterHead a ∨ r'.takes = some a
  afterHead_new : ∀ a, m'.AfterHead a → m.AfterHead a ∨ u = some (a, .link)
  takes : ∀ a, r.takes = some a → r'.takes = some a ∨ u = some (a, .take)
  takes_new : ∀ a, r'.takes = some a → r.takes = some a ∨ m.AfterHead a

theorem follow_congr {p : Option Addr} (hsame : ∀ a, m.Reaches p a → m'.succ a = m.succ a) (n : Nat) :
    m'.follow n p = m.follow n p := by
  induction n with
  | zero => rfl
  | succ n ih =>
    rw [follow_succ, follow_succ, ih]
    cases hn : m.follow n p with
    | none => rfl
    | some b => exact hsame b ⟨n, hn⟩

theorem reaches_congr {p : Option Addr} (hsame : ∀ a, m.Reaches p a → m'.succ a = m.succ a) :
    m'.Reaches p a ↔ m.Reaches p a := by
  simp only [Mem.Reaches, follow_congr hsame]

/-- An action that does not change the list from `head_`. -/
theorem Flow.of_queue (hhead : m'.head.value.rawPtr = m.head.value.rawPtr) (hsucc : ∀ a, m.InQueue a → m'.succ a = m.succ a)
    (hallocated : ∀ a, m.allocated a = false → m'.allocated a = false ∨ u = some (a, .fill))
    (hpool : ∀ a, m.InPool a → m'.InPool a ∨ r'.renews = some a)
    (hrenews : ∀ a, r.renews = some a → r'.renews = some a ∨ u = some (a, .fill))
    (hfilled : ∀ a, r.filled = some a → r'.filled = some a ∨ u = some (a, .link))
    (htakes : ∀ a, r.takes = some a → r'.takes = some a ∨ u = some (a, .take))
    (hnew : ∀ a, r'.takes = some a → r.takes = some a) (hpass : ∀ a, u ≠ some (a, .pass)) : Flow m r m' r' u := by
  have hqueue : ∀ a, m'.InQueue a ↔ m.InQueue a := by
    intro a
    rw [Mem.InQueue, hhead]
    exact reaches_congr hsucc
  have hafter : ∀ a, m'.AfterHead a ↔ m.AfterHead a := by
    intro a
    simp only [Mem.AfterHead, hhead, follow_congr hsucc]
  exact ⟨hallocated, hpool, hrenews, hfilled, fun a ha => .inl ((hqueue a).2 ha), fun a ha => .inl ((hqueue a).1 ha),
    fun a ha => absurd ha (hpass a), fun a ha => .inl ((hafter a).2 ha), fun a ha => .inl ((hafter a).1 ha), htakes,
    fun a ha => .inl (hnew a ha)⟩

theorem inPool_congr (htop : m'.top.value.rawPtr = m.top.value.rawPtr) (hsucc : ∀ a, m.InPool a → m'.succ a = m.succ a) :
    m'.InPool a ↔ m.InPool a := by
  rw [Mem.InPool, htop]
  exact reaches_congr hsucc

/-- A node that is linked behind the last one. -/
theorem reaches_link {p : Option Addr} {b c : Addr} (ha : m.succ a = none) (hne : a ≠ b)
    (hsucc : m'.succ = Function.update m.succ b (some a)) (n : Nat) (h : m'.follow n p = some c) :
    m.follow n p = some c ∨ c = a := by
  induction n generalizing c with
  | zero => exact .inl h
  | succ n ih =>
    rw [follow_succ] at h ⊢
    obtain ⟨d, hd, hc⟩ := Option.bind_eq_some_iff.1 h
    rcases ih hd with hd | rfl
    · by_cases hdb : d = b
      · subst hdb
        rw [hsucc, Function.update_self] at hc
        exact .inr (Option.some.inj hc).symm
      · rw [hsucc, Function.update_of_ne hdb] at hc
        exact .inl (Option.bind_eq_some_iff.2 ⟨d, hd, hc⟩)
    · rw [hsucc, Function.update_of_ne hne, ha] at hc
      cases hc

/-- The first node of the queue does not come again. -/
theorem Good.not_afterHead_head (hgood : Good m x) (hhead : m.head.value.rawPtr = some a) : ¬ m.AfterHead a := by
  intro hafter
  obtain ⟨i, hlt, hplace⟩ := hgood.afterHead hafter
  rw [hgood.head_value] at hhead
  cases hhead
  rw [hgood.place_of_le (Nat.le_refl _) hgood.popped_le] at hplace
  cases hplace
  exact Nat.lt_irrefl _ hlt

theorem succ_bumpTryDel {b : Addr} (hnode : m'.node = Function.update m.node b (m.node b).bumpTryDel) (a : Addr) :
    m'.succ a = m.succ a := by
  by_cases hab : a = b
  · subst hab
    simp only [Mem.succ, hnode, Function.update_self, Node.bumpTryDel]
  · simp only [Mem.succ, hnode, ne_eq, hab, not_false_eq_true, Function.update_of_ne]

theorem succ_of_node (hnode : m'.node = m.node) : m'.succ = m.succ := by
  funext c
  rw [Mem.succ, hnode]
  rfl

/-- A node that a thread holds is linked behind the last one. -/
theorem flow_link {b : Addr} (hgood : Good m x) (hplaced : Placed m x R) (hholds : (R t).Holds a) (ha : m.succ a = none)
    (hb : m.InQueue b) (hlast : m.succ b = none) (hsucc : m'.succ = Function.update m.succ b (some a))
    (hhead : m'.head.value.rawPtr = m.head.value.rawPtr) (htop : m'.top.value.rawPtr = m.top.value.rawPtr)
    (hallocated : m'.allocated = m.allocated) : Flow m { filled := some a } m' {} (some (a, .link)) := by
  have hne : a ≠ b := by
    rintro rfl
    exact hplaced.not_inQueue hgood hholds hb
  have hkeep : ∀ c d, m.succ c = some d → m'.succ c = some d := by
    intro c d hd
    have hcb : c ≠ b := by
      rintro rfl
      rw [hlast] at hd
      cases hd
    rw [hsucc, Function.update_of_ne hcb, hd]
  have hpool : ∀ c, m.InPool c → m'.succ c = m.succ c := by
    intro c hc
    have hcb : c ≠ b := by
      rintro rfl
      obtain ⟨i, _, _, _, hplace⟩ := hgood.inQueue hb
      rw [hgood.inPool.1 hc] at hplace
      cases hplace
    rw [hsucc, Function.update_of_ne hcb]
  exact {
    allocated := fun c hc => .inl (by rw [hallocated, hc])
    pool := fun c hc => .inl ((inPool_congr htop hpool).2 hc)
    renews := nofun
    filled := by
      intro c hc
      cases hc
      exact .inr rfl
    queue := by
      intro c hc
      rw [Mem.InQueue, hhead]
      exact .inl (hc.mono fun d e _ he => hkeep d e he)
    queue_new := by
      rintro c ⟨n, hn⟩
      rw [hhead] at hn
      rcases reaches_link ha hne hsucc n hn with hold | rfl
      · exact .inl ⟨n, hold⟩
      · exact .inr rfl
    passed := nofun
    afterHead := by
      rintro c ⟨n, hn⟩
      refine .inl ⟨n, ?_⟩
      rw [hhead]
      exact follow_mono (fun d e _ he => hkeep d e he) hn
    afterHead_new := by
      rintro c ⟨n, hn⟩
      rw [hhead] at hn
      rcases reaches_link ha hne hsucc (n + 1) hn with hold | rfl
      · exact .inl ⟨n, hold⟩
      · exact .inr rfl
    takes := nofun
    takes_new := nofun }

/-- `head_` moves to the next node. -/
theorem flow_moveHead {b : Addr} (hgood : Good m x) (hhead : m.head.value.rawPtr = some a) (hsucc : m.succ a = some b)
    (hhead' : m'.head.value.rawPtr = some b) (htop : m'.top.value.rawPtr = m.top.value.rawPtr)
    (hallocated : m'.allocated = m.allocated) (hnode : m'.node = m.node) :
    Flow m {} m' { passes := some a, takes := some b } (some (a, .pass)) := by
  have hsame := succ_of_node hnode
  have hfollow : ∀ n p, m'.follow n p = m.follow n p := fun n p => follow_congr (fun c _ => congrFun hsame c) n
  have hstep : ∀ n, m.follow (n + 1) m.head.value.rawPtr = m.follow n (some b) := by
    intro n
    rw [hhead]
    exact congrArg (m.follow n) hsucc
  exact {
    allocated := fun c hc => .inl (by rw [hallocated, hc])
    pool := fun c hc => .inl ((inPool_congr htop fun c _ => congrFun hsame c).2 hc)
    renews := nofun
    filled := nofun
    queue := by
      rintro c ⟨n, hn⟩
      cases n with
      | zero =>
        have hc : m.head.value.rawPtr = some c := hn
        rw [hhead] at hc
        cases hc
        exact .inr rfl
      | succ n =>
        rw [hstep] at hn
        exact .inl ⟨n, by rw [hhead', hfollow, hn]⟩
    queue_new := by
      rintro c ⟨n, hn⟩
      rw [hhead', hfollow, ← hstep] at hn
      exact .inl ⟨n + 1, hn⟩
    passed := by
      rintro c hc ⟨n, hn⟩
      cases hc
      rw [hhead', hfollow, ← hstep] at hn
      exact hgood.not_afterHead_head hhead ⟨n, hn⟩
    afterHead := by
      rintro c ⟨n, hn⟩
      rw [hstep] at hn
      cases n with
      | zero => exact .inr hn
      | succ n => exact .inl ⟨n, by rw [hhead', hfollow, hn]⟩
    afterHead_new := by
      rintro c ⟨n, hn⟩
      rw [hhead', hfollow, ← hstep] at hn
      exact .inl ⟨n + 1, hn⟩
    takes := nofun
    takes_new := by
      intro c hc
      cases hc
      exact .inr ⟨0, hstep 0⟩ }

theorem Effect.flow (h : Effect m (R t) m' r' u) (hgood : Good m x) (hplaced : Placed m x R) : Flow m (R t) m' r' u := by
  generalize hr : R t = r at h
  cases h with
  | keep hhead htop hallocated hsucc _ =>
    refine .of_queue hhead (fun a ha => hsucc a fun hholds => ?_) (fun a ha => .inl (by rw [hallocated, ha]))
      (fun a ha => .inl ((inPool_congr htop fun a ha => hsucc a fun hholds => ?_).2 ha)) (fun _ ha => .inl ha)
      (fun _ ha => .inl ha) (fun _ ha => .inl ha) (fun _ ha => ha) (by simp)
    · exact hplaced.not_inQueue hgood (hr ▸ hholds) ha
    · exact hplaced.not_inPool hgood (hr ▸ hholds) ha
  | @fill a hrole hsame =>
    subst hrole
    refine .of_queue hsame.head (fun a _ => congrFun hsame.succ a) (fun a ha => .inl (by rw [hsame.allocated, ha]))
      (fun a ha => .inl ((inPool_congr hsame.top fun a _ => congrFun hsame.succ a).2 ha)) (fun b hb => .inr ?_)
      (by simp) (by simp) (by simp) (by simp)
    cases hb
    rfl
  | @unpool a hrole htop htop' hhead hallocated hnode =>
    subst hrole
    have hsucc := succ_of_node hnode
    refine .of_queue hhead (fun a _ => congrFun hsucc a) (fun a ha => .inl (by rw [hallocated, ha])) (fun b hb => ?_)
      (by simp) (by simp) (by simp) (by simp) (by simp)
    rw [Mem.InPool, htop] at hb
    rcases hb.cases with rfl | hrest
    · exact .inr rfl
    · rw [Mem.InPool, htop', reaches_congr fun a _ => congrFun hsucc a]
      exact .inl hrest
  | @alloc a hrole hnew hallocated hhead htop hnode =>
    subst hrole
    have hfree := hgood.free_of_not_allocated a hnew
    have hsucc : ∀ b, x.place b ≠ .free → m'.succ b = m.succ b := by
      intro b hb
      have hne : b ≠ a := by
        rintro rfl
        exact hb hfree
      rw [Mem.succ, hnode b hne]
      rfl
    refine .of_queue hhead (fun b hb => hsucc b ?_) (fun b hb => ?_)
      (fun b hb => .inl ((inPool_congr htop fun b hb => hsucc b ?_).2 hb)) (by simp) (by simp) (by simp) (by simp) (by simp)
    · obtain ⟨i, _, _, _, hplace⟩ := hgood.inQueue hb
      rw [hplace]
      rintro ⟨⟩
    · by_cases hba : b = a
      · exact .inr (by rw [hba])
      · exact .inl (by rw [hallocated, Function.update_of_ne hba, hb])
    · rw [hgood.inPool.1 hb]
      rintro ⟨⟩
  | @link a b hrole ha hb hlast hsucc hhead htop hallocated _ =>
    subst hrole
    exact flow_link hgood hplaced (.inr (.inl (by rw [hr]))) ha hb hlast hsucc hhead htop hallocated
  | @moveHead a b hrole hhead hsucc hhead' htop hallocated hnode =>
    subst hrole
    exact flow_moveHead hgood hhead hsucc hhead' htop hallocated hnode
  | @dropHead a b hrole hhead htop hallocated hnode =>
    subst hrole
    have hsame := succ_bumpTryDel hnode
    refine .of_queue (by rw [hhead]) (fun c _ => hsame c) (fun c hc => .inl (by rw [hallocated, hc]))
      (fun c hc => .inl ((inPool_congr (by rw [htop]) fun c _ => hsame c).2 hc)) (by simp) (by simp) (fun c hc => .inl ?_)
      (fun c hc => ?_) (by simp)
    · split <;> exact hc
    · split at hc <;> exact hc
  | @take b hrole hsame =>
    subst hrole
    refine .of_queue hsame.head (fun a _ => congrFun hsame.succ a) (fun a ha => .inl (by rw [hsame.allocated, ha]))
      (fun a ha => .inl ((inPool_congr hsame.top fun a _ => congrFun hsame.succ a).2 ha))
      (by simp) (by simp) (fun c hc => .inr ?_) (by simp) (by simp)
    cases hc
    rfl
  | @dropNext b hrole hhead htop hallocated hnode =>
    subst hrole
    have hsame := succ_bumpTryDel hnode
    refine .of_queue (by rw [hhead]) (fun c _ => hsame c) (fun c hc => .inl (by rw [hallocated, hc]))
      (fun c hc => .inl ((inPool_congr (by rw [htop]) fun c _ => hsame c).2 hc)) (by simp) (by simp) (by simp)
      (fun c hc => ?_) (by simp)
    split at hc <;> cases hc
  | @enter a b hrole hsucc htop hhead hallocated hnode =>
    subst hrole
    have hsame := succ_of_node hnode
    refine .of_queue hhead (fun c _ => congrFun hsame c) (fun c hc => .inl (by rw [hallocated, hc])) (fun c hc => .inl ?_)
      (by simp) (by simp) (fun c hc => .inl hc) (fun c hc => hc) (by simp)
    rw [Mem.InPool, htop]
    apply Mem.Reaches.succ
    rw [hsame, hsucc, reaches_congr fun c _ => congrFun hsame c]
    exact hc

/-! ### The stages of a life -/

/-- What is true of a node at each stage of its life. -/
def Stage (m : Mem T) (R : Tid → Role) (a : Addr) : Life → Prop
  | .resting => m.allocated a = false ∨ m.InPool a ∨ ∃ t, (R t).renews = some a
  | .filled => ∃ t, (R t).filled = some a
  | .linked false taken => m.InQueue a ∧ (taken = false ↔ m.AfterHead a ∨ ∃ t, (R t).takes = some a)
  | .linked true taken => ¬ m.InQueue a ∧ (∃ t, (R t).Owes a ∨ (R t).returns = some a) ∧
      (taken = false ↔ ∃ t, (R t).takes = some a)

/-- The thread has claimed the value of the node and owes it an increment. -/
def Role.OwesValue (r : Role) (a : Addr) : Prop := r.takes = some a ∨ r.drops = some a

/-- As long as the counter of a node is even, both increments of its current use are still owed: the one of the thread that
has claimed its value from the time `head_` is at the node, the other one once `head_` has been moved past it. -/
structure Owed (m : Mem T) (R : Tid → Role) (l : Addr → Life) : Prop where
  head : ∀ a, m.head.value.rawPtr = some a → m.lastTryDel a = false → ∃ t, (R t).OwesValue a
  passes : ∀ t a, (R t).passes = some a → m.lastTryDel a = false → ∃ w, (R w).OwesValue a
  value : ∀ t a taken, (R t).OwesValue a → l a = .linked true taken → m.lastTryDel a = false → ∃ w, (R w).passes = some a

section Stages

variable {l : Life}

theorem Stage.of_held (h : Stage m R a l) (hgood : Good m x) (hplaced : Placed m x R) (hplace : x.place a = .held t) :
    (l = .resting ∧ (R t).renews = some a) ∨ (l = .filled ∧ (R t).filled = some a) ∨
      (l = .linked true true ∧ (R t).returns = some a) := by
  have hmine : ∀ {w}, (R w).Holds a → w = t := by
    intro w hw
    have hplace' := hplaced.holds w a hw
    rw [hplace] at hplace'
    cases hplace'
    rfl
  match l with
  | .resting =>
    rcases h with hfree | hpool | ⟨w, hw⟩
    · rw [hgood.free_of_not_allocated a hfree] at hplace
      cases hplace
    · rw [hgood.inPool.1 hpool] at hplace
      cases hplace
    · exact .inl ⟨rfl, hmine (.inl hw) ▸ hw⟩
  | .filled =>
    obtain ⟨w, hw⟩ := h
    exact .inr (.inl ⟨rfl, hmine (.inr (.inl hw)) ▸ hw⟩)
  | .linked false taken =>
    obtain ⟨i, _, _, _, hlinked⟩ := hgood.inQueue h.1
    rw [hplace] at hlinked
    cases hlinked
  | .linked true taken =>
    obtain ⟨_, ⟨w, howes | hw⟩, htaken⟩ := h
    · obtain ⟨i, hlinked⟩ := hplaced.owes howes
      rw [hplace] at hlinked
      cases hlinked
    · have htrue : taken = true := by
        cases taken with
        | true => rfl
        | false =>
          obtain ⟨v, hv⟩ := htaken.1 rfl
          obtain ⟨k, hlinked, _⟩ := hplaced.takes v a hv
          rw [hplace] at hlinked
          cases hlinked
      exact .inr (.inr ⟨by rw [htrue], hmine (.inr (.inr hw)) ▸ hw⟩)

theorem Stage.of_free (h : Stage m R a l) (hgood : Good m x) (hplaced : Placed m x R) (hplace : x.place a = .free) :
    l = .resting := by
  have hheld : ∀ {w}, ¬ (R w).Holds a := by
    intro w hw
    rw [hplaced.holds w a hw] at hplace
    cases hplace
  match l with
  | .resting => rfl
  | .filled =>
    obtain ⟨w, hw⟩ := h
    exact absurd (.inr (.inl hw)) hheld
  | .linked false taken =>
    obtain ⟨i, _, _, _, hlinked⟩ := hgood.inQueue h.1
    rw [hplace] at hlinked
    cases hlinked
  | .linked true taken =>
    obtain ⟨_, ⟨w, howes | hw⟩, _⟩ := h
    · obtain ⟨i, hlinked⟩ := hplaced.owes howes
      rw [hplace] at hlinked
      cases hlinked
    · exact absurd (.inr (.inr hw)) hheld

theorem Stage.of_linked (h : Stage m R a l) (hgood : Good m x) (hplaced : Placed m x R) {i : Nat}
    (hplace : x.place a = .linked i) :
    ∃ passed taken, l = .linked passed taken ∧ (passed = false ↔ m.InQueue a) ∧
      (taken = false ↔ m.AfterHead a ∨ ∃ t, (R t).takes = some a) := by
  have hheld : ∀ {w}, ¬ (R w).Holds a := by
    intro w hw
    rw [hplaced.holds w a hw] at hplace
    cases hplace
  match l with
  | .resting =>
    rcases h with hfree | hpool | ⟨w, hw⟩
    · rw [hgood.free_of_not_allocated a hfree] at hplace
      cases hplace
    · rw [hgood.inPool.1 hpool] at hplace
      cases hplace
    · exact absurd (.inl hw) hheld
  | .filled =>
    obtain ⟨w, hw⟩ := h
    exact absurd (.inr (.inl hw)) hheld
  | .linked false taken => exact ⟨false, taken, rfl, iff_of_true rfl h.1, h.2⟩
  | .linked true taken =>
    obtain ⟨hqueue, _, htaken⟩ := h
    refine ⟨true, taken, rfl, iff_of_false nofun hqueue, htaken.trans ⟨.inr, fun hor => ?_⟩⟩
    exact hor.resolve_left fun hafter => hqueue hafter.inQueue

end Stages

/-! ### One action -/

section Action

variable [DecidableEq Tid] {l l' : Addr → Life}

theorem exists_update (t : Tid) (r' : Role) (f : Role → Prop) (hkeep : f (R t) → f r') (h : ∃ w, f (R w)) :
    ∃ w, f (Function.update R t r' w) := by
  obtain ⟨w, hw⟩ := h
  by_cases hwt : w = t
  · subst hwt
    exact ⟨w, by rw [Function.update_self]; exact hkeep hw⟩
  · exact ⟨w, by rw [Function.update_of_ne hwt]; exact hw⟩

theorem exists_new (t : Tid) (f : Role → Prop) (h : f r') : ∃ w, f (Function.update R t r' w) :=
  ⟨t, by rwa [Function.update_self]⟩

theorem exists_of_update (f : Role → Prop) (h : ∃ w, f (Function.update R t r' w)) : f r' ∨ ∃ w, w ≠ t ∧ f (R w) := by
  obtain ⟨w, hw⟩ := h
  by_cases hwt : w = t
  · subst hwt
    rw [Function.update_self] at hw
    exact .inl hw
  · rw [Function.update_of_ne hwt] at hw
    exact .inr ⟨w, hwt, hw⟩

/-- The lives after an action: the node it uses goes on to its next stage. -/
def Advances (l : Addr → Life) (u : Option (Addr × Use)) (l' : Addr → Life) : Prop :=
  match u with
  | none => l' = l
  | some (a, how) => ∃ next, (l a).next how = some next ∧ l' = Function.update l a next

/-- A node that is not used stays at its stage. -/
theorem Stage.unused {s : Life} (h : Stage m R a s) (hflow : Flow m (R t) m' r' u) (hused : ∀ how, u ≠ some (a, how))
    (hbusy : ∀ taken, s = .linked true taken →
      ∃ w, (Function.update R t r' w).Owes a ∨ (Function.update R t r' w).returns = some a) :
    Stage m' (Function.update R t r') a s := by
  have htakes : (∃ w, (R w).takes = some a) → ∃ w, (Function.update R t r' w).takes = some a :=
    exists_update t _ (fun r => r.takes = some a) fun hmine => (hflow.takes a hmine).resolve_right (hused _)
  have htakes' : (∃ w, (Function.update R t r' w).takes = some a) → m.AfterHead a ∨ ∃ w, (R w).takes = some a := by
    intro hsome
    rcases exists_of_update (fun r => r.takes = some a) hsome with hnew | ⟨w, _, hw⟩
    · rcases hflow.takes_new a hnew with hold | hafter
      · exact .inr ⟨t, hold⟩
      · exact .inl hafter
    · exact .inr ⟨w, hw⟩
  match s with
  | .resting =>
    rcases h with hfree | hpool | hrenews
    · exact .inl ((hflow.allocated a hfree).resolve_right (hused _))
    · rcases hflow.pool a hpool with hpool' | hrenews
      · exact .inr (.inl hpool')
      · exact .inr (.inr (exists_new t (fun r => r.renews = some a) hrenews))
    · refine .inr (.inr (exists_update t _ (fun r => r.renews = some a) (fun hmine => ?_) hrenews))
      exact (hflow.renews a hmine).resolve_right (hused _)
  | .filled =>
    refine exists_update t _ (fun r => r.filled = some a) (fun hmine => ?_) h
    exact (hflow.filled a hmine).resolve_right (hused _)
  | .linked false taken =>
    obtain ⟨hqueue, htaken⟩ := h
    refine ⟨(hflow.queue a hqueue).resolve_right (hused _), htaken.trans ⟨fun hor => ?_, fun hor => ?_⟩⟩
    · rcases hor with hafter | hsome
      · rcases hflow.afterHead a hafter with hafter' | hnew
        · exact .inl hafter'
        · exact .inr (exists_new t (fun r => r.takes = some a) hnew)
      · exact .inr (htakes hsome)
    · rcases hor with hafter | hsome
      · exact .inl ((hflow.afterHead_new a hafter).resolve_right (hused _))
      · exact htakes' hsome
  | .linked true taken =>
    obtain ⟨hqueue, _, htaken⟩ := h
    refine ⟨fun hqueue' => ?_, hbusy taken rfl, htaken.trans ⟨htakes, fun hsome => ?_⟩⟩
    · exact hqueue ((hflow.queue_new a hqueue').resolve_right (hused _))
    · exact (htakes' hsome).resolve_left fun hafter => hqueue hafter.inQueue

/-- A node that is out of the list and not in the pool yet stays owed or in the hands of a thread. -/
theorem Effect.busy (h : Effect m (R t) m' r' u) (howed : Owed m R l) {taken : Bool} (hl : l a = .linked true taken)
    (hused : u ≠ some (a, .enter)) (hbusy : ∃ w, (R w).Owes a ∨ (R w).returns = some a) :
    ∃ w, (Function.update R t r' w).Owes a ∨ (Function.update R t r' w).returns = some a := by
  generalize hr : R t = r at h
  have hkeep : (r.Owes a ∨ r.returns = some a → r'.Owes a ∨ r'.returns = some a) →
      ∃ w, (Function.update R t r' w).Owes a ∨ (Function.update R t r' w).returns = some a := by
    intro himp
    exact exists_update t _ (fun r => r.Owes a ∨ r.returns = some a) (by rw [hr]; exact himp) hbusy
  cases h with
  | keep => exact hkeep id
  | fill hrole _ =>
    subst hrole
    exact hkeep (by rintro ((h | h | h) | h) <;> cases h)
  | unpool hrole =>
    subst hrole
    exact hkeep (by rintro ((h | h | h) | h) <;> cases h)
  | alloc hrole =>
    subst hrole
    exact hkeep (by rintro ((h | h | h) | h) <;> cases h)
  | link hrole =>
    subst hrole
    exact hkeep (by rintro ((h | h | h) | h) <;> cases h)
  | moveHead hrole =>
    subst hrole
    exact hkeep (by rintro ((h | h | h) | h) <;> cases h)
  | take hrole _ =>
    subst hrole
    apply hkeep
    rintro ((h | h | h) | h) <;> cases h
    exact .inl (.inr (.inr rfl))
  | enter hrole =>
    subst hrole
    apply hkeep
    rintro ((h | h | h) | h)
    · cases h
    · exact .inl (.inr (.inl h))
    · cases h
    · cases h
      exact absurd rfl hused
  | @dropHead b c hrole =>
    subst hrole
    by_cases hlast : m.lastTryDel b = true
    · simp only [hlast, if_true] at hkeep ⊢
      apply hkeep
      rintro ((h | h | h) | h)
      · exact .inr h
      · exact .inl (.inr (.inl h))
      · cases h
      · cases h
    · simp only [hlast] at hkeep ⊢
      by_cases hab : a = b
      · -- the first of the two increments: the thread that has claimed the value owes the other one
        subst hab
        have hvalue := howed.passes t a (by rw [hr]) (Bool.eq_false_iff.2 hlast)
        obtain ⟨w, hw⟩ := exists_update t { takes := some c } (fun r => r.OwesValue a) (by
          rw [hr]
          rintro (h | h)
          · exact .inl h
          · cases h) hvalue
        exact ⟨w, .inl (.inr hw)⟩
      · apply hkeep
        rintro ((h | h | h) | h)
        · cases h
          exact absurd rfl hab
        · exact .inl (.inr (.inl h))
        · cases h
        · cases h
  | @dropNext b hrole =>
    subst hrole
    by_cases hlast : m.lastTryDel b = true
    · simp only [hlast, if_true] at hkeep ⊢
      apply hkeep
      rintro ((h | h | h) | h) <;> cases h
      exact .inr rfl
    · simp only [hlast] at hkeep ⊢
      by_cases hab : a = b
      · subst hab
        have hpasses := howed.value t a taken (.inr (by rw [hr])) hl (Bool.eq_false_iff.2 hlast)
        obtain ⟨w, hw⟩ := exists_update t {} (fun r => r.passes = some a) (by rw [hr]; nofun) hpasses
        exact ⟨w, .inl (.inl hw)⟩
      · apply hkeep
        rintro ((h | h | h) | h) <;> cases h
        exact absurd rfl hab

/-- The node that is used goes on to its next stage. -/
theorem Effect.used (h : Effect m (R t) m' r' u) (hgood : Good m x) (hplaced : Placed m x R)
    (hstage : ∀ a, Stage m R a (l a)) {how : Use} (hu : u = some (a, how)) :
    ∃ next, (l a).next how = some next ∧ Stage m' (Function.update R t r') a next := by
  have hflow := h.flow hgood hplaced
  generalize hr : R t = r at h hflow
  cases h with
  | keep => cases hu
  | unpool => cases hu
  | dropHead => cases hu
  | dropNext => cases hu
  | fill hrole _ =>
    subst hrole
    cases hu
    have hl : l a = .resting := by
      rcases (hstage a).of_held hgood hplaced (hplaced.holds t a (.inl (by rw [hr]))) with
        ⟨hl, _⟩ | ⟨_, hrole⟩ | ⟨_, hrole⟩
      · exact hl
      · rw [hr] at hrole
        cases hrole
      · rw [hr] at hrole
        cases hrole
    rw [hl]
    exact ⟨.filled, rfl, exists_new t (fun r => r.filled = some a) rfl⟩
  | alloc hrole hnew =>
    cases hu
    rw [(hstage a).of_free hgood hplaced (hgood.free_of_not_allocated a hnew)]
    exact ⟨.filled, rfl, exists_new t (fun r => r.filled = some a) rfl⟩
  | @link _ b hrole ha hb hlast hsucc hhead _ _ _ =>
    subst hrole
    cases hu
    have hl : l a = .filled := by
      rcases (hstage a).of_held hgood hplaced (hplaced.holds t a (.inr (.inl (by rw [hr])))) with
        ⟨_, hrole⟩ | ⟨hl, _⟩ | ⟨_, hrole⟩
      · rw [hr] at hrole
        cases hrole
      · exact hl
      · rw [hr] at hrole
        cases hrole
    rw [hl]
    have hafter : m'.AfterHead a := by
      have hb' := (hflow.queue b hb).resolve_right nofun
      exact Mem.Reaches.tail hb' (by rw [hsucc, Function.update_self])
    exact ⟨.linked false false, rfl, hafter.inQueue, iff_of_true rfl (.inl hafter)⟩
  | @moveHead _ b hrole hhead hsucc hhead' _ _ _ =>
    subst hrole
    cases hu
    have hqueue : m.InQueue a := ⟨0, hhead⟩
    obtain ⟨i, _, _, _, hplace⟩ := hgood.inQueue hqueue
    obtain ⟨passed, taken, hl, hpassed, htaken⟩ := (hstage a).of_linked hgood hplaced hplace
    rw [hpassed.2 hqueue] at hl
    rw [hl]
    have hnot := hgood.not_afterHead_head hhead
    have htakes : taken = false ↔ ∃ w, (R w).takes = some a := by
      rw [htaken]
      exact ⟨fun hor => hor.resolve_left hnot, .inr⟩
    have hne : a ≠ b := by
      rintro rfl
      exact hnot ⟨0, by rw [hhead]; exact hsucc⟩
    refine ⟨.linked true taken, rfl, hflow.passed a rfl,
      exists_new t (fun r => r.Owes a ∨ r.returns = some a) (.inl (.inl rfl)),
      htakes.trans ⟨fun hsome => ?_, fun hsome => ?_⟩⟩
    · exact exists_update t _ (fun r => r.takes = some a) (by rw [hr]; nofun) hsome
    · rcases exists_of_update (fun r => r.takes = some a) hsome with hnew | ⟨w, _, hw⟩
      · cases hnew
        exact absurd rfl hne
      · exact ⟨w, hw⟩
  | @take _ hrole hsame =>
    subst hrole
    cases hu
    obtain ⟨k, hplace, hlt, hpopper, _⟩ := hplaced.takes t a (by rw [hr])
    obtain ⟨passed, taken, hl, hpassed, htaken⟩ := (hstage a).of_linked hgood hplaced hplace
    rw [htaken.2 (.inr ⟨t, by rw [hr]⟩)] at hl
    rw [hl]
    have hnone : ¬ ∃ w, (Function.update R t { drops := some a } w).takes = some a := by
      intro hsome
      rcases exists_of_update (fun r => r.takes = some a) hsome with hnew | ⟨w, hwt, hw⟩
      · cases hnew
      · obtain ⟨k', hplace', _, hpopper', _⟩ := hplaced.takes w a hw
        rw [hplace] at hplace'
        cases hplace'
        rw [hpopper] at hpopper'
        exact hwt (Option.some.inj hpopper').symm
    refine ⟨.linked passed true, by cases passed <;> rfl, ?_⟩
    cases passed with
    | false =>
      refine ⟨(hflow.queue a (hpassed.1 rfl)).resolve_right nofun, iff_of_false nofun ?_⟩
      rintro (hafter | hsome)
      · obtain ⟨i, hi, hlinked⟩ := hgood.afterHead ((hflow.afterHead_new a hafter).resolve_right nofun)
        rw [hplace] at hlinked
        cases hlinked
        omega
      · exact hnone hsome
    | true =>
      refine ⟨fun hqueue => ?_, exists_new t (fun r => r.Owes a ∨ r.returns = some a) (.inl (.inr (.inr rfl))),
        iff_of_false nofun hnone⟩
      exact Bool.noConfusion (hpassed.2 ((hflow.queue_new a hqueue).resolve_right nofun))
  | enter hrole hsucc htop _ _ _ =>
    subst hrole
    cases hu
    have hl : l a = .linked true true := by
      rcases (hstage a).of_held hgood hplaced (hplaced.holds t a (.inr (.inr (by rw [hr])))) with
        ⟨_, hrole⟩ | ⟨_, hrole⟩ | ⟨hl, _⟩
      · rw [hr] at hrole
        cases hrole
      · rw [hr] at hrole
        cases hrole
      · exact hl
    rw [hl]
    exact ⟨.resting, rfl, .inr (.inl ⟨0, htop⟩)⟩

/-- An action that neither moves `head_` nor increments a counter. -/
theorem Owed.mono (h : Owed m R l) (hgood : Good m x) (hplaced : Placed m x R)
    (hhead : m'.head.value.rawPtr = m.head.value.rawPtr)
    (hcount : ∀ a i, x.place a = .linked i → m'.lastTryDel a = m.lastTryDel a)
    (hvalue : ∀ a, (R t).OwesValue a ↔ r'.OwesValue a) (hpasses : r'.passes = (R t).passes)
    (hl : ∀ a taken, l' a = .linked true taken → ∃ taken', l a = .linked true taken') :
    Owed m' (Function.update R t r') l' := by
  have hkeep : ∀ {a}, (∃ w, (R w).OwesValue a) → ∃ w, (Function.update R t r' w).OwesValue a := by
    intro a
    exact exists_update t r' (fun r => r.OwesValue a) (hvalue a).1
  have hvalue' : ∀ {w a}, (Function.update R t r' w).OwesValue a → (R w).OwesValue a := by
    intro w a hw
    by_cases hwt : w = t
    · subst hwt
      rw [Function.update_self] at hw
      exact (hvalue a).2 hw
    · rwa [Function.update_of_ne hwt] at hw
  have hpasses' : ∀ w, (Function.update R t r' w).passes = (R w).passes := by
    intro w
    by_cases hwt : w = t
    · subst hwt
      rw [Function.update_self, hpasses]
    · rw [Function.update_of_ne hwt]
  constructor
  · intro a ha heven
    rw [hhead] at ha
    obtain ⟨i, _, _, _, hplace⟩ := hgood.inQueue ⟨0, ha⟩
    rw [hcount a i hplace] at heven
    exact hkeep (h.head a ha heven)
  · intro w a ha heven
    rw [hpasses'] at ha
    obtain ⟨k, hplace, _⟩ := hplaced.passes w a ha
    rw [hcount a k hplace] at heven
    exact hkeep (h.passes w a ha heven)
  · intro w a taken ha hla heven
    obtain ⟨taken', hla'⟩ := hl a taken hla
    obtain ⟨i, hplace⟩ := hplaced.owes (.inr (hvalue' ha))
    rw [hcount a i hplace] at heven
    obtain ⟨v, hv⟩ := h.value w a taken' (hvalue' ha) hla' heven
    exact ⟨v, by rw [hpasses', hv]⟩

/-- The increment that makes the counter of a node even again is the last one that was owed. -/
theorem Owed.drop {b : Addr} (h : Owed m R l) (hhead : m'.head = m.head)
    (hnode : m'.node = Function.update m.node b (m.node b).bumpTryDel)
    (hvalue : ∀ a, a ≠ b → ((R t).OwesValue a ↔ r'.OwesValue a))
    (hpasses : ∀ a, a ≠ b → ((R t).passes = some a ↔ r'.passes = some a))
    (hlast : m.lastTryDel b = true → m.head.value.rawPtr ≠ some b ∧ (∀ w, (Function.update R t r' w).passes ≠ some b) ∧
      ∀ w, ¬ (Function.update R t r' w).OwesValue b) : Owed m' (Function.update R t r') l := by
  have hother : ∀ {a}, a ≠ b → m'.lastTryDel a = m.lastTryDel a := by
    intro a hab
    simp only [Mem.lastTryDel, hnode, ne_eq, hab, not_false_eq_true, Function.update_of_ne]
  have hself : m'.lastTryDel b = false → m.lastTryDel b = true := by
    simp only [Mem.lastTryDel, hnode, Function.update_self, Node.bumpTryDel, decide_eq_false_iff_not, decide_eq_true_eq]
    omega
  have hvalue' : ∀ {w a}, a ≠ b → (Function.update R t r' w).OwesValue a → (R w).OwesValue a := by
    intro w a hab hw
    by_cases hwt : w = t
    · subst hwt
      rw [Function.update_self] at hw
      exact (hvalue a hab).2 hw
    · rwa [Function.update_of_ne hwt] at hw
  constructor
  · intro a ha heven
    rw [hhead] at ha
    by_cases hab : a = b
    · subst hab
      exact absurd ha (hlast (hself heven)).1
    · rw [hother hab] at heven
      exact exists_update t r' (fun r => r.OwesValue a) (hvalue a hab).1 (h.head a ha heven)
  · intro w a ha heven
    by_cases hab : a = b
    · subst hab
      exact absurd ha ((hlast (hself heven)).2.1 w)
    · rw [hother hab] at heven
      have hold : (R w).passes = some a := by
        by_cases hwt : w = t
        · subst hwt
          rw [Function.update_self] at ha
          exact (hpasses a hab).2 ha
        · rwa [Function.update_of_ne hwt] at ha
      exact exists_update t r' (fun r => r.OwesValue a) (hvalue a hab).1 (h.passes w a hold heven)
  · intro w a taken ha hla heven
    by_cases hab : a = b
    · subst hab
      exact absurd ha ((hlast (hself heven)).2.2 w)
    · rw [hother hab] at heven
      exact exists_update t r' (fun r => r.passes = some a) (hpasses a hab).1 (h.value w a taken (hvalue' hab ha) hla heven)

omit [DecidableEq Tid] in
/-- Only `head_` moves a node out of the list. -/
theorem Advances.linked_true (h : Advances l u l') (hpass : ∀ a, u ≠ some (a, .pass)) {taken : Bool}
    (hl : l' a = .linked true taken) : ∃ taken', l a = .linked true taken' := by
  match u with
  | none =>
    cases h
    exact ⟨taken, hl⟩
  | some (b, how) =>
    obtain ⟨next, hnext, rfl⟩ := h
    by_cases hab : a = b
    · subst hab
      rw [Function.update_self] at hl
      subst hl
      have hhow : how ≠ .pass := fun heq => hpass a (by rw [heq])
      revert hnext
      cases l a with
      | resting => cases how <;> nofun
      | filled => cases how <;> nofun
      | linked passed taken₀ =>
        cases passed with
        | true => exact fun _ => ⟨taken₀, rfl⟩
        | false =>
          intro hnext
          cases how with
          | pass => exact absurd rfl hhow
          | _ => cases taken₀ <;> cases hnext
    · rw [Function.update_of_ne hab] at hl
      exact ⟨taken, hl⟩

theorem Effect.owed_moveHead {b : Addr} (howed : Owed m R l) (hstage : ∀ a, Stage m R a (l a)) (hr : R t = {})
    (hhead : m.head.value.rawPtr = some a) (hsucc : m.succ a = some b) (hhead' : m'.head.value.rawPtr = some b)
    (hnode : m'.node = m.node) (hadvances : Advances l (some (a, .pass)) l') :
    Owed m' (Function.update R t { passes := some a, takes := some b }) l' := by
  have hcount : ∀ c, m'.lastTryDel c = m.lastTryDel c := by
    intro c
    simp only [Mem.lastTryDel, hnode]
  have hkeep : ∀ {c}, (∃ w, (R w).OwesValue c) →
      ∃ w, (Function.update R t { passes := some a, takes := some b } w).OwesValue c := by
    intro c
    refine exists_update t _ (fun r => r.OwesValue c) ?_
    rw [hr]
    rintro (h | h) <;> cases h
  obtain ⟨next, hnext, rfl⟩ := hadvances
  constructor
  · intro c hc _
    rw [hhead'] at hc
    cases hc
    exact exists_new t (fun r => r.OwesValue b) (.inl rfl)
  · intro w c hc heven
    rw [hcount] at heven
    by_cases hwt : w = t
    · subst hwt
      rw [Function.update_self] at hc
      cases hc
      exact hkeep (howed.head a hhead heven)
    · rw [Function.update_of_ne hwt] at hc
      exact hkeep (howed.passes w c hc heven)
  · intro w c taken hc hl heven
    rw [hcount] at heven
    by_cases hca : c = a
    · subst hca
      exact exists_new t (fun r => r.passes = some c) rfl
    · rw [Function.update_of_ne hca] at hl
      by_cases hwt : w = t
      · -- the new first node of the list is in the list
        subst hwt
        rw [Function.update_self] at hc
        rcases hc with hc | hc <;> cases hc
        have hout := hstage b
        rw [hl] at hout
        exact absurd ⟨1, by rw [hhead]; exact hsucc⟩ hout.1
      · rw [Function.update_of_ne hwt] at hc
        refine exists_update t _ (fun r => r.passes = some c) ?_ (howed.value w c taken hc hl heven)
        rw [hr]
        rintro ⟨⟩

theorem Effect.owed_dropHead {b : Addr} (howed : Owed m R l) (hgood : Good m x) (hplaced : Placed m x R)
    (hr : R t = { passes := some a, takes := some b }) (hhead : m'.head = m.head)
    (hnode : m'.node = Function.update m.node a (m.node a).bumpTryDel) (hpasses : r'.passes = none) (htakes : r'.takes = some b)
    (hdrops : r'.drops = none) : Owed m' (Function.update R t r') l := by
  have hvalue : ∀ c, (R t).OwesValue c ↔ r'.OwesValue c := by
    intro c
    rw [hr]
    simp only [Role.OwesValue, htakes, hdrops]
  refine howed.drop hhead hnode (fun c _ => hvalue c) (fun c hc => ?_) fun hlast => ?_
  · rw [hr, hpasses]
    simp only [Option.some.injEq, reduceCtorEq, iff_false]
    exact fun heq => hc heq.symm
  · obtain ⟨k, hplace, hlt, hpopper, hpassed⟩ := hplaced.passes t a (by rw [hr])
    have hdone : x.valueDone k = true := by
      refine ((hgood.lastTryDel hplace).1 hlast).resolve_right ?_
      rw [hpassed]
      nofun
    refine ⟨fun heq => ?_, fun w hw => ?_, fun w hw => ?_⟩
    · obtain ⟨i, hi, _, _, hplace'⟩ := hgood.inQueue ⟨0, heq⟩
      rw [hplace] at hplace'
      cases hplace'
      omega
    · by_cases hwt : w = t
      · subst hwt
        rw [Function.update_self, hpasses] at hw
        cases hw
      · rw [Function.update_of_ne hwt] at hw
        obtain ⟨k', hplace', _, hpopper', _⟩ := hplaced.passes w a hw
        rw [hplace] at hplace'
        cases hplace'
        rw [hpopper] at hpopper'
        exact hwt (Option.some.inj hpopper').symm
    · have hold : (R w).OwesValue a := by
        by_cases hwt : w = t
        · subst hwt
          rw [Function.update_self] at hw
          exact (hvalue a).2 hw
        · rwa [Function.update_of_ne hwt] at hw
      obtain ⟨i, hplace', hnot⟩ : ∃ i, x.place a = .linked i ∧ x.valueDone i = false := by
        rcases hold with hold | hold
        · obtain ⟨k', hplace', _, _, hnot, _⟩ := hplaced.takes w a hold
          exact ⟨k' + 1, hplace', hnot⟩
        · obtain ⟨k', hplace', _, _, hnot, _⟩ := hplaced.drops w a hold
          exact ⟨k' + 1, hplace', hnot⟩
      rw [hplace] at hplace'
      cases hplace'
      rw [hdone] at hnot
      cases hnot

theorem Effect.owed_dropNext (howed : Owed m R l) (hgood : Good m x) (hplaced : Placed m x R)
    (hr : R t = { drops := some a })
    (hhead : m'.head = m.head) (hnode : m'.node = Function.update m.node a (m.node a).bumpTryDel) (hpasses : r'.passes = none)
    (htakes : r'.takes = none) (hdrops : r'.drops = none) : Owed m' (Function.update R t r') l := by
  have hnone : ∀ c, ¬ r'.OwesValue c := by
    rintro c (h | h)
    · rw [htakes] at h
      cases h
    · rw [hdrops] at h
      cases h
  refine howed.drop hhead hnode (fun c hc => iff_of_false ?_ (hnone c)) (fun c _ => by rw [hr, hpasses]) fun hlast => ?_
  · rw [hr]
    rintro (h | h) <;> cases h
    exact hc rfl
  · obtain ⟨k, hplace, hlt, hpopper, hnot, _⟩ := hplaced.drops t a (by rw [hr])
    have hpassed : x.passedDone (k + 1) = true := by
      refine ((hgood.lastTryDel hplace).1 hlast).resolve_left ?_
      rw [hnot]
      nofun
    have hbelow := hgood.passed_lt (k + 1) hpassed
    refine ⟨fun heq => ?_, fun w hw => ?_, fun w hw => ?_⟩
    · obtain ⟨i, hi, _, _, hplace'⟩ := hgood.inQueue ⟨0, heq⟩
      rw [hplace] at hplace'
      cases hplace'
      omega
    · have hold : (R w).passes = some a := by
        by_cases hwt : w = t
        · subst hwt
          rw [Function.update_self, hpasses] at hw
          cases hw
        · rwa [Function.update_of_ne hwt] at hw
      obtain ⟨k', hplace', _, _, hpassed'⟩ := hplaced.passes w a hold
      rw [hplace] at hplace'
      cases hplace'
      rw [hpassed] at hpassed'
      cases hpassed'
    · have hwt : w ≠ t := by
        rintro rfl
        rw [Function.update_self] at hw
        exact hnone a hw
      rw [Function.update_of_ne hwt] at hw
      obtain ⟨k', hplace', hpopper'⟩ : ∃ k', x.place a = .linked (k' + 1) ∧ x.popper k' = some w := by
        rcases hw with hw | hw
        · obtain ⟨k', hplace', _, hpopper', _⟩ := hplaced.takes w a hw
          exact ⟨k', hplace', hpopper'⟩
        · obtain ⟨k', hplace', _, hpopper', _⟩ := hplaced.drops w a hw
          exact ⟨k', hplace', hpopper'⟩
      rw [hplace] at hplace'
      cases hplace'
      rw [hpopper] at hpopper'
      exact hwt (Option.some.inj hpopper').symm

theorem Effect.owed (h : Effect m (R t) m' r' u) (hgood : Good m x) (hplaced : Placed m x R)
    (hstage : ∀ a, Stage m R a (l a)) (howed : Owed m R l) (hadvances : Advances l u l') :
    Owed m' (Function.update R t r') l' := by
  generalize hr : R t = r at h
  have hmono : (∀ a, u ≠ some (a, .pass)) → m'.head.value.rawPtr = m.head.value.rawPtr →
      (∀ a i, x.place a = .linked i → (m'.node a).tryDelCount = (m.node a).tryDelCount) →
      (∀ a, r.OwesValue a ↔ r'.OwesValue a) → r'.passes = r.passes → Owed m' (Function.update R t r') l' := by
    intro hpass hhead hcount hvalue hpasses
    refine howed.mono hgood hplaced hhead (fun a i hplace => ?_) (by rw [hr]; exact hvalue) (by rw [hr, hpasses])
      fun a taken hl => hadvances.linked_true hpass hl
    simp only [Mem.lastTryDel, hcount a i hplace]
  have hneither : ∀ {r r' : Role}, r.takes = r'.takes → r.drops = r'.drops → ∀ a, r.OwesValue a ↔ r'.OwesValue a := by
    intro r r' htakes hdrops a
    rw [Role.OwesValue, htakes, hdrops]
    rfl
  cases h with
  | keep hhead _ _ _ hcount => exact hmono (by simp) hhead (fun a _ _ => hcount a) (fun _ => Iff.rfl) rfl
  | fill hrole hsame =>
    subst hrole
    exact hmono (by simp) hsame.head (fun a _ _ => hsame.count a) (hneither rfl rfl) rfl
  | unpool hrole _ _ hhead _ hnode =>
    subst hrole
    exact hmono (by simp) hhead (fun a _ _ => by rw [hnode]) (hneither rfl rfl) rfl
  | @alloc a hrole hnew _ hhead _ hnode =>
    subst hrole
    refine hmono (by simp) hhead (fun b i hplace => ?_) (hneither rfl rfl) rfl
    have hne : b ≠ a := by
      rintro rfl
      rw [hgood.free_of_not_allocated b hnew] at hplace
      cases hplace
    rw [hnode b hne]
  | link hrole _ _ _ _ hhead _ _ hcount =>
    subst hrole
    exact hmono (by simp) hhead (fun a _ _ => hcount a) (hneither rfl rfl) rfl
  | take hrole hsame =>
    subst hrole
    refine hmono (by simp) hsame.head (fun a _ _ => hsame.count a) (fun a => ?_) rfl
    exact or_comm
  | enter hrole _ _ hhead _ hnode =>
    subst hrole
    exact hmono (by simp) hhead (fun a _ _ => by rw [hnode]) (hneither rfl rfl) rfl
  | moveHead hrole hhead hsucc hhead' _ _ hnode =>
    subst hrole
    exact Effect.owed_moveHead howed hstage hr hhead hsucc hhead' hnode hadvances
  | dropHead hrole hhead _ _ hnode =>
    subst hrole
    cases hadvances
    apply Effect.owed_dropHead howed hgood hplaced hr hhead hnode <;> split <;> rfl
  | dropNext hrole hhead _ _ hnode =>
    subst hrole
    cases hadvances
    apply Effect.owed_dropNext howed hgood hplaced hr hhead hnode <;> split <;> rfl

/-- Every action takes the nodes on in the order of their lives. -/
theorem Effect.advances (h : Effect m (R t) m' r' u) (hgood : Good m x) (hplaced : Placed m x R)
    (hstage : ∀ a, Stage m R a (l a)) (howed : Owed m R l) :
    ∃ l', Advances l u l' ∧ (∀ a, Stage m' (Function.update R t r') a (l' a)) ∧ Owed m' (Function.update R t r') l' := by
  have hflow := h.flow hgood hplaced
  have hunused : ∀ a, (∀ how, u ≠ some (a, how)) → Stage m' (Function.update R t r') a (l a) := by
    intro a hused
    refine (hstage a).unused hflow hused fun taken hl => ?_
    have hout := hstage a
    rw [hl] at hout
    exact h.busy howed hl (hused _) hout.2.1
  match u with
  | none => exact ⟨l, rfl, fun a => hunused a nofun, h.owed hgood hplaced hstage howed rfl⟩
  | some (b, how) =>
    obtain ⟨next, hnext, hstage'⟩ := h.used hgood hplaced hstage rfl
    have hadvances : Advances l (some (b, how)) (Function.update l b next) := ⟨next, hnext, rfl⟩
    refine ⟨Function.update l b next, hadvances, fun a => ?_, h.owed hgood hplaced hstage howed hadvances⟩
    by_cases hab : a = b
    · subst hab
      rw [Function.update_self]
      exact hstage'
    · rw [Function.update_of_ne hab]
      refine hunused a fun how' heq => hab ?_
      cases heq
      rfl

end Action

end CppConcur.LockFree.Queue
