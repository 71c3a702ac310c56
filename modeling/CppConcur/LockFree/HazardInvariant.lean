import CppConcur.LockFree.Hazard

/-!
# Who owns a node

Every address is free, or its node is private to the thread that pushes it, linked in a stack, in the
hands of the thread that has popped it, or in one retired list. A protected node was the top of its
stack when it was validated, so it is linked, popped or retired ever since, and its link does not
change. A thread retires a node before it scans, so a scan that has passed the slot of a thread knows
every node of the own retired list that this thread holds protected.
-/

namespace CppConcur.LockFree.Hazard

variable {Tid S α : Type*}

/-- Who owns an address. -/
inductive Owner (Tid S : Type*) where
  | free
  | fresh (t : Tid)
  | linked (s : S)
  | popped (t : Tid)
  | retired (i : Nat)

/-- The owners of the addresses and the nodes of each stack, the top first. -/
structure Aux (Tid S : Type*) where
  own : Addr → Owner Tid S
  list : S → List Addr

/-- The nodes of a list in memory. -/
def Chain (next : Addr → Option Addr) : Option Addr → List Addr → Prop
  | p, [] => p = none
  | p, a :: rest => p = some a ∧ Chain next (next a) rest

theorem Chain.congr {next next' : Addr → Option Addr} {p : Option Addr} {l : List Addr} (h : Chain next p l)
    (hsame : ∀ a ∈ l, next' a = next a) : Chain next' p l := by
  induction l generalizing p with
  | nil => exact h
  | cons a rest ih =>
    refine ⟨h.1, ?_⟩
    rw [hsame a List.mem_cons_self]
    exact ih h.2 fun b hb => hsame b (List.mem_cons_of_mem _ hb)

/-! ### The invariant of the memory -/

/-- A protected node is not private to a thread that pushes it. -/
def Held (x : Aux Tid S) (s : S) (a : Addr) : Prop :=
  x.own a = .linked s ∨ (∃ u, x.own a = .popped u) ∨ ∃ i, x.own a = .retired i

/-- The invariant of the memory. -/
structure Good (m : Mem Tid S α) (x : Aux Tid S) : Prop where
  free : ∀ a, x.own a = .free ↔ m.alive a = false
  linked : ∀ s a, a ∈ x.list s ↔ x.own a = .linked s
  nodup : ∀ s, (x.list s).Nodup
  chain : ∀ s, m.destroyer s = none → Chain m.next (m.top s) (x.list s)
  retired : ∀ i a, a ∈ m.retired i ↔ x.own a = .retired i
  retired_nodup : ∀ i, (m.retired i).Nodup
  retired_new : ∀ i, m.nextIdx ≤ i → m.retired i = []
  idx_lt : ∀ t i, m.idx t = some i → i < m.nextIdx ∧ i < maxThreads
  idx_inj : ∀ t u i, m.idx t = some i → m.idx u = some i → t = u
  slot : ∀ t a, m.guarded t = some a → ∃ i, m.idx t = some i ∧ m.slot i 0 = some a
  guarded : ∀ t a, m.guarded t = some a → ∃ s, m.user t = some s ∧ Held x s a
  unused : ∀ s u, m.destroyer s = some u → ∀ t, m.user t ≠ some s

/-! ### Histories -/

/-- The nodes of the pushes. -/
def pushedNodes : List (Event S α) → List Nat
  | [] => []
  | .push _ node _ :: history => node :: pushedNodes history
  | .pop _ _ _ :: history => pushedNodes history

/-- The nodes of the pops. -/
def poppedNodes : List (Event S α) → List Nat
  | [] => []
  | .push _ _ _ :: history => poppedNodes history
  | .pop _ node _ :: history => node :: poppedNodes history

theorem pushedNodes_append (history history' : List (Event S α)) :
    pushedNodes (history ++ history') = pushedNodes history ++ pushedNodes history' := by
  induction history with
  | nil => rfl
  | cons event history ih => cases event <;> simp only [List.cons_append, pushedNodes, ih]

theorem poppedNodes_append (history history' : List (Event S α)) :
    poppedNodes (history ++ history') = poppedNodes history ++ poppedNodes history' := by
  induction history with
  | nil => rfl
  | cons event history ih => cases event <;> simp only [List.cons_append, poppedNodes, ih]

section Decidable

variable [DecidableEq S]

/-- A valid history of sequential stacks: every pop takes the node on top of its stack. -/
def Legal (history : List (Event S α)) : Prop :=
  ∀ before s node value after, history = before ++ .pop s node value :: after →
    (contents s before).head? = some (node, value)

theorem contents_append_push (s s' : S) (history : List (Event S α)) (node : Nat) (value : α) :
    contents s (history ++ [.push s' node value]) =
      if s' = s then (node, value) :: contents s history else contents s history := by
  simp only [contents, List.foldl_append, List.foldl_cons, List.foldl_nil]

theorem contents_append_pop (s s' : S) (history : List (Event S α)) (node : Nat) (value : α) :
    contents s (history ++ [.pop s' node value]) =
      if s' = s then (contents s history).tail else contents s history := by
  simp only [contents, List.foldl_append, List.foldl_cons, List.foldl_nil]

theorem append_singleton_eq {β : Type*} {before after history : List β} {event last : β}
    (h : history ++ [last] = before ++ event :: after) :
    (∃ after', history = before ++ event :: after' ) ∨ history = before ∧ last = event := by
  rcases List.eq_nil_or_concat after with rfl | ⟨after', e, rfl⟩
  · right
    have hinj := List.append_inj' h rfl
    exact ⟨hinj.1, (List.cons.inj hinj.2).1⟩
  · left
    refine ⟨after', ?_⟩
    have heq : history ++ [last] = (before ++ event :: after') ++ [e] := by
      rw [h]
      simp
    exact (List.append_inj' heq rfl).1

theorem Legal.push {history : List (Event S α)} (h : Legal history) (s : S) (node : Nat) (value : α) :
    Legal (history ++ [.push s node value]) := by
  intro before s' node' value' after heq
  rcases append_singleton_eq heq with ⟨after', hold⟩ | ⟨_, hnew⟩
  · exact h before s' node' value' after' hold
  · cases hnew

theorem Legal.pop {history : List (Event S α)} (h : Legal history) {s : S} {node : Nat} {value : α}
    (htop : (contents s history).head? = some (node, value)) : Legal (history ++ [.pop s node value]) := by
  intro before s' node' value' after heq
  rcases append_singleton_eq heq with ⟨after', hold⟩ | ⟨rfl, hnew⟩
  · exact h before s' node' value' after' hold
  · cases hnew
    exact htop

/-- The history agrees with the memory. -/
structure Recorded (m : Mem Tid S α) (x : Aux Tid S) : Prop where
  contents : ∀ s, m.destroyer s = none → contents s m.history = (x.list s).map fun a => (m.ident a, m.value a)
  legal : Legal m.history
  ident_lt : ∀ a, x.own a ≠ .free → m.ident a < m.allocated
  ident_inj : ∀ a b, x.own a ≠ .free → x.own b ≠ .free → m.ident a = m.ident b → a = b
  pushed_lt : ∀ node ∈ pushedNodes m.history, node < m.allocated
  pushed_nodup : (pushedNodes m.history).Nodup
  pushed_fresh : ∀ a t, x.own a = .fresh t → m.ident a ∉ pushedNodes m.history
  pushed_linked : ∀ a s, x.own a = .linked s → m.ident a ∈ pushedNodes m.history
  popped_pushed : ∀ node ∈ poppedNodes m.history, node ∈ pushedNodes m.history
  popped_nodup : (poppedNodes m.history).Nodup
  popped_linked : ∀ a s, x.own a = .linked s → m.ident a ∉ poppedNodes m.history

end Decidable

/-! ### The assertions of the threads -/

/-- What a scan has seen of the protected nodes in the own retired list, before slot `j` of thread `i`. -/
def Scanned (t : Tid) (m : Mem Tid S α) (x : Aux Tid S) (i j : Nat) (hazards : List Addr) : Prop :=
  ∀ u a k own, m.guarded u = some a → m.idx u = some k → m.idx t = some own → x.own a = .retired own →
    k < i ∨ k = i ∧ 0 < j → a ∈ hazards

/-- A complete scan. -/
def ScannedAll (t : Tid) (m : Mem Tid S α) (x : Aux Tid S) (hazards : List Addr) : Prop :=
  ∀ u a own, m.guarded u = some a → m.idx t = some own → x.own a = .retired own → a ∈ hazards

/-- No node of the own retired list is protected. -/
def Unprotected (t : Tid) (m : Mem Tid S α) : Prop :=
  ∀ i, m.idx t = some i → ∀ a ∈ m.retired i, ∀ u, m.guarded u ≠ some a

/-- What a thread knows at its place. -/
def Assertion (t : Tid) (m : Mem Tid S α) (x : Aux Tid S) : Pc S α → Prop
  | .idle => m.user t = none ∧ m.guarded t = none
  | .pushNew s _ => m.user t = some s ∧ m.guarded t = none
  | .pushLoad s a => m.user t = some s ∧ m.guarded t = none ∧ x.own a = .fresh t
  | .pushCas s a => m.user t = some s ∧ m.guarded t = none ∧ x.own a = .fresh t
  | .popMutator s => m.user t = some s ∧ m.guarded t = none
  | .protectLoad s => m.user t = some s
  | .protectSet s _ => m.user t = some s
  | .protectCheck s obj => m.user t = some s ∧ m.guarded t = none ∧ ∃ i, m.idx t = some i ∧ m.slot i 0 = obj
  | .popNext s a => m.user t = some s ∧ m.guarded t = some a
  | .popCas s a next => m.user t = some s ∧ m.guarded t = some a ∧ m.next a = next
  | .popTake a => x.own a = .popped t ∧ m.claimed t = some (m.value a)
  | .popRetire a v => x.own a = .popped t ∧ m.claimed t = some v
  | .scanSlot v i j hazards => m.claimed t = some v ∧ Scanned t m x i j hazards
  | .scanLoop v _ hazards => m.claimed t = some v ∧ ScannedAll t m x hazards
  | .popReset v => m.claimed t = some v
  | .popGuard v => m.claimed t = some v
  | .popNull sawEmpty => sawEmpty = true
  | .destroyLoad s => m.user t = none ∧ m.guarded t = none ∧ m.destroyer s = some t ∧ Chain m.next (m.top s) (x.list s)
  | .destroyLoop s curr => m.user t = none ∧ m.guarded t = none ∧ m.destroyer s = some t ∧ Chain m.next curr (x.list s)
  | .destroyDelete s a next => m.user t = none ∧ m.guarded t = none ∧ m.destroyer s = some t ∧
      ∃ rest, x.list s = a :: rest ∧ Chain m.next next rest
  | .cleanUpMutator => m.user t = none ∧ m.guarded t = none
  | .cleanUp => m.user t = none ∧ m.guarded t = none ∧ Unprotected t m
  | .aborted => True

/-- What an action of a thread leaves alone, as far as the assertions of the others are concerned. -/
structure Frame (t : Tid) (m : Mem Tid S α) (x : Aux Tid S) (m' : Mem Tid S α) (x' : Aux Tid S) : Prop where
  user : ∀ u, u ≠ t → m'.user u = m.user u
  guarded : ∀ u, u ≠ t → m'.guarded u = m.guarded u
  claimed : ∀ u, u ≠ t → m'.claimed u = m.claimed u
  idx : ∀ u, u ≠ t → m'.idx u = m.idx u
  idx_kept : ∀ i, m.idx t = some i → m'.idx t = some i
  slot : ∀ u, u ≠ t → ∀ i, m.idx u = some i → m'.slot i 0 = m.slot i 0
  retired : ∀ u, u ≠ t → ∀ i, m.idx u = some i → m'.retired i = m.retired i
  owned : ∀ u, u ≠ t → ∀ a, x.own a = .fresh u ∨ x.own a = .popped u → x'.own a = x.own a ∧ m'.value a = m.value a
  next : ∀ a, x.own a ≠ .free → x.own a ≠ .fresh t → m'.next a = m.next a
  new_guard : ∀ a, m'.guarded t = some a → m.guarded t = some a ∨ ∃ s, x.own a = .linked s
  new_retired : ∀ a i, x'.own a = .retired i → x.own a = .retired i ∨ m.idx t = some i
  destroying : ∀ s u, u ≠ t → m.destroyer s = some u →
    m'.destroyer s = some u ∧ x'.list s = x.list s ∧ m'.top s = m.top s

theorem Frame.refl (t : Tid) (m : Mem Tid S α) (x : Aux Tid S) : Frame t m x m x where
  user _ _ := rfl
  guarded _ _ := rfl
  claimed _ _ := rfl
  idx _ _ := rfl
  idx_kept _ h := h
  slot _ _ _ _ := rfl
  retired _ _ _ _ := rfl
  owned _ _ _ _ := ⟨rfl, rfl⟩
  next _ _ _ := rfl
  new_guard _ h := .inl h
  new_retired _ _ h := .inl h
  destroying _ _ _ h := ⟨h, rfl, rfl⟩

section Stable

variable {t u : Tid} {m m' : Mem Tid S α} {x x' : Aux Tid S}

/-- A node that becomes protected or retired by an action of another thread does not get into the own retired list. -/
theorem Frame.guarded_retired (h : Frame t m x m' x') (hgood : Good m x) (hu : u ≠ t) {w : Tid} {a : Addr} {i : Nat}
    (hguarded : m'.guarded w = some a) (hidx : m'.idx u = some i) (hown : x'.own a = .retired i) :
    m.guarded w = some a ∧ m.idx u = some i ∧ x.own a = .retired i ∧ ∀ k, m'.idx w = some k → m.idx w = some k := by
  rw [h.idx u hu] at hidx
  have hold : x.own a = .retired i := by
    rcases h.new_retired a i hown with hold | hmine
    · exact hold
    · exact absurd (hgood.idx_inj u t i hidx hmine) hu
  by_cases hw : w = t
  · subst hw
    rcases h.new_guard a hguarded with hbefore | ⟨s, hlinked⟩
    · obtain ⟨k₀, hk₀, _⟩ := hgood.slot w a hbefore
      refine ⟨hbefore, hidx, hold, fun k hk => ?_⟩
      rw [h.idx_kept k₀ hk₀] at hk
      rw [hk₀, hk]
    · rw [hlinked] at hold
      cases hold
  · rw [h.guarded w hw] at hguarded
    exact ⟨hguarded, hidx, hold, fun k hk => by rwa [h.idx w hw] at hk⟩

theorem Frame.chain (h : Frame t m x m' x') (hgood : Good m x) (s : S) {p : Option Addr} {l : List Addr}
    (hchain : Chain m.next p l) (hsub : ∀ a ∈ l, a ∈ x.list s) : Chain m'.next p l := by
  refine hchain.congr fun a ha => ?_
  have hlinked := (hgood.linked s a).1 (hsub a ha)
  apply h.next a <;> rw [hlinked] <;> nofun

theorem Assertion.frame {pc : Pc S α} (h : Assertion u m x pc) (hframe : Frame t m x m' x') (hgood : Good m x) (hu : u ≠ t) :
    Assertion u m' x' pc := by
  have huser := hframe.user u hu
  have hguarded := hframe.guarded u hu
  have hclaimed := hframe.claimed u hu
  have hidx := hframe.idx u hu
  cases pc with
  | idle => simpa only [Assertion, huser, hguarded] using h
  | pushNew s v => simpa only [Assertion, huser, hguarded] using h
  | popMutator s => simpa only [Assertion, huser, hguarded] using h
  | cleanUpMutator => simpa only [Assertion, huser, hguarded] using h
  | protectLoad s => simpa only [Assertion, huser] using h
  | protectSet s obj => simpa only [Assertion, huser] using h
  | popNext s a => simpa only [Assertion, huser, hguarded] using h
  | popReset v => simpa only [Assertion, hclaimed] using h
  | popGuard v => simpa only [Assertion, hclaimed] using h
  | popNull sawEmpty => exact h
  | aborted => trivial
  | pushLoad s a =>
    obtain ⟨hu', hg, hown⟩ := h
    exact ⟨huser.trans hu', hguarded.trans hg, (hframe.owned u hu a (.inl hown)).1.trans hown⟩
  | pushCas s a =>
    obtain ⟨hu', hg, hown⟩ := h
    exact ⟨huser.trans hu', hguarded.trans hg, (hframe.owned u hu a (.inl hown)).1.trans hown⟩
  | protectCheck s obj =>
    obtain ⟨hu', hg, i, hi, hslot⟩ := h
    exact ⟨huser.trans hu', hguarded.trans hg, i, hidx.trans hi, (hframe.slot u hu i hi).trans hslot⟩
  | popCas s a next =>
    obtain ⟨hu', hg, hnext⟩ := h
    obtain ⟨s', _, hheld⟩ := hgood.guarded u a hg
    refine ⟨huser.trans hu', hguarded.trans hg, (hframe.next a ?_ ?_).trans hnext⟩
    · rcases hheld with hown | ⟨w, hown⟩ | ⟨i, hown⟩ <;> rw [hown] <;> nofun
    · rcases hheld with hown | ⟨w, hown⟩ | ⟨i, hown⟩ <;> rw [hown] <;> nofun
  | popTake a =>
    obtain ⟨hown, hc⟩ := h
    obtain ⟨hsame, hvalue⟩ := hframe.owned u hu a (.inr hown)
    exact ⟨hsame.trans hown, by rw [hclaimed, hvalue, hc]⟩
  | popRetire a v =>
    obtain ⟨hown, hc⟩ := h
    exact ⟨(hframe.owned u hu a (.inr hown)).1.trans hown, hclaimed.trans hc⟩
  | scanSlot v i j hazards =>
    obtain ⟨hc, hscanned⟩ := h
    refine ⟨hclaimed.trans hc, fun w a k own hw hk hown hretired hpos => ?_⟩
    obtain ⟨hw', hown', hretired', hk'⟩ := hframe.guarded_retired hgood hu hw hown hretired
    exact hscanned w a k own hw' (hk' k hk) hown' hretired' hpos
  | scanLoop v k hazards =>
    obtain ⟨hc, hscanned⟩ := h
    refine ⟨hclaimed.trans hc, fun w a own hw hown hretired => ?_⟩
    obtain ⟨hw', hown', hretired', _⟩ := hframe.guarded_retired hgood hu hw hown hretired
    exact hscanned w a own hw' hown' hretired'
  | destroyLoad s =>
    obtain ⟨hu', hg, hd, hchain⟩ := h
    obtain ⟨hd', hlist, htop⟩ := hframe.destroying s u hu hd
    refine ⟨huser.trans hu', hguarded.trans hg, hd', ?_⟩
    rw [hlist, htop]
    exact hframe.chain hgood s hchain fun _ ha => ha
  | destroyLoop s curr =>
    obtain ⟨hu', hg, hd, hchain⟩ := h
    obtain ⟨hd', hlist, _⟩ := hframe.destroying s u hu hd
    refine ⟨huser.trans hu', hguarded.trans hg, hd', ?_⟩
    rw [hlist]
    exact hframe.chain hgood s hchain fun _ ha => ha
  | destroyDelete s a next =>
    obtain ⟨hu', hg, hd, rest, hrest, hchain⟩ := h
    obtain ⟨hd', hlist, _⟩ := hframe.destroying s u hu hd
    refine ⟨huser.trans hu', hguarded.trans hg, hd', rest, hlist.trans hrest, hframe.chain hgood s hchain fun b hb => ?_⟩
    rw [hrest]
    exact List.mem_cons_of_mem _ hb
  | cleanUp =>
    obtain ⟨hu', hg, hclear⟩ := h
    refine ⟨huser.trans hu', hguarded.trans hg, fun i hi a ha w hw => ?_⟩
    rw [hidx] at hi
    rw [hframe.retired u hu i hi] at ha
    have hown := (hgood.retired i a).1 ha
    by_cases hwt : w = t
    · subst hwt
      rcases hframe.new_guard a hw with hbefore | ⟨s, hlinked⟩
      · exact hclear i hi a ha w hbefore
      · rw [hlinked] at hown
        cases hown
    · rw [hframe.guarded w hwt] at hw
      exact hclear i hi a ha w hw

end Stable

end CppConcur.LockFree.Hazard
