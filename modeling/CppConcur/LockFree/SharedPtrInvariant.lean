import CppConcur.LockFree.SharedPtr
import CppConcur.Logic.Count
import Mathlib.Algebra.Order.BigOperators.Group.Finset
import Mathlib.Algebra.Order.Group.Int

/-!
# What the split counts keep

The counts of a block are a sum of contributions: a cell that points at it with stamp `s` contributes
`(-s, 1)`, a handle contributes `(1, 0)`, and an operation that is in the middle of a transfer contributes
what it has still to add or to take away. This conservation law holds in every state, and says at the end
of all operations what the counts are.

It also decides who deletes a block. Both counts are zero only when every contribution is, since an
operation that contributes a negative `transient` also contributes to `strong`. An operation that works
on a block without contributing holds a handle to it, or is the only one that knows the block.
-/

namespace CppConcur.LockFree.SharedPtr

variable {Tid Cell Handle : Type*}

/-! ### Contributions -/

/-- A contribution to one block. -/
def single (p : Option Addr) (v : SplitCount) (b : Addr) : SplitCount := if p = some b then v else 0

/-- What a cell contributes. -/
def cellCount (sp : StampedPtr Addr) : Addr → SplitCount := single sp.rawPtr (-(sp.stamp : Int), 1)

/-- What a handle contributes. -/
def handleCount (p : Option (Option Addr)) : Addr → SplitCount := single p.join (1, 0)

/-- What is owed to a block by the rest of an operation. -/
def Rest.count : Rest Handle → Addr → SplitCount
  | .assign _ p _ => single p (1, 0)
  | _ => 0

/-- What an operation contributes before it changes the counts of a block by a given amount. -/
def Cont.count (b : Addr) (add : SplitCount) : Cont Cell Handle → Addr → SplitCount
  | .reset _ rest => rest.count
  | .cleanup rest => rest.count + single (some b) (-add)
  | .undo _ _ _ => single (some b) (0, 1)
  | .flush _ _ _ => single (some b) (1, 0)
  | .flushed _ => single (some b) (1 - add.1, 1)
  | _ => 0

/-- What an operation contributes. -/
def Pc.count : Pc Cell Handle → Addr → SplitCount
  | .addLoad b add k => k.count b add
  | .addCas b add _ k => k.count b add
  | .delete _ rest => rest.count
  | .flushCas _ b stamp _ => single (some b) (1 + (stamp : Int), 1)
  | .exchange _ _ p => single p (0, 1)
  | .cas _ _ _ p _ => single p (0, 1)
  | _ => 0

/-! ### References -/

/-- The rest of an operation holds a pointer to a block. -/
def Rest.Mentions : Rest Handle → Addr → Prop
  | .assign _ p _, b => p = some b
  | _, _ => False

/-- The rest of an operation that an access to the counts is part of holds a pointer to a block. -/
def Cont.Mentions : Cont Cell Handle → Addr → Prop
  | .reset _ rest, b => rest.Mentions b
  | .cleanup rest, b => rest.Mentions b
  | _, _ => False

/-- An operation holds a pointer to a block. -/
def Pc.Mentions : Pc Cell Handle → Addr → Prop
  | .addLoad b' _ k, b => b = b' ∨ k.Mentions b
  | .addCas b' _ _ k, b => b = b' ∨ k.Mentions b
  | .delete b' rest, b => b = b' ∨ rest.Mentions b
  | .flushCas _ b' _ _, b => b = b'
  | .exchange _ _ p, b => p = some b
  | .cas _ _ _ p _, b => p = some b
  | _, _ => False

/-- A block that no other operation can know: it has just been made, or is about to be deleted. -/
def Pc.Sole : Pc Cell Handle → Addr → Prop
  | .addLoad b' _ (.handle _ none), b => b = b'
  | .addCas b' _ _ (.handle _ none), b => b = b'
  | .delete b' _, b => b = b'
  | _, _ => False

/-- A cell, a handle or the operation of one thread refers to a block. -/
def Refers (m : Mem Cell Handle) (pc : Pc Cell Handle) (b : Addr) : Prop :=
  (∃ c, (m.cell c).rawPtr = some b) ∨ (∃ h, m.handle h = some (some b)) ∨ pc.Mentions b

theorem Pc.Sole.mentions {pc : Pc Cell Handle} {b : Addr} (h : pc.Sole b) : pc.Mentions b := by
  cases pc with
  | addLoad b' add k =>
    cases k with
    | handle h' source =>
      cases source with
      | none => exact .inl h
      | some _ => exact h.elim
    | _ => exact h.elim
  | addCas b' add old k =>
    cases k with
    | handle h' source =>
      cases source with
      | none => exact .inl h
      | some _ => exact h.elim
    | _ => exact h.elim
  | delete b' rest => exact .inl h
  | _ => exact h.elim

/-! ### What an operation knows -/

/-- The handles that the rest of an operation will write. -/
def Rest.Ok (handle : Handle → Option (Option Addr)) : Rest Handle → Prop
  | .destroyed h => (handle h).join = none
  | .assign expected _ desired => (handle expected).join = none ∧ expected ≠ desired
  | _ => True

/-- The handles that receive what is loaded. -/
def LoadTo.Ok (handle : Handle → Option (Option Addr)) : LoadTo Handle → Prop
  | .handle h => handle h = none
  | .expected e d => e ≠ d

/-- An operation that is changing the counts of a block by a given amount. -/
def Cont.Ok [DecidableEq Handle] (handle : Handle → Option (Option Addr)) (b : Addr) (add : SplitCount) :
    Cont Cell Handle → Prop
  | .handle h source => add = (1, 0) ∧ handle h = none ∧ ∀ s, source = some s → handle s = some (some b)
  | .reset h rest => add = (-1, 0) ∧ handle h = some (some b) ∧ rest.Ok (Function.update handle h (some none))
  | .exchange _ target => add = (0, 1) ∧ ∃ h, target = some h ∧ handle h = some (some b)
  | .cleanup rest => add.2 = -1 ∧ rest.Ok handle
  | .cas _ expected desired _ => add = (0, 1) ∧ handle desired = some (some b) ∧ expected ≠ desired
  | .undo _ expected desired => add = (0, -1) ∧ handle desired = some (some b) ∧ expected ≠ desired
  | .flush _ stamp dest => add = ((stamp : Int), 1) ∧ dest.Ok handle
  | .flushed dest => add.1 ≤ 0 ∧ add.2 = -1 ∧ dest.Ok handle

/-- What holds of the handles of an operation at each of its steps. -/
def Pc.Ok [DecidableEq Handle] (handle : Handle → Option (Option Addr)) : Pc Cell Handle → Prop
  | .idle => True
  | .make h => handle h = none
  | .addLoad b add k => k.Ok handle b add
  | .addCas b add _ k => k.Ok handle b add
  | .delete _ rest => rest.Ok handle
  | .incLoad _ dest => dest.Ok handle
  | .incCas _ _ dest => dest.Ok handle
  | .flushCas _ _ _ dest => dest.Ok handle
  | .exchange _ target p => (∀ h, target = some h → handle h = some p) ∧ (target = none → p = none)
  | .casLoad _ expected desired => expected ≠ desired ∧ handle desired ≠ none
  | .cas _ expected desired p _ => expected ≠ desired ∧ handle desired = some p

/-! ### How contributions and references are related -/

theorem single_self (b : Addr) (v : SplitCount) : single (some b) v b = v := if_pos rfl

theorem single_of_ne {p : Option Addr} {b : Addr} (h : p ≠ some b) (v : SplitCount) : single p v b = 0 := if_neg h

theorem single_add (p : Option Addr) (v w : SplitCount) (b : Addr) :
    single p v b + single p w b = single p (v + w) b := by
  unfold single
  split
  · rfl
  · exact add_zero 0

/-- A contribution that may be part of the counts of a block: it adds to `strong`, or takes nothing away. -/
def Fair (v : SplitCount) : Prop := 0 ≤ v.2 ∧ (v.2 = 0 → 0 ≤ v.1)

theorem fair_zero : Fair 0 := ⟨le_rfl, fun _ => le_rfl⟩

theorem fair_single {v : SplitCount} (h : Fair v) (p : Option Addr) (b : Addr) : Fair (single p v b) := by
  unfold single
  split
  · exact h
  · exact fair_zero

theorem Rest.fair_count (rest : Rest Handle) (b : Addr) : Fair (rest.count b) := by
  cases rest with
  | assign expected p desired => exact fair_single ⟨by decide, fun _ => by decide⟩ p b
  | _ => exact fair_zero

theorem Rest.mentions_of_count {rest : Rest Handle} {b : Addr} (h : rest.count b ≠ 0) : rest.Mentions b := by
  cases rest with
  | assign expected p desired =>
    by_contra hne
    exact h (single_of_ne hne _)
  | _ => exact absurd rfl h

theorem Rest.count_of_mentions {rest : Rest Handle} {b : Addr} (h : rest.Mentions b) : rest.count b = (1, 0) := by
  cases rest with
  | assign expected p desired =>
    have hp : p = some b := h
    subst hp
    exact single_self b _
  | _ => exact h.elim

section Ok

variable [DecidableEq Handle] {handle : Handle → Option (Option Addr)}

omit [DecidableEq Handle] in
theorem Rest.Ok.congr {handle' : Handle → Option (Option Addr)} {rest : Rest Handle}
    (h : ∀ h, rest.Writes h → handle' h = handle h) (hok : rest.Ok handle) : rest.Ok handle' := by
  cases rest with
  | destroyed h' =>
    change (handle' h').join = none
    rw [h h' rfl]
    exact hok
  | assign expected p desired =>
    refine ⟨?_, hok.2⟩
    rw [h expected (.inl rfl)]
    exact hok.1
  | _ => trivial

omit [DecidableEq Handle] in
theorem LoadTo.Ok.congr {handle' : Handle → Option (Option Addr)} {dest : LoadTo Handle}
    (h : ∀ h, dest.Writes h → handle' h = handle h) (hok : dest.Ok handle) : dest.Ok handle' := by
  cases dest with
  | handle h' => exact (h h' rfl).trans hok
  | expected e d => exact hok

theorem Cont.Ok.congr {handle' : Handle → Option (Option Addr)} {b : Addr} {add : SplitCount} {k : Cont Cell Handle}
    (h : ∀ h, k.Writes h → handle' h = handle h)
    (hsource : ∀ h s, k = .handle h (some s) → handle' s = handle s) (hok : k.Ok handle b add) : k.Ok handle' b add := by
  cases k with
  | handle h' source =>
    refine ⟨hok.1, (h h' rfl).trans hok.2.1, fun s hs => ?_⟩
    subst hs
    exact (hsource h' s rfl).trans (hok.2.2 s rfl)
  | reset h' rest =>
    refine ⟨hok.1, (h h' (.inl rfl)).trans hok.2.1, hok.2.2.congr fun h'' hh'' => ?_⟩
    by_cases heq : h'' = h'
    · subst heq
      rw [Function.update_self, Function.update_self]
    · rw [Function.update_of_ne heq, Function.update_of_ne heq]
      exact h h'' (.inr hh'')
  | exchange c target =>
    obtain ⟨hadd, h', rfl, hh'⟩ := hok
    exact ⟨hadd, h', rfl, (h h' rfl).trans hh'⟩
  | cleanup rest => exact ⟨hok.1, hok.2.congr h⟩
  | cas c expected desired old => exact ⟨hok.1, (h desired (.inr rfl)).trans hok.2.1, hok.2.2⟩
  | undo c expected desired => exact ⟨hok.1, (h desired (.inr rfl)).trans hok.2.1, hok.2.2⟩
  | flush c stamp dest => exact ⟨hok.1, hok.2.congr h⟩
  | flushed dest => exact ⟨hok.1, hok.2.1, hok.2.2.congr h⟩

/-- What an operation knows depends only on the handles it uses. -/
theorem Pc.Ok.congr {handle' : Handle → Option (Option Addr)} {pc : Pc Cell Handle}
    (h : ∀ h, pc.Writes h ∨ pc.Reads h → handle' h = handle h) (hok : pc.Ok handle) : pc.Ok handle' := by
  have hwrites : ∀ h', pc.Writes h' → handle' h' = handle h' := fun h' hh' => h h' (.inl hh')
  cases pc with
  | idle => trivial
  | make h' => exact (hwrites h' rfl).trans hok
  | addLoad b add k =>
    refine Cont.Ok.congr hwrites (fun h' s hk => ?_) hok
    subst hk
    exact h s (.inr rfl)
  | addCas b add old k =>
    refine Cont.Ok.congr hwrites (fun h' s hk => ?_) hok
    subst hk
    exact h s (.inr rfl)
  | delete b rest => exact Rest.Ok.congr hwrites hok
  | incLoad c dest => exact LoadTo.Ok.congr hwrites hok
  | incCas c old dest => exact LoadTo.Ok.congr hwrites hok
  | flushCas c b stamp dest => exact LoadTo.Ok.congr hwrites hok
  | exchange c target p => exact ⟨fun h' hh' => (hwrites h' hh').trans (hok.1 h' hh'), hok.2⟩
  | casLoad c expected desired =>
    refine ⟨hok.1, ?_⟩
    rw [hwrites desired (.inr rfl)]
    exact hok.2
  | cas c expected desired p old => exact ⟨hok.1, (hwrites desired (.inr rfl)).trans hok.2⟩

theorem Cont.fair_count {b : Addr} {add : SplitCount} {k : Cont Cell Handle} (h : k.Ok handle b add) (b' : Addr) :
    Fair (k.count b add b') := by
  cases k with
  | reset h rest => exact rest.fair_count b'
  | cleanup rest =>
    obtain ⟨hadd, -⟩ := h
    have hrest := rest.fair_count b'
    by_cases hb : b = b'
    · subst hb
      have hcount : ((Cont.cleanup rest : Cont Cell Handle).count b add b).2 = (rest.count b).2 + 1 := by
        simp [Cont.count, single_self, hadd]
      refine ⟨?_, fun hzero => ?_⟩
      · have := hrest.1
        omega
      · have := hrest.1
        omega
    · have hcount : (Cont.cleanup rest : Cont Cell Handle).count b add b' = rest.count b' := by
        simp [Cont.count, single_of_ne (fun heq => hb (Option.some.inj heq))]
      rw [hcount]
      exact hrest
  | undo c expected desired => exact fair_single ⟨by decide, fun h => absurd h (by decide)⟩ _ _
  | flush c stamp dest => exact fair_single ⟨by decide, fun _ => by decide⟩ _ _
  | flushed dest => exact fair_single ⟨zero_le_one, fun h => absurd h one_ne_zero⟩ _ _
  | _ => exact fair_zero

theorem Pc.fair_count {pc : Pc Cell Handle} (h : pc.Ok handle) (b : Addr) : Fair (pc.count b) := by
  cases pc with
  | addLoad b' add k => exact Cont.fair_count h b
  | addCas b' add old k => exact Cont.fair_count h b
  | delete b' rest => exact rest.fair_count b
  | flushCas c b' stamp dest => exact fair_single ⟨zero_le_one, fun h => absurd h one_ne_zero⟩ _ _
  | exchange c target p => exact fair_single ⟨by decide, fun h => absurd h (by decide)⟩ _ _
  | cas c expected desired p old => exact fair_single ⟨by decide, fun h => absurd h (by decide)⟩ _ _
  | _ => exact fair_zero

theorem single_ne_zero {p : Option Addr} {v : SplitCount} {b : Addr} (h : single p v b ≠ 0) : p = some b := by
  by_contra hne
  exact h (single_of_ne hne v)

omit [DecidableEq Handle] in
/-- An operation that contributes to a block holds a pointer to it. -/
theorem Pc.mentions_of_count {pc : Pc Cell Handle} {b : Addr} (h : pc.count b ≠ 0) : pc.Mentions b := by
  have hcont : ∀ b' add, ∀ k : Cont Cell Handle, k.count b' add b ≠ 0 → b = b' ∨ k.Mentions b := by
    intro b' add k hk
    cases k with
    | reset h rest => exact .inr (Rest.mentions_of_count hk)
    | cleanup rest =>
      by_cases hb : b' = b
      · exact .inl hb.symm
      · refine .inr (Rest.mentions_of_count ?_)
        simpa [Cont.count, single_of_ne (fun heq => hb (Option.some.inj heq))] using hk
    | undo c expected desired => exact .inl (Option.some.inj (single_ne_zero hk)).symm
    | flush c stamp dest => exact .inl (Option.some.inj (single_ne_zero hk)).symm
    | flushed dest => exact .inl (Option.some.inj (single_ne_zero hk)).symm
    | _ => exact absurd rfl hk
  cases pc with
  | addLoad b' add k => exact hcont b' add k h
  | addCas b' add old k => exact hcont b' add k h
  | delete b' rest => exact .inr (Rest.mentions_of_count h)
  | flushCas c b' stamp dest => exact (Option.some.inj (single_ne_zero h)).symm
  | exchange c target p => exact single_ne_zero h
  | cas c expected desired p old => exact single_ne_zero h
  | _ => exact absurd rfl h

/-- An operation that holds a pointer to a block and contributes nothing to it is the only one that knows
the block, or has a handle to it. -/
theorem Pc.sole_or_handle {pc : Pc Cell Handle} (h : pc.Ok handle) {b : Addr} (hmentions : pc.Mentions b)
    (hcount : pc.count b = 0) : pc.Sole b ∨ ∃ h, handle h = some (some b) := by
  have hrest : ∀ rest : Rest Handle, rest.Mentions b → rest.count b ≠ 0 := by
    intro rest hrest
    rw [Rest.count_of_mentions hrest]
    decide
  have hone : ∀ v : SplitCount, v.2 = 1 → single (some b) v b ≠ 0 := by
    intro v hv heq
    rw [single_self] at heq
    rw [heq] at hv
    exact absurd hv (by decide)
  have hcont : ∀ b' add, ∀ k : Cont Cell Handle, k.Ok handle b' add → b = b' ∨ k.Mentions b → k.count b' add b = 0 →
      (b = b' ∧ ∃ h, k = .handle h none) ∨ ∃ h, handle h = some (some b) := by
    intro b' add k hk hb hzero
    cases k with
    | handle h source =>
      obtain rfl := hb.resolve_right id
      cases source with
      | none => exact .inl ⟨rfl, h, rfl⟩
      | some s => exact .inr ⟨s, hk.2.2 s rfl⟩
    | reset h rest =>
      obtain rfl := hb.resolve_right fun hmem => hrest rest hmem hzero
      exact .inr ⟨h, hk.2.1⟩
    | exchange c target =>
      obtain rfl := hb.resolve_right id
      obtain ⟨-, h, -, hh⟩ := hk
      exact .inr ⟨h, hh⟩
    | cleanup rest =>
      by_cases hbb : b' = b
      · subst hbb
        have hstrong := congrArg Prod.snd hzero
        have := (rest.fair_count b').1
        simp only [Cont.count, Pi.add_apply, single_self, Prod.snd_add, Prod.snd_neg, hk.1, Prod.snd_zero] at hstrong
        omega
      · refine absurd ?_ (hrest rest (hb.resolve_left fun heq => hbb heq.symm))
        simpa [Cont.count, single_of_ne (fun heq => hbb (Option.some.inj heq))] using hzero
    | cas c expected desired old =>
      obtain rfl := hb.resolve_right id
      exact .inr ⟨desired, hk.2.1⟩
    | undo c expected desired =>
      obtain rfl := hb.resolve_right id
      exact .inr ⟨desired, hk.2.1⟩
    | flush c stamp dest =>
      obtain rfl := hb.resolve_right id
      rw [Cont.count, single_self] at hzero
      exact absurd hzero (by decide)
    | flushed dest =>
      obtain rfl := hb.resolve_right id
      exact absurd hzero (hone _ rfl)
  cases pc with
  | addLoad b' add k =>
    rcases hcont b' add k h hmentions hcount with ⟨rfl, h', rfl⟩ | hhandle
    · exact .inl rfl
    · exact .inr hhandle
  | addCas b' add old k =>
    rcases hcont b' add k h hmentions hcount with ⟨rfl, h', rfl⟩ | hhandle
    · exact .inl rfl
    · exact .inr hhandle
  | delete b' rest => exact .inl (hmentions.resolve_right fun hmem => hrest rest hmem hcount)
  | flushCas c b' stamp dest =>
    obtain rfl : b = b' := hmentions
    exact absurd hcount (hone _ rfl)
  | exchange c target p =>
    obtain rfl : p = some b := hmentions
    exact absurd hcount (hone _ rfl)
  | cas c expected desired p old =>
    obtain rfl : p = some b := hmentions
    exact absurd hcount (hone _ rfl)
  | _ => exact hmentions.elim

end Ok

end CppConcur.LockFree.SharedPtr
