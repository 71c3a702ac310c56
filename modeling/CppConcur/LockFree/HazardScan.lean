import CppConcur.LockFree.HazardSteps
import Mathlib.Data.List.Nodup
import Mathlib.Data.List.Perm.Basic

/-!
# The loop of `Mutator::Scan`

The second half of `Scan` removes the retired objects that are not in the set of hazards from a vector while it goes
through it, with a signed index that is decremented after each removal. An entry is a `RetiredPtr`, whose move
assignment and destructor call a deleter, and it is removed by a `std::swap` with the last entry, which for the last
entry is a swap with itself. Here the vector holds the entries with their deleters and every call of a deleter is
recorded; `swapPop` of the stack's model is what the loop does to the objects.

A read at an index outside of the vector has no result, and neither has a loop that runs out of fuel. The deleters do
not touch the vector.
-/

namespace CppConcur.LockFree.Hazard.Scan

/-- `Deleter`: `NopDelete`, or another function. -/
inductive Deleter (F : Type*) where
  | nopDelete
  | function (f : F)
  deriving DecidableEq

structure RetiredPtr (F : Type*) where
  object : Option Addr
  deleter : Deleter F
  deriving DecidableEq

/-- The vector of the thread, and the calls of deleters so far, each with the object it was given. -/
structure State (F : Type*) where
  retired : List (RetiredPtr F)
  calls : List (RetiredPtr F) := []
  deriving DecidableEq

variable {F : Type*}

/-- A default-constructed `RetiredPtr`, which is also what a move leaves behind. -/
def RetiredPtr.null : RetiredPtr F := ⟨none, .nopDelete⟩

namespace State

/-- The call `p.deleter(p.object)`. -/
def call (s : State F) (p : RetiredPtr F) : State F := { s with calls := s.calls ++ [p] }

/-- `RetiredPtr tmp(std::move(retired[k]))`. -/
def moveFrom (s : State F) (k : Nat) : Option (RetiredPtr F × State F) := do
  let p ← s.retired[k]?
  some (p, { s with retired := s.retired.set k .null })

/-- `retired[k] = std::move(retired[j])`. -/
def moveAssign (s : State F) (k j : Nat) : Option (State F) := do
  let p ← s.retired[k]?
  let s := s.call p
  let q ← s.retired[j]?
  some { s with retired := (s.retired.set k q).set j .null }

/-- `retired[k] = std::move(tmp)`, with what it leaves in `tmp`. -/
def moveInto (s : State F) (k : Nat) (tmp : RetiredPtr F) : Option (RetiredPtr F × State F) := do
  let p ← s.retired[k]?
  let s := s.call p
  some (.null, { s with retired := s.retired.set k tmp })

/-- `std::swap(retired[k], retired[j])`, with the destructor of its temporary. -/
def swap (s : State F) (k j : Nat) : Option (State F) := do
  let (tmp, s) ← s.moveFrom k
  let s ← s.moveAssign k j
  let (tmp, s) ← s.moveInto j tmp
  some (s.call tmp)

/-- `retired.pop_back()`. -/
def popBack (s : State F) : Option (State F) := do
  let p ← s.retired.getLast?
  some { s.call p with retired := s.retired.dropLast }

end State

/-- `hazards.contains(p.object)`; a null pointer is never collected. -/
def isHazard (hazards : List Addr) (p : RetiredPtr F) : Bool :=
  match p.object with
  | none => false
  | some a => decide (a ∈ hazards)

/-- `retired[i]` at a signed index. -/
def entry (retired : List (RetiredPtr F)) (i : Int) : Option (RetiredPtr F) :=
  if 0 ≤ i then retired[i.toNat]? else none

/-- The loop of `Scan`. -/
def scanLoop (hazards : List Addr) : Nat → Int → State F → Option (State F)
  | 0, _, _ => none
  | fuel + 1, i, s =>
    if i < s.retired.length then do
      let p ← entry s.retired i
      if isHazard hazards p then
        scanLoop hazards fuel (i + 1) s
      else do
        let s ← s.swap i.toNat (s.retired.length - 1)
        let s ← s.popBack
        -- `--i` in the body, and the `++i` of the loop
        scanLoop hazards fuel (i - 1 + 1) s
    else
      some s

/-! ## One removal -/

/-- A swap calls a deleter for both assignments and for the temporary, each time on a null pointer. -/
theorem swap_eq {s : State F} {k j : Nat} {p q : RetiredPtr F} (hp : s.retired[k]? = some p)
    (hq : s.retired[j]? = some q) :
    s.swap k j = some ⟨(s.retired.set k q).set j p, s.calls ++ List.replicate 3 .null⟩ := by
  have hk : k < s.retired.length := (List.getElem?_eq_some_iff.1 hp).1
  have hj : j < s.retired.length := (List.getElem?_eq_some_iff.1 hq).1
  have hmove : s.moveFrom k = some (p, ⟨s.retired.set k .null, s.calls⟩) := by rw [State.moveFrom, hp]; rfl
  -- a swap with itself moves the null entry onto itself before the temporary comes back
  rcases eq_or_ne k j with rfl | hne
  · simp [State.swap, hmove, State.moveAssign, State.moveInto, State.call, hk]
  · have hassign : State.moveAssign ⟨s.retired.set k .null, s.calls⟩ k j =
        some ⟨(s.retired.set k q).set j .null, s.calls ++ [.null]⟩ := by
      simp [State.moveAssign, State.call, hk, List.getElem?_set_ne hne, hq]
    simp [State.swap, hmove, hassign, State.moveInto, State.call, hj]

/-- Writing the last entry and dropping it again. -/
theorem popBack_set (l calls : List (RetiredPtr F)) (p : RetiredPtr F) (hne : l ≠ []) :
    State.popBack ⟨l.set (l.length - 1) p, calls⟩ = some ⟨l.dropLast, calls ++ [p]⟩ := by
  obtain ⟨init, last, rfl⟩ := (List.eq_nil_or_concat l).resolve_left hne
  simp [State.popBack, State.call]

/-- A removal puts the last entry in the place of the removed one, whose deleter is called. -/
theorem remove_eq {s : State F} {k : Nat} {p last : RetiredPtr F} (hp : s.retired[k]? = some p)
    (hlast : s.retired.getLast? = some last) :
    (s.swap k (s.retired.length - 1)).bind State.popBack =
      some ⟨(s.retired.set k last).dropLast, s.calls ++ (List.replicate 3 .null ++ [p])⟩ := by
  have hback : s.retired[s.retired.length - 1]? = some last := by rw [← List.getLast?_eq_getElem?, hlast]
  have hne : s.retired.set k last ≠ [] := by
    rw [Ne, List.set_eq_nil_iff]
    rintro hnil
    rw [hnil] at hlast
    cases hlast
  have hpop := popBack_set (s.retired.set k last) (s.calls ++ List.replicate 3 .null) p hne
  rw [List.length_set] at hpop
  rw [swap_eq hp hback, Option.bind_some, hpop, List.append_assoc]

/-- On the objects a removal is `swapPop`. -/
theorem remove_objects {s : State F} {k : Nat} {last : RetiredPtr F} {objects : List Addr}
    (hobjects : s.retired.map RetiredPtr.object = objects.map some) (hlast : s.retired.getLast? = some last) :
    (s.retired.set k last).dropLast.map RetiredPtr.object = (swapPop objects k).map some := by
  have hmap : objects.getLast?.map some = some last.object := by
    rw [← List.getLast?_map, ← hobjects, List.getLast?_map, hlast, Option.map_some]
  obtain ⟨a, ha, hobject⟩ := Option.map_eq_some_iff.1 hmap
  rw [swapPop, ha, List.map_dropLast, List.map_set, hobjects, ← hobject, ← List.map_set, ← List.map_dropLast]

/-! ## The loop -/

/-- Before an iteration: the entries before the index are kept, and the vector and the removed entries together are what
the vector was. -/
structure Inv (hazards : List Addr) (retired : List (RetiredPtr F)) (k : Nat) (s : State F)
    (removed : List (RetiredPtr F)) : Prop where
  entries : (s.retired ++ removed).Perm retired
  kept : ∀ p ∈ s.retired.take k, isHazard hazards p = true
  clear : ∀ p ∈ removed, isHazard hazards p = false
  calls : s.calls = removed.flatMap fun p => List.replicate 3 .null ++ [p]

variable {hazards : List Addr} {retired removed : List (RetiredPtr F)} {k : Nat} {s : State F} {p : RetiredPtr F}

theorem Inv.init (hazards : List Addr) (retired : List (RetiredPtr F)) : Inv hazards retired 0 ⟨retired, []⟩ [] where
  entries := by rw [List.append_nil]
  kept := by simp
  clear := by simp
  calls := rfl

theorem Inv.keep (h : Inv hazards retired k s removed) (hp : s.retired[k]? = some p)
    (hhazard : isHazard hazards p = true) : Inv hazards retired (k + 1) s removed where
  entries := h.entries
  kept := by
    intro q hq
    rw [List.take_add_one, hp, List.mem_append] at hq
    rcases hq with hq | hq
    · exact h.kept q hq
    · obtain rfl := List.mem_singleton.1 hq
      exact hhazard
  clear := h.clear
  calls := h.calls

theorem Inv.remove {last : RetiredPtr F} (h : Inv hazards retired k s removed) (hp : s.retired[k]? = some p)
    (hlast : s.retired.getLast? = some last) (hclear : isHazard hazards p = false) :
    Inv hazards retired k
      ⟨(s.retired.set k last).dropLast, s.calls ++ (List.replicate 3 .null ++ [p])⟩ (removed ++ [p]) where
  entries := by
    have hperm := set_dropLast_perm hp hlast
    calc ((s.retired.set k last).dropLast ++ (removed ++ [p])).Perm ((s.retired.set k last).dropLast ++ (p :: removed)) :=
          .append_left _ (List.perm_append_singleton p removed)
      _ |>.Perm (p :: (s.retired.set k last).dropLast ++ removed) := List.perm_middle
      _ |>.Perm (s.retired ++ removed) := .append_right _ hperm.symm
      _ |>.Perm retired := h.entries
  kept := by
    intro q hq
    rw [List.dropLast_eq_take, List.take_take, Nat.min_comm, ← List.take_take] at hq
    have htake := List.mem_of_mem_take hq
    rw [List.take_set_of_le (Nat.le_refl k)] at htake
    exact h.kept q htake
  clear := by
    intro q hq
    rcases List.mem_append.1 hq with hq | hq
    · exact h.clear q hq
    · obtain rfl := List.mem_singleton.1 hq
      exact hclear
  calls := by rw [h.calls, List.flatMap_append, List.flatMap_singleton]

/-- The loop ends, with every entry of the vector visited: an iteration moves the index or shortens the vector. -/
theorem scanLoop_spec {n : Nat} (h : Inv hazards retired k s removed) (hn : s.retired.length = k + n) :
    ∃ s' removed', Inv hazards retired s'.retired.length s' removed' ∧
      ∀ fuel, n < fuel → scanLoop hazards fuel k s = some s' := by
  induction n generalizing k s removed with
  | zero =>
    rw [Nat.add_zero] at hn
    refine ⟨s, removed, by rwa [hn], ?_⟩
    rintro (_ | fuel) hfuel
    · omega
    · rw [scanLoop, if_neg (by omega)]
  | succ n ih =>
    obtain ⟨p, hp⟩ : ∃ p, s.retired[k]? = some p := ⟨_, List.getElem?_eq_getElem (by omega)⟩
    have hentry : entry s.retired (k : Int) = some p := by
      rw [entry, if_pos (Int.natCast_nonneg k), Int.toNat_natCast, hp]
    have hlt : (k : Int) < s.retired.length := by omega
    cases hhazard : isHazard hazards p with
    | true =>
      obtain ⟨s', removed', hinv, hloop⟩ := ih (h.keep hp hhazard) (by omega)
      refine ⟨s', removed', hinv, ?_⟩
      rintro (_ | fuel) hfuel
      · omega
      · rw [scanLoop, if_pos hlt, hentry, Option.bind_eq_bind, Option.bind_some, if_pos hhazard]
        exact hloop fuel (by omega)
    | false =>
      have hlast := List.getLast?_eq_some_getLast (List.ne_nil_of_length_pos (l := s.retired) (by omega))
      obtain ⟨s', removed', hinv, hloop⟩ := ih (h.remove hp hlast hhazard)
        (by rw [List.length_dropLast, List.length_set]; omega)
      refine ⟨s', removed', hinv, ?_⟩
      rintro (_ | fuel) hfuel
      · omega
      · rw [scanLoop, if_pos hlt, hentry, Option.bind_eq_bind, Option.bind_some, if_neg (by simp [hhazard]),
          Int.toNat_natCast, Int.sub_add_cancel, Option.bind_eq_bind]
        rw [← Option.bind_assoc, remove_eq hp hlast, Option.bind_some]
        exact hloop fuel (by omega)

/-- At the end the vector holds the hazards, and the removed entries are the others. -/
theorem Inv.filter (h : Inv hazards retired s.retired.length s removed) :
    s.retired.Perm (retired.filter fun p => isHazard hazards p) ∧
      removed.Perm (retired.filter fun p => !isHazard hazards p) := by
  have hkept : ∀ p ∈ s.retired, isHazard hazards p = true := by
    intro p hp
    exact h.kept p (by rwa [List.take_length])
  have hclear := h.clear
  constructor
  · have hfilter := h.entries.filter fun p => isHazard hazards p
    rw [List.filter_append, List.filter_eq_self.2 hkept, List.filter_eq_nil_iff.2 (by simpa using hclear),
      List.append_nil] at hfilter
    exact hfilter
  · have hfilter := h.entries.filter fun p => !isHazard hazards p
    rw [List.filter_append, List.filter_eq_nil_iff.2 (by simpa using hkept), List.filter_eq_self.2 (by simpa using hclear),
      List.nil_append] at hfilter
    exact hfilter

theorem Inv.mem_calls (h : Inv hazards retired k s removed) {c : RetiredPtr F} :
    c ∈ s.calls ↔ c ∈ removed ∨ c = .null ∧ ∃ p, p ∈ removed := by
  rw [h.calls, List.mem_flatMap]
  constructor
  · rintro ⟨p, hp, hc⟩
    rcases List.mem_append.1 hc with hc | hc
    · exact .inr ⟨List.eq_of_mem_replicate hc, p, hp⟩
    · obtain rfl := List.mem_singleton.1 hc
      exact .inl hp
  · rintro (hc | ⟨rfl, p, hp⟩)
    · exact ⟨c, hc, List.mem_append_right _ (List.mem_singleton_self c)⟩
    · exact ⟨p, hp, List.mem_append_left _ (List.mem_replicate.2 ⟨by omega, rfl⟩)⟩

/-- The calls of the swaps do not count for an entry that is not null. -/
theorem Inv.count_calls [DecidableEq F] (h : Inv hazards retired k s removed) (hp : p ≠ .null) :
    s.calls.count p = removed.count p := by
  have hcount (l : List (RetiredPtr F)) :
      (l.flatMap fun p => List.replicate 3 RetiredPtr.null ++ [p]).count p = l.count p := by
    induction l with
    | nil => rfl
    | cons q rest ih =>
      have hnull : (List.replicate 3 RetiredPtr.null).count p = 0 := List.count_eq_zero.2 fun hmem =>
        hp (List.eq_of_mem_replicate hmem)
      rw [List.flatMap_cons, List.count_append, List.count_append, hnull, ih, List.count_singleton,
        List.count_cons]
      omega
  rw [h.calls, hcount]

theorem object_of_isHazard (h : isHazard hazards p = true) : ∃ a ∈ hazards, p.object = some a := by
  unfold isHazard at h
  split at h
  · cases h
  · exact ⟨_, of_decide_eq_true h, by assumption⟩

/-- `Scan` keeps exactly the entries whose object is among the hazards and calls the deleter of every other entry once.
The calls of the swaps are those of `NopDelete` on a null pointer. -/
theorem scan_filter [DecidableEq F] (hazards : List Addr) (retired : List (RetiredPtr F))
    (hdistinct : (retired.map RetiredPtr.object).Nodup) :
    ∃ s : State F,
      (∀ fuel, retired.length < fuel → scanLoop hazards fuel 0 ⟨retired, []⟩ = some s) ∧
      s.retired.Perm (retired.filter fun p => isHazard hazards p) ∧
      (∀ p ∈ retired, isHazard hazards p = false → p ∈ s.calls ∧ (p ≠ .null → s.calls.count p = 1)) ∧
      (∀ c ∈ s.calls, c = .null ∨ c ∈ retired ∧ isHazard hazards c = false) ∧
      ∀ c ∈ s.calls, ∀ p ∈ s.retired, c.object ≠ p.object := by
  obtain ⟨s, removed, hinv, hloop⟩ := scanLoop_spec (Inv.init hazards retired) (n := retired.length) (by simp)
  obtain ⟨hkept, hremoved⟩ := hinv.filter
  have hcalls : ∀ c ∈ s.calls, c = .null ∨ c ∈ retired ∧ isHazard hazards c = false := by
    intro c hc
    rcases hinv.mem_calls.1 hc with hc | ⟨hnull, -⟩
    · have hmem := List.mem_filter.1 (hremoved.mem_iff.1 hc)
      exact .inr ⟨hmem.1, by simpa using hmem.2⟩
    · exact .inl hnull
  refine ⟨s, hloop, hkept, ?_, hcalls, ?_⟩
  · intro p hp hclear
    have hmem : p ∈ removed := hremoved.mem_iff.2 (List.mem_filter.2 ⟨hp, by rw [hclear]; rfl⟩)
    have hnodup : removed.Nodup := hremoved.nodup_iff.2 (hdistinct.of_map.filter _)
    refine ⟨hinv.mem_calls.2 (.inl hmem), fun hne => ?_⟩
    rw [hinv.count_calls hne, List.count_eq_one_of_mem hnodup hmem]
  · intro c hc p hp heq
    have hhazard := (List.mem_filter.1 (hkept.mem_iff.1 hp)).2
    rcases hcalls c hc with rfl | ⟨-, hclear⟩
    · obtain ⟨a, -, ha⟩ := object_of_isHazard hhazard
      rw [ha] at heq
      cases heq
    · rw [isHazard, ← heq] at hhazard
      exact absurd hhazard (by rw [← isHazard, hclear]; nofun)

/-- Of three retired objects the second is protected; the last one takes the place of the first and is then removed by a
swap with itself. -/
theorem scan_filter_three :
    let retired : List (RetiredPtr Nat) := [⟨some 1, .function 10⟩, ⟨some 2, .function 20⟩, ⟨some 3, .nopDelete⟩]
    (retired.map RetiredPtr.object).Nodup ∧
      ∃ s : State Nat,
        (∀ fuel, 3 < fuel → scanLoop [7, 2] fuel 0 ⟨retired, []⟩ = some s) ∧
        s.retired.Perm [⟨some 2, .function 20⟩] ∧
        s.calls.count ⟨some 1, .function 10⟩ = 1 ∧ s.calls.count ⟨some 3, .nopDelete⟩ = 1 := by
  intro retired
  have hdistinct : (retired.map RetiredPtr.object).Nodup := by decide
  obtain ⟨s, hloop, hkept, hremoved, -⟩ := scan_filter [7, 2] retired hdistinct
  exact ⟨hdistinct, s, hloop, hkept, (hremoved _ (by decide) (by decide)).2 (by decide),
    (hremoved _ (by decide) (by decide)).2 (by decide)⟩

end CppConcur.LockFree.Hazard.Scan
