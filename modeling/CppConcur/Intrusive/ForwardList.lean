import CppConcur.Logic.Code
import Mathlib.Data.List.Nodup

/-!
# Intrusive forward lists

`wheels::IntrusiveForwardList`, as code over the cells of the memory: the `next_` of each node and the three fields of each
list. Every load and store of the source is one access here, in its order; a null pointer that is dereferenced is stuck.
A list that represents a sequence owns the cells `cells l xs`, and each operation touches no others.
-/

namespace CppConcur.Intrusive

open Logic

variable {Node L : Type}

/-- `next_` of a node, and `head_`, `tail_` and `size_` of a list. -/
inductive Cell (Node L : Type)
  | next (n : Node)
  | head (l : L)
  | tail (l : L)
  | size (l : L)
  deriving DecidableEq

abbrev Val : Cell Node L → Type
  | .next _ => Option Node
  | .head _ => Option Node
  | .tail _ => Option Node
  | .size _ => Nat

/-- The values of all cells. -/
abbrev Memory (Node L : Type) := (c : Cell Node L) → Val c

/-! ### The operations -/

/-- Code on lists. -/
abbrev Prog (Node L α : Type) := Code (Cell Node L) Val α

abbrev getNext (n : Node) : Prog Node L (Option Node) := Code.load (Cell.next n)

abbrev setNext (n : Node) (p : Option Node) : Prog Node L Unit := Code.store (Cell.next n) p

abbrev getHead (l : L) : Prog Node L (Option Node) := Code.load (Cell.head l)

abbrev setHead (l : L) (p : Option Node) : Prog Node L Unit := Code.store (Cell.head l) p

abbrev getTail (l : L) : Prog Node L (Option Node) := Code.load (Cell.tail l)

abbrev setTail (l : L) (p : Option Node) : Prog Node L Unit := Code.store (Cell.tail l) p

abbrev getSize (l : L) : Prog Node L Nat := Code.load (Cell.size l)

abbrev setSize (l : L) (k : Nat) : Prog Node L Unit := Code.store (Cell.size l) k

/-- The node that a pointer leads to. -/
def deref : Option Node → Prog Node L Node
  | some n => .ret n
  | none => .stuck

def isEmpty (l : L) : Prog Node L Bool := do
  let head ← getHead l
  return head.isNone

def reset (l : L) : Prog Node L Unit := do
  setHead l none
  setTail l none
  setSize l 0

def pushBack (l : L) (node : Node) : Prog Node L Unit := do
  let size ← getSize l
  setSize l (size + 1)
  setNext node none
  if ← isEmpty l then
    setTail l (some node)
    setHead l (some node)
  else
    let last ← deref (← getTail l)
    setNext last (some node)
    setTail l (some node)

def append (l that : L) : Prog Node L Unit := do
  if ← isEmpty that then
    return ()
  else
    if ← isEmpty l then
      setHead l (← getHead that)
      setTail l (← getTail that)
      setSize l (← getSize that)
    else
      let last ← deref (← getTail l)
      setNext last (← getHead that)
      setTail l (← getTail that)
      let size ← getSize l
      setSize l (size + (← getSize that))
    reset that

def pushFront (l : L) (node : Node) : Prog Node L Unit := do
  let size ← getSize l
  setSize l (size + 1)
  if ← isEmpty l then
    setTail l (some node)
    setHead l (some node)
  else
    setNext node (← getHead l)
    setHead l (some node)

def popFront [DecidableEq Node] (l : L) : Prog Node L (Option Node) := do
  if ← isEmpty l then
    return none
  else
    let size ← getSize l
    setSize l (size - 1)
    let front ← getHead l
    let head ← getHead l
    let tail ← getTail l
    if head = tail then
      setTail l none
      setHead l none
    else
      let first ← deref (← getHead l)
      setHead l (← getNext first)
    let node ← deref front
    setNext node none
    return front

/-- The move constructor. -/
def moveFrom (l that : L) : Prog Node L Unit := do
  setHead l (← getHead that)
  setTail l (← getTail that)
  setSize l (← getSize that)
  reset that

/-- The first `rounds` rounds of the loop of `ForEach` at a pointer, with the nodes that the handler is called for. -/
def walk : Nat → Option Node → Prog Node L (List Node)
  | 0, _ => return []
  | _ + 1, none => return []
  | rounds + 1, some n => do
    let next ← getNext n
    let rest ← walk rounds next
    return n :: rest

def forEach (rounds : Nat) (l : L) : Prog Node L (List Node) := do
  walk rounds (← getHead l)

/-! ### Linked nodes -/

/-- The nodes are linked in this order, and the last one leads to `stop`. -/
def Linked (next : Node → Option Node) : List Node → Option Node → Prop
  | [], _ => True
  | n :: rest, stop => next n = rest.head?.or stop ∧ Linked next rest stop

theorem linked_append {next : Node → Option Node} {xs ys : List Node} {stop : Option Node} :
    Linked next (xs ++ ys) stop ↔ Linked next xs (ys.head?.or stop) ∧ Linked next ys stop := by
  induction xs with
  | nil => simp [Linked]
  | cons n rest ih =>
    rw [List.cons_append, Linked, ih, Linked, List.head?_append, Option.or_assoc, and_assoc]

theorem Linked.congr {next next' : Node → Option Node} {xs : List Node} {stop : Option Node} (h : Linked next xs stop)
    (hsame : ∀ n ∈ xs, next' n = next n) : Linked next' xs stop := by
  induction xs with
  | nil => exact trivial
  | cons n rest ih =>
    refine ⟨?_, ih h.2 fun k hk => hsame k (List.mem_cons_of_mem _ hk)⟩
    rw [hsame n List.mem_cons_self]
    exact h.1

/-- The last node is made to lead elsewhere. -/
theorem Linked.relink {next next' : Node → Option Node} {xs : List Node} {last : Node} {stop stop' : Option Node}
    (h : Linked next (xs ++ [last]) stop) (hlast : next' last = stop') (hsame : ∀ n ∈ xs, next' n = next n) :
    Linked next' (xs ++ [last]) stop' := by
  rw [linked_append] at h ⊢
  exact ⟨h.1.congr hsame, hlast.trans (Option.none_or ..).symm, trivial⟩

/-! ### Lists that represent sequences -/

/-- The list `l` in memory holds the nodes `xs`. -/
structure Represents (m : Memory Node L) (l : L) (xs : List Node) : Prop where
  head : m (.head l) = xs.head?
  tail : m (.tail l) = xs.getLast?
  size : m (.size l) = xs.length
  linked : Linked (fun n => m (.next n)) xs none
  nodup : xs.Nodup

/-- The `next_` of these nodes. -/
def links (xs : List Node) : Set (Cell Node L) := { c | ∃ n ∈ xs, c = .next n }

/-- The fields of a list. -/
def fields (l : L) : Set (Cell Node L) := {.head l, .tail l, .size l}

/-- The cells of a list that holds `xs`. -/
def cells (l : L) (xs : List Node) : Set (Cell Node L) := fields l ∪ links xs

@[simp] theorem mem_links {c : Cell Node L} {xs : List Node} : c ∈ links xs ↔ ∃ n ∈ xs, c = .next n := Iff.rfl

@[simp] theorem mem_fields {c : Cell Node L} {l : L} : c ∈ fields l ↔ c = .head l ∨ c = .tail l ∨ c = .size l := Iff.rfl

@[simp] theorem mem_cells {c : Cell Node L} {l : L} {xs : List Node} : c ∈ cells l xs ↔ c ∈ fields l ∨ c ∈ links xs := Iff.rfl

theorem cells_mono {l : L} {xs ys : List Node} (h : xs ⊆ ys) : cells l xs ⊆ cells l ys :=
  Set.union_subset_union_right _ fun _ ⟨n, hn, hc⟩ => ⟨n, h hn, hc⟩

theorem cells_append {l : L} {xs ys : List Node} : cells l (xs ++ ys) = cells l xs ∪ links ys := by
  ext c
  simp [or_and_right, exists_or, or_assoc]

/-- What is represented depends on the cells of the list only. -/
theorem Represents.congr {m m' : Memory Node L} {l : L} {xs : List Node} (h : Represents m l xs)
    (hsame : ∀ c ∈ cells l xs, m' c = m c) : Represents m' l xs where
  head := (hsame (.head l) (by simp)).trans h.head
  tail := (hsame (.tail l) (by simp)).trans h.tail
  size := (hsame (.size l) (by simp)).trans h.size
  linked := h.linked.congr fun n hn => hsame (.next n) (by simp [hn])
  nodup := h.nodup

section Specifications

variable [DecidableEq Node] [DecidableEq L] {m : Memory Node L} {l that : L} {xs ys : List Node} {n : Node}

@[simp] theorem wp_deref {own : Set (Cell Node L)} {Q : Node → Memory Node L → Prop} :
    (deref (some n) : Code (Cell Node L) Val Node).wp own Q m ↔ Q n m := Iff.rfl

@[simp] theorem wp_isEmpty {own : Set (Cell Node L)} {Q : Bool → Memory Node L → Prop} :
    (isEmpty l : Code (Cell Node L) Val Bool).wp own Q m ↔ .head l ∈ own ∧ Q (m (.head l)).isNone m := by
  simp [isEmpty]

@[simp] theorem wp_reset {own : Set (Cell Node L)} {Q : Unit → Memory Node L → Prop} :
    (reset l : Code (Cell Node L) Val Unit).wp own Q m ↔ .head l ∈ own ∧ .tail l ∈ own ∧ .size l ∈ own ∧
      Q () (Function.update (Function.update (Function.update m (.head l) none) (.tail l) none) (.size l) 0) := by
  simp [reset]

theorem pushBack_spec (h : Represents m l xs) (hn : n ∉ xs) :
    (pushBack l n).wp (cells l (xs ++ [n])) (fun _ m' => Represents m' l (xs ++ [n])) m := by
  rcases List.eq_nil_or_concat' xs with rfl | ⟨rest, last, rfl⟩
  · simp [pushBack, h.head]
    constructor <;> simp [h.size, Linked]
  · have hhead : (m (.head l)).isNone = false := by simp [h.head]
    have htail : m (.tail l) = some last := by simp [h.tail]
    have hnodup : (n :: (rest ++ [last])).Nodup := List.nodup_cons.mpr ⟨hn, h.nodup⟩
    simp only [pushBack, Code.wp_bind, Code.wp_load, Code.wp_store, wp_isEmpty]
    simp [hhead, htail]
    constructor
    · simp [h.head]
    · simp
    · simp [h.size]
    · rw [List.append_cons, linked_append]
      refine ⟨h.linked.relink ?_ fun k hk => ?_, ?_, trivial⟩
      · simp
      · have hkn : k ≠ n := ne_of_mem_of_not_mem (List.mem_append_left _ hk) hn
        have hkl : k ≠ last := fun heq => (List.nodup_append.mp h.nodup).2.2 k hk last (by simp) heq
        simp [hkn, hkl]
      · have hnl : n ≠ last := fun heq => hn (by simp [heq])
        simp [hnl]
    · rw [List.append_cons, List.nodup_append_comm]
      exact hnodup

theorem popFront_spec (h : Represents m l xs) :
    (popFront l).wp (cells l xs)
      (fun r m' => r = xs.head? ∧ Represents m' l xs.tail ∧ ∀ n ∈ xs.head?, m' (.next n) = none) m := by
  match xs with
  | [] =>
    simpa [popFront, h.head] using h
  | [n] =>
    have hhead : m (.head l) = some n := by simp [h.head]
    have htail : m (.tail l) = some n := by simp [h.tail]
    simp [popFront, hhead, htail]
    constructor <;> simp [h.size, Linked]
  | n :: k :: rest =>
    have hhead : m (.head l) = some n := by simp [h.head]
    have htail : some n ≠ m (.tail l) := by
      intro heq
      rw [h.tail, List.getLast?_cons_cons] at heq
      exact (List.nodup_cons.mp h.nodup).1 (List.mem_of_getLast? heq.symm)
    have hnext : m (.next n) = some k := h.linked.1
    simp [popFront, hhead, htail, hnext]
    constructor
    · simp
    · simp [h.tail]
    · simp [h.size]
    · refine h.linked.2.congr fun j hj => ?_
      have hjn : j ≠ n := ne_of_mem_of_not_mem hj (List.nodup_cons.mp h.nodup).1
      simp [hjn]
    · exact (List.nodup_cons.mp h.nodup).2

theorem append_spec (h : Represents m l xs) (hthat : Represents m that ys) (hne : l ≠ that) (hdisj : xs.Disjoint ys) :
    (append l that).wp (cells l xs ∪ cells that ys)
      (fun _ m' => Represents m' l (xs ++ ys) ∧ Represents m' that []) m := by
  cases ys with
  | nil => simp [append, hthat.head, h, hthat]
  | cons k ys =>
    rcases List.eq_nil_or_concat' xs with rfl | ⟨rest, last, rfl⟩
    · simp [append, hthat.head, h.head]
      constructor
      · constructor
        · simp [hne]
        · simp [hne, hthat.tail]
        · simp [hne, hthat.size]
        · exact hthat.linked.congr fun j hj => by simp
        · exact hthat.nodup
      · constructor <;> simp [Linked]
    · have hhead : (m (.head l)).isNone = false := by simp [h.head]
      have htail : m (.tail l) = some last := by simp [h.tail]
      simp [append, hthat.head, hhead, htail]
      constructor
      · constructor
        · simp [hne, h.head]
        · simp [hne, hthat.tail, List.getLast?_cons]
        · simp [hne, h.size, hthat.size]
          exact Nat.add_right_comm _ _ _
        · rw [List.append_cons, linked_append]
          refine ⟨h.linked.relink ?_ fun j hj => ?_, hthat.linked.congr fun j hj => ?_⟩
          · simp
          · have hjl : j ≠ last := fun heq => (List.nodup_append.mp h.nodup).2.2 j hj last (by simp) heq
            simp [hjl]
          · have hjl : j ≠ last := fun heq => hdisj (by simp) (heq ▸ hj)
            simp [hjl]
        · rw [List.append_cons]
          exact List.nodup_append'.mpr ⟨h.nodup, hthat.nodup, hdisj⟩
      · constructor <;> simp [Linked]

theorem pushFront_spec (h : Represents m l xs) (hn : n ∉ xs) (hnext : m (.next n) = none) :
    (pushFront l n).wp (cells l (n :: xs)) (fun _ m' => Represents m' l (n :: xs)) m := by
  cases xs with
  | nil =>
    simp [pushFront, h.head]
    constructor <;> simp [h.size, Linked, hnext]
  | cons k rest =>
    simp [pushFront, h.head]
    constructor
    · simp
    · simp [h.tail]
    · simp [h.size]
    · refine ⟨by simp, h.linked.congr fun j hj => ?_⟩
      have hjn : j ≠ n := ne_of_mem_of_not_mem hj hn
      simp [hjn]
    · exact List.nodup_cons.mpr ⟨hn, h.nodup⟩

theorem moveFrom_spec (h : Represents m that xs) (hne : l ≠ that) :
    (moveFrom l that).wp (fields l ∪ cells that xs) (fun _ m' => Represents m' l xs ∧ Represents m' that []) m := by
  simp [moveFrom]
  constructor
  · constructor
    · simp [hne, h.head]
    · simp [hne, h.tail]
    · simp [hne, h.size]
    · exact h.linked.congr fun j hj => by simp
    · exact h.nodup
  · constructor <;> simp [Linked]

theorem walk_spec {p : Option Node} (rounds : Nat) (hp : p = xs.head?) (h : Linked (fun k => m (.next k)) xs none) :
    (walk rounds p).wp (links xs) (fun r m' => r = xs.take rounds ∧ m' = m) m := by
  subst hp
  induction rounds generalizing xs with
  | zero => simp [walk]
  | succ rounds ih =>
    cases xs with
    | nil => simp [walk]
    | cons k rest =>
      have hnext : m (.next k) = rest.head? := h.1.trans (Option.or_none ..)
      have hrest := ih h.2
      simp [walk, hnext]
      refine hrest.mono ?_ ?_
      · rintro c ⟨j, hj, rfl⟩
        exact ⟨j, List.mem_cons_of_mem _ hj, rfl⟩
      · rintro r m' ⟨rfl, rfl⟩
        simp

theorem forEach_spec (rounds : Nat) (h : Represents m l xs) :
    (forEach rounds l).wp (cells l xs) (fun r m' => r = xs.take rounds ∧ m' = m) m := by
  simp [forEach]
  exact (walk_spec rounds h.head h.linked).mono Set.subset_union_right fun _ _ => id

end Specifications

end CppConcur.Intrusive
