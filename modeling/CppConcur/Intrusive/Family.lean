import CppConcur.Intrusive.ForwardList

/-!
# Forward lists that share their nodes

Any number of intrusive lists over one supply of nodes, as the schedulers and the primitives use them: a node goes from
list to list, and is pushed only when it is in none. The lists in memory then answer every operation as sequences do, whole
lists are moved with `Append` and the move constructor, and a node outside all lists has a null `next_`, which is what
`PushFront` needs.
-/

namespace CppConcur.Intrusive

open Logic

variable {Node L : Type}

/-- An operation on one of the lists. -/
inductive Op (Node L : Type)
  | pushBack (l : L) (n : Node)
  | pushFront (l : L) (n : Node)
  | popFront (l : L)
  | append (l that : L)
  | move (l that : L)
  | isEmpty (l : L)
  | size (l : L)
  | forEach (rounds : Nat) (l : L)

/-- What an operation returns, or passes to its handler. -/
inductive Answer (Node : Type)
  | done
  | node (n : Option Node)
  | flag (b : Bool)
  | count (k : Nat)
  | nodes (ns : List Node)
  deriving DecidableEq

/-- The operation on the lists in memory. -/
def Op.code [DecidableEq Node] : Op Node L → Prog Node L (Answer Node)
  | pushBack l n => do Intrusive.pushBack l n; return .done
  | pushFront l n => do Intrusive.pushFront l n; return .done
  | popFront l => do return .node (← Intrusive.popFront l)
  | append l that => do Intrusive.append l that; return .done
  | move l that => do moveFrom l that; return .done
  | isEmpty l => do return .flag (← Intrusive.isEmpty l)
  | size l => do return .count (← getSize l)
  | forEach rounds l => do return .nodes (← Intrusive.forEach rounds l)

/-! ### Sequences -/

/-- The sequences that the lists stand for. -/
abbrev Sequences (Node L : Type) := L → List Node

/-- The node is in no list. -/
def Sequences.Free (xs : Sequences Node L) (n : Node) : Prop := ∀ l, n ∉ xs l

/-- What callers keep to: a node is pushed when it is in no list, a list is not appended to itself, and the move
constructor makes a new list. -/
def Op.Allowed (xs : Sequences Node L) : Op Node L → Prop
  | pushBack _ n => xs.Free n
  | pushFront _ n => xs.Free n
  | append l that => l ≠ that
  | move l that => l ≠ that ∧ xs l = []
  | popFront _ => True
  | isEmpty _ => True
  | size _ => True
  | forEach _ _ => True

section Spec

variable [DecidableEq L]

/-- The operation on sequences. -/
def Op.spec (xs : Sequences Node L) : Op Node L → Sequences Node L × Answer Node
  | pushBack l n => (Function.update xs l (xs l ++ [n]), .done)
  | pushFront l n => (Function.update xs l (n :: xs l), .done)
  | popFront l => (Function.update xs l (xs l).tail, .node (xs l).head?)
  | append l that => (Function.update (Function.update xs that []) l (xs l ++ xs that), .done)
  | move l that => (Function.update (Function.update xs that []) l (xs that), .done)
  | isEmpty l => (xs, .flag (xs l).isEmpty)
  | size l => (xs, .count (xs l).length)
  | forEach rounds l => (xs, .nodes ((xs l).take rounds))

/-- A sequence of operations on sequences, with their answers. -/
def runSpec : Sequences Node L → List (Op Node L) → Sequences Node L × List (Answer Node)
  | xs, [] => (xs, [])
  | xs, op :: ops =>
    let (xs', answer) := op.spec xs
    let (final, answers) := runSpec xs' ops
    (final, answer :: answers)

/-- Every operation is allowed when it comes. -/
def AllowedAll : Sequences Node L → List (Op Node L) → Prop
  | _, [] => True
  | xs, op :: ops => op.Allowed xs ∧ AllowedAll (op.spec xs).1 ops

variable [DecidableEq Node]

/-- A sequence of operations on the lists in memory, with their answers. -/
def runCode : Memory Node L → List (Op Node L) → Option (Memory Node L × List (Answer Node))
  | m, [] => some (m, [])
  | m, op :: ops => do
    let (m', answer) ← op.code.run m
    let (final, answers) ← runCode m' ops
    return (final, answer :: answers)

end Spec

/-! ### The lists stand for the sequences -/

/-- Every list represents its sequence, no node is in two lists, and the nodes outside are unlinked. -/
structure Family (m : Memory Node L) (xs : Sequences Node L) : Prop where
  represents : ∀ l, Represents m l (xs l)
  disjoint : ∀ l k, l ≠ k → (xs l).Disjoint (xs k)
  free : ∀ n, xs.Free n → m (.next n) = none

/-- New lists and unlinked nodes. -/
def Memory.new : Memory Node L
  | .next _ => none
  | .head _ => none
  | .tail _ => none
  | .size _ => 0

theorem family_new : Family (Memory.new : Memory Node L) fun _ => [] where
  represents _ := ⟨rfl, rfl, rfl, trivial, List.nodup_nil⟩
  disjoint _ _ _ := List.disjoint_nil_left _
  free _ _ := rfl

section Steps

variable {m m' : Memory Node L} {xs xs' : Sequences Node L}

/-- A list that an operation on other lists has left alone. -/
theorem Family.represents_frame (h : Family m xs) {changed : Set L} {own : Set (Cell Node L)}
    (hown : ∀ c ∈ own, (∃ l ∈ changed, c ∈ cells l (xs l)) ∨ ∃ n, c = .next n ∧ xs.Free n)
    (hsame : ∀ c ∉ own, m' c = m c) {k : L} (hk : k ∉ changed) : Represents m' k (xs k) := by
  refine (h.represents k).congr fun c hc => hsame c fun hin => ?_
  rcases hown c hin with ⟨l, hl, hfield | ⟨n, hn, rfl⟩⟩ | ⟨n, rfl, hfree⟩
  · have hkl : l ≠ k := ne_of_mem_of_not_mem hl hk
    simp only [mem_fields] at hfield
    rcases hfield with rfl | rfl | rfl <;> simp [hkl] at hc
  · exact h.disjoint l k (ne_of_mem_of_not_mem hl hk) hn (by simpa using hc)
  · exact hfree k (by simpa using hc)

/-- What an operation on some of the lists has to do, if it touches only their cells and nodes that are free. -/
theorem Family.of_frame (h : Family m xs) (changed : Set L) {own : Set (Cell Node L)}
    (hown : ∀ c ∈ own, (∃ l ∈ changed, c ∈ cells l (xs l)) ∨ ∃ n, c = .next n ∧ xs.Free n)
    (hsame : ∀ c ∉ own, m' c = m c) (hkeep : ∀ l ∉ changed, xs' l = xs l)
    (hrep : ∀ l ∈ changed, Represents m' l (xs' l))
    (hnew : ∀ l ∈ changed, ∀ n ∈ xs' l, (∃ k ∈ changed, n ∈ xs k) ∨ xs.Free n)
    (hdisj : ∀ l ∈ changed, ∀ k ∈ changed, l ≠ k → (xs' l).Disjoint (xs' k))
    (hfree : ∀ n, xs'.Free n → m' (.next n) = none ∨ xs.Free n ∧ .next n ∉ own) : Family m' xs' := by
  have hapart : ∀ l ∈ changed, ∀ k ∉ changed, (xs' l).Disjoint (xs k) := by
    intro l hl k hk n hn hmem
    rcases hnew l hl n hn with ⟨j, hj, hnj⟩ | hfree
    · exact h.disjoint j k (ne_of_mem_of_not_mem hj hk) hnj hmem
    · exact hfree k hmem
  refine ⟨fun l => ?_, fun l k hlk => ?_, fun n hn => ?_⟩
  · by_cases hl : l ∈ changed
    · exact hrep l hl
    · rw [hkeep l hl]
      exact h.represents_frame hown hsame hl
  · by_cases hl : l ∈ changed
    · by_cases hk : k ∈ changed
      · exact hdisj l hl k hk hlk
      · rw [hkeep k hk]
        exact hapart l hl k hk
    · rw [hkeep l hl]
      by_cases hk : k ∈ changed
      · exact fun n hn hn' => hapart k hk l hl hn' hn
      · rw [hkeep k hk]
        exact h.disjoint l k hlk
  · rcases hfree n hn with hnull | ⟨hn', hout⟩
    · exact hnull
    · rw [hsame _ hout]
      exact h.free n hn'

variable [DecidableEq L] {l that : L} {n : Node}

/-- The case of an operation on one list. -/
theorem Family.one (h : Family m xs) {ys : List Node} {own : Set (Cell Node L)}
    (hown : own ⊆ cells l (xs l) ∪ { c | ∃ k, c = .next k ∧ xs.Free k }) (hsame : ∀ c ∉ own, m' c = m c)
    (hrep : Represents m' l ys) (hnew : ∀ k ∈ ys, k ∈ xs l ∨ xs.Free k)
    (hfree : ∀ k ∉ ys, m' (.next k) = none ∨ k ∉ xs l ∧ .next k ∉ own) : Family m' (Function.update xs l ys) := by
  refine h.of_frame {l} (fun c hc => (hown hc).imp_left fun hc => ⟨l, rfl, hc⟩) hsame
    (fun k hk => Function.update_of_ne hk _ _) ?_ ?_ ?_ fun k hk => ?_
  · rintro k rfl
    simpa using hrep
  · rintro j rfl k hk
    rw [Function.update_self] at hk
    exact (hnew k hk).imp_left fun hmem => ⟨_, rfl, hmem⟩
  · rintro j rfl k rfl hne
    exact absurd rfl hne
  · have hk' : k ∉ ys := by simpa using hk l
    refine (hfree k hk').imp_right fun ⟨hnl, hout⟩ => ⟨fun j => ?_, hout⟩
    by_cases hj : j = l
    · exact hj ▸ hnl
    · have := hk j
      rwa [Function.update_of_ne hj] at this

/-- The case of a node that enters a list. -/
theorem Family.push (h : Family m xs) (hn : xs.Free n) {ys : List Node} (hys : ∀ k, k ∈ ys ↔ k ∈ xs l ∨ k = n)
    (hsame : ∀ c ∉ cells l ys, m' c = m c) (hrep : Represents m' l ys) : Family m' (Function.update xs l ys) := by
  refine h.one ?_ hsame hrep (fun k hk => ?_) fun k hk => .inr ⟨fun hmem => hk ((hys k).mpr (.inl hmem)), by simpa using hk⟩
  · rintro c (hfield | ⟨k, hk, rfl⟩)
    · exact .inl (.inl hfield)
    · rcases (hys k).mp hk with hk | rfl
      · exact .inl (.inr ⟨k, hk, rfl⟩)
      · exact .inr ⟨k, rfl, hn⟩
  · rcases (hys k).mp hk with hk | rfl
    · exact .inl hk
    · exact .inr hn

/-- The case of an operation that moves all nodes of one list to another. -/
theorem Family.two (h : Family m xs) (hne : l ≠ that) {ys : List Node} {own : Set (Cell Node L)}
    (hown : own ⊆ cells l (xs l) ∪ cells that (xs that)) (hsame : ∀ c ∉ own, m' c = m c) (hrep : Represents m' l ys)
    (hrep' : Represents m' that []) (hys : ∀ k, k ∈ ys ↔ k ∈ xs l ∨ k ∈ xs that) :
    Family m' (Function.update (Function.update xs that []) l ys) := by
  have hthat : Function.update (Function.update xs that []) l ys that = [] := by
    rw [Function.update_of_ne hne.symm, Function.update_self]
  refine h.of_frame {l, that} (fun c hc => ?_) hsame (fun k hk => ?_) ?_ ?_ ?_ fun k hk => ?_
  · rcases hown hc with hc | hc
    · exact .inl ⟨l, .inl rfl, hc⟩
    · exact .inl ⟨that, .inr rfl, hc⟩
  · rw [Function.update_of_ne fun heq => hk (.inl heq), Function.update_of_ne fun heq => hk (.inr heq)]
  · rintro k (rfl | rfl)
    · simpa using hrep
    · rw [hthat]
      exact hrep'
  · rintro j (rfl | rfl) k hk
    · rw [Function.update_self] at hk
      rcases (hys k).mp hk with hmem | hmem
      · exact .inl ⟨_, .inl rfl, hmem⟩
      · exact .inl ⟨_, .inr rfl, hmem⟩
    · rw [hthat] at hk
      exact absurd hk List.not_mem_nil
  · rintro j (rfl | rfl) k (rfl | rfl) hjk
    · exact absurd rfl hjk
    · rw [hthat]
      exact List.disjoint_nil_right _
    · rw [hthat]
      exact List.disjoint_nil_left _
    · exact absurd rfl hjk
  · have hk' : k ∉ ys := by simpa using hk l
    have hnot := not_or.mp (mt (hys k).mpr hk')
    refine .inr ⟨fun j => ?_, fun hin => ?_⟩
    · by_cases hj : j = l
      · exact hj ▸ hnot.1
      · by_cases hj' : j = that
        · exact hj' ▸ hnot.2
        · have := hk j
          rwa [Function.update_of_ne hj, Function.update_of_ne hj'] at this
    · have := hown hin
      simp [hnot.1, hnot.2] at this

variable [DecidableEq Node]

/-- An operation touches some cells, answers as on sequences, and leaves lists that stand for them. -/
theorem Family.code_spec (h : Family m xs) {op : Op Node L} (hallowed : op.Allowed xs) :
    ∃ own, op.code.wp own
      (fun r m' => r = (op.spec xs).2 ∧ ((∀ c ∉ own, m' c = m c) → Family m' (op.spec xs).1)) m := by
  cases op with
  | pushBack l n =>
    refine ⟨cells l (xs l ++ [n]), ?_⟩
    rw [Op.code, Code.wp_bind]
    refine (pushBack_spec (h.represents l) (hallowed l)).mono subset_rfl fun _ m' hrep => ⟨rfl, fun hsame => ?_⟩
    exact h.push hallowed (fun k => by simp) hsame hrep
  | pushFront l n =>
    refine ⟨cells l (n :: xs l), ?_⟩
    rw [Op.code, Code.wp_bind]
    refine (pushFront_spec (h.represents l) (hallowed l) (h.free n hallowed)).mono subset_rfl
      fun _ m' hrep => ⟨rfl, fun hsame => ?_⟩
    exact h.push hallowed (fun k => by simp [or_comm]) hsame hrep
  | popFront l =>
    refine ⟨cells l (xs l), ?_⟩
    rw [Op.code, Code.wp_bind]
    refine (popFront_spec (h.represents l)).mono subset_rfl fun r m' hpost => ?_
    obtain ⟨rfl, hrep, hnull⟩ := hpost
    refine ⟨rfl, fun hsame => h.one (Set.subset_union_left ..) hsame hrep (fun k hk => .inl (List.mem_of_mem_tail hk)) ?_⟩
    intro k hk
    by_cases hmem : k ∈ xs l
    · -- the node that has left is the first one
      have hfirst : (xs l).head? = some k := by
        cases hxs : xs l with
        | nil => simp [hxs] at hmem
        | cons j rest =>
          rw [hxs] at hmem hk
          exact congrArg some ((List.mem_cons.mp hmem).resolve_right hk).symm
      exact .inl (hnull k hfirst)
    · exact .inr ⟨hmem, by simpa using hmem⟩
  | append l that =>
    refine ⟨cells l (xs l) ∪ cells that (xs that), ?_⟩
    rw [Op.code, Code.wp_bind]
    refine (append_spec (h.represents l) (h.represents that) hallowed (h.disjoint l that hallowed)).mono subset_rfl
      fun _ m' hrep => ⟨rfl, fun hsame => ?_⟩
    exact h.two hallowed subset_rfl hsame hrep.1 hrep.2 fun k => List.mem_append
  | move l that =>
    obtain ⟨hne, hempty⟩ := hallowed
    refine ⟨fields l ∪ cells that (xs that), ?_⟩
    rw [Op.code, Code.wp_bind]
    refine (moveFrom_spec (h.represents that) hne).mono subset_rfl fun _ m' hrep => ⟨rfl, fun hsame => ?_⟩
    exact h.two hne (Set.union_subset_union_left _ Set.subset_union_left) hsame hrep.1 hrep.2 fun k => by simp [hempty]
  | isEmpty l =>
    refine ⟨cells l (xs l), ?_⟩
    have hempty : (m (.head l)).isNone = (xs l).isEmpty := by
      rw [(h.represents l).head]
      cases xs l <;> rfl
    simp [Op.code, Op.spec, hempty, h]
  | size l =>
    refine ⟨cells l (xs l), ?_⟩
    simp [Op.code, Op.spec, (h.represents l).size, h]
  | forEach rounds l =>
    refine ⟨cells l (xs l), ?_⟩
    rw [Op.code, Code.wp_bind]
    refine (forEach_spec rounds (h.represents l)).mono subset_rfl ?_
    rintro _ _ ⟨rfl, rfl⟩
    exact ⟨rfl, fun _ => h⟩

/-- One operation: the lists in memory answer as the sequences do. -/
theorem Family.step (h : Family m xs) {op : Op Node L} (hallowed : op.Allowed xs) :
    ∃ m', op.code.run m = some (m', (op.spec xs).2) ∧ Family m' (op.spec xs).1 := by
  obtain ⟨own, hcode⟩ := h.code_spec hallowed
  obtain ⟨m', r, hrun, ⟨rfl, hfamily⟩, hsame⟩ := hcode.frame.run
  exact ⟨m', hrun, hfamily hsame⟩

/-- Any sequence of operations. -/
theorem Family.run (h : Family m xs) {ops : List (Op Node L)} (hallowed : AllowedAll xs ops) :
    ∃ m', runCode m ops = some (m', (runSpec xs ops).2) ∧ Family m' (runSpec xs ops).1 := by
  induction ops generalizing m xs with
  | nil => exact ⟨m, rfl, h⟩
  | cons op ops ih =>
    obtain ⟨m₁, hrun, hfamily⟩ := h.step hallowed.1
    obtain ⟨m₂, hrest, hfinal⟩ := ih hfamily hallowed.2
    refine ⟨m₂, ?_, hfinal⟩
    rw [runCode, hrun]
    show (runCode m₁ ops).bind _ = _
    rw [hrest]
    rfl

end Steps

/-- Any number of intrusive lists over shared nodes refine sequences: as long as a node is pushed only when it is in no
list, every operation of every run comes to its end and answers as on sequences, and afterwards each list represents its
sequence, no node is in two lists, and the nodes in no list have a null `next_`. -/
theorem lists_refine_sequences [DecidableEq L] [DecidableEq Node] (ops : List (Op Node L))
    (hallowed : AllowedAll (fun _ => []) ops) :
    ∃ m', runCode Memory.new ops = some (m', (runSpec (fun _ => []) ops).2) ∧
      Family m' (runSpec (fun _ => []) ops).1 :=
  family_new.run hallowed

/-- Three nodes are pushed at both ends, appended to another list, and taken from there. -/
theorem lists_refine_sequences_appended :
    let ops : List (Op Nat Bool) :=
      [.pushFront true 1, .pushBack true 2, .pushBack false 3, .append false true, .popFront false, .size false,
        .pushFront true 3, .forEach 5 false, .popFront true]
    AllowedAll (fun _ => []) ops ∧ (runSpec (fun _ => []) ops).2 =
        [.done, .done, .done, .done, .node (some 3), .count 2, .done, .nodes [1, 2], .node (some 3)] ∧
      ∃ m', runCode Memory.new ops = some (m', (runSpec (fun _ => []) ops).2) := by
  intro ops
  have hallowed : AllowedAll (fun _ => []) ops := by
    simp [ops, AllowedAll, Op.Allowed, Sequences.Free, Op.spec]
  obtain ⟨m', hrun, _⟩ := lists_refine_sequences ops hallowed
  exact ⟨hallowed, rfl, m', hrun⟩

end CppConcur.Intrusive
