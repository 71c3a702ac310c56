import CppConcur.Futures.Pipeline

/-!
# Trees of `First` and `Both`

Both combinators count the arrivals of their two inputs in `finished_`. A `First` forwards the input
whose increment found 0 and drops the other; a `Both` forwards the pair when an increment finds 1.
An input may come inside the `Start()` of its sibling, or long after the node has forwarded a value
and the nodes above have done with it.
-/

namespace CppConcur.Futures

variable {Sched : Type} {α β γ : Type} {ω : Path → Bool}

/-! ### An increment is left to do only before its node arrives -/

theorem Cont.answered_work {p p' : Path} {k : Cont Sched β α} {v : β} {s : State Sched} :
    Answered p' (k.work ω p v s) := by
  cases k with
  | map | mapOk => exact answered_task _ _
  | flatten future => exact ((future v).answered_work ω _).fed_at p'
  | inner | via | box | start => exact answered_zero

theorem answered_calls {p p' : Path} {t : Task α} {s : State Sched} :
    Answered p' (t.calls p s : Multiset (Work Sched)) :=
  fun x hx q hq => absurd hq (calls_not_counts x (Multiset.mem_coe.mp hx) q)

theorem Run.answered_work (ω : Path → Bool) (r : Run Sched α) (p : Path) :
    Answered p (r.work ω p) := by
  induction r generalizing p with
  | ready | contract | resume | eagerDone => exact answered_zero
  | submit s f => exact answered_task _ _
  | begin r ih | later r ih => exact ih p
  | task t s => exact answered_calls
  | under r k ih => exact ((ih _).fed_at p).add k.answered_work
  | both l r ihl ihr | first l r ihl ihr =>
    exact (((ihl _).fed_at p).add answered_count).add (((ihr _).fed_at p).add answered_count)
  | bothA a r ih => exact ((ih _).fed_at p).add answered_count
  | bothB l b ih => exact ((ih _).fed_at p).add answered_count
  | eager r ih => exact (ih _).fed_at p

theorem arrive_mem_outlet {p : Path} {v : Val} {s : State Sched} : .arrive p v s ∈ outlet p v s :=
  List.mem_cons_self

/-- An increment that a tree has left is followed by the arrival of its node, unless the node is a
`First` that is decided and the tree is the input that comes second. -/
theorem Root.arrives {x : Root Sched} {node : Counter} {q : Path} {left : Bool} {n : Nat}
    (h : .count node q left n ∈ x.todo ω) :
    (∃ v s, .arrive q v s ∈ x.todo ω) ∨ node = .first ∧ n = 1 := by
  cases Multiset.mem_add.mp h with
  | inl h =>
    refine .inl ?_
    cases x.run.answered_work ω x.path _ h q rfl with
    | inl heq =>
      rw [heq]
      exact ⟨_, _, Multiset.mem_add.mpr (.inr (Multiset.mem_coe.mpr arrive_mem_outlet))⟩
    | inr harrive =>
      obtain ⟨v, s, hmem⟩ := harrive
      exact ⟨v, s, Multiset.mem_add.mpr (.inl hmem)⟩
  | inr h =>
    obtain ⟨hnode, hn, _⟩ := outlet_led (Multiset.mem_coe.mp h)
    exact .inr ⟨hnode, hn⟩

/-- The increments that a node needs to forward a value have happened when the value arrives. -/
theorem Inv.counted {e : Future Sched α} {c : Conf Sched} (h : Inv e c) (hω : Agrees ω c.log)
    {node : Counter} {q : Path} {left : Bool} {n : Nat} {v : Val} {s : State Sched}
    (harrive : .arrive q v s ∈ c.log) (hcount : .count node q left n ∈ e.prescribed ω [])
    (hneeded : ¬ (node = .first ∧ n = 1)) : .count node q left n ∈ c.log := by
  rw [← h.conserved ω hω] at hcount
  cases Multiset.mem_add.mp hcount with
  | inl hcount => exact Multiset.mem_coe.mp hcount
  | inr hcount =>
    exfalso
    obtain ⟨x, hx, hcount⟩ := mem_todo.mp hcount
    obtain ⟨v', s', hmem⟩ := (Root.arrives hcount).resolve_right hneeded
    exact h.not_left hω harrive (mem_todo.mpr ⟨x, hx, hmem⟩) rfl

/-! ### Nodes of a tree -/

namespace Future

/-- The future `e'` is at the node `q` of the tree of `First` and `Both` that `e` at `p` begins
with. -/
inductive Node {γ : Type} (q : Path) (e' : Future Sched γ) : {α : Type} → Path → Future Sched α → Prop
  | refl : Node q e' q e'
  | bothLeft {α β : Type} {p : Path} {e₁ : Future Sched α} {e₂ : Future Sched β}
      (h : Node q e' (.left :: p) e₁) : Node q e' p (.both e₁ e₂)
  | bothRight {α β : Type} {p : Path} {e₁ : Future Sched α} {e₂ : Future Sched β}
      (h : Node q e' (.right :: p) e₂) : Node q e' p (.both e₁ e₂)
  | firstLeft {α : Type} {p : Path} {e₁ e₂ : Future Sched α}
      (h : Node q e' (.left :: p) e₁) : Node q e' p (.first e₁ e₂)
  | firstRight {α : Type} {p : Path} {e₁ e₂ : Future Sched α}
      (h : Node q e' (.right :: p) e₂) : Node q e' p (.first e₁ e₂)

end Future

/-! ### The work of a node that counts -/

section Counters

variable {q : Path}

theorem Future.Occurs.trans {p p' : Path} {e' : Future Sched γ} {e₁ : Future Sched β}
    {e : Future Sched α} (h : Occurs ω q e' p' e₁) (h' : Occurs ω p' e₁ p e) : Occurs ω q e' p e := by
  induction h' with
  | refl => exact h
  | map _ ih => exact .map ih
  | mapOk _ ih => exact .mapOk ih
  | flatten _ ih => exact .flatten ih
  | inner _ ih => exact .inner ih
  | via _ ih => exact .via ih
  | box _ ih => exact .box ih
  | bothLeft _ ih => exact .bothLeft ih
  | bothRight _ ih => exact .bothRight ih
  | firstLeft _ ih => exact .firstLeft ih
  | firstRight _ ih => exact .firstRight ih
  | start _ ih => exact .start ih

end Counters

section Nodes

variable {e : Future Sched α} {c : Conf Sched} {q : Path}

end Nodes

end CppConcur.Futures
