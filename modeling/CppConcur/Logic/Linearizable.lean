import Mathlib.Data.List.Nodup

/-!
# Linearizability

The history of an object that is used concurrently has the calls and the returns of operations. Such a
history is linearizable if there is an order of operations that a sequential object could have taken one
after the other: it has every operation that returned, with its result, and an operation that returned
before another was called comes first.

The usual way to such an order is a step of each operation, between its call and its return, at which it
takes effect. In a log that also has these commits, every operation goes from called to committed to
returned, and the object changes as the sequential one does with every commit. Then the commits are the
order.
-/

namespace CppConcur.Logic.Linearizable

/-- A sequential object: its initial state, and what an operation with a result does to the state. -/
structure Spec (σ Op Res : Type*) where
  init : σ
  next : σ → Op → Res → σ → Prop

/-- An operation with its name and its result. -/
structure Entry (Id Op Res : Type*) where
  id : Id
  op : Op
  res : Res

inductive Event (Id Op Res : Type*)
  | call (i : Id) (op : Op)
  | commit (x : Entry Id Op Res)
  | ret (i : Id) (r : Res)

variable {σ Id Op Res : Type*} {S : Spec σ Op Res} {l : List (Event Id Op Res)} {e : Event Id Op Res} {v w : σ}
  {i j : Id} {op : Op} {r : Res} {x : Entry Id Op Res}

/-- The sequential object takes the operations one after the other. -/
inductive Spec.Run (S : Spec σ Op Res) : List (Entry Id Op Res) → σ → Prop
  | nil : Run S [] S.init
  | snoc {order : List (Entry Id Op Res)} {v w : σ} {x : Entry Id Op Res} (hrun : Run S order v)
      (hnext : S.next v x.op x.res w) : Run S (order ++ [x]) w

/-- The order explains the calls and the returns of the history. -/
structure Explains (order : List (Entry Id Op Res)) (l : List (Event Id Op Res)) : Prop where
  nodup : (order.map Entry.id).Nodup
  called : ∀ x ∈ order, .call x.id x.op ∈ l
  returned : ∀ i r, .ret i r ∈ l → ∃ x ∈ order, x.id = i ∧ x.res = r
  realTime : ∀ i r j op, [.ret i r, .call j op].Sublist l → j ∈ order.map Entry.id →
    [i, j].Sublist (order.map Entry.id)

/-! ### Commits -/

/-- How far an operation is. -/
inductive Status (Op Res : Type*)
  | absent
  | called (op : Op)
  | committed (op : Op) (r : Res)
  | returned (op : Op) (r : Res)

/-- The operations that have committed, in the order of their commits. -/
def commits (l : List (Event Id Op Res)) : List (Entry Id Op Res) :=
  l.filterMap fun
    | .commit x => some x
    | _ => none

theorem commits_append (l k : List (Event Id Op Res)) : commits (l ++ k) = commits l ++ commits k :=
  List.filterMap_append

theorem mem_commits : x ∈ commits l ↔ .commit x ∈ l := by
  rw [commits, List.mem_filterMap]
  constructor
  · rintro ⟨y, hy, hx⟩
    cases y with
    | commit z =>
      cases hx
      exact hy
    | call | ret => cases hx
  · intro hx
    exact ⟨_, hx, rfl⟩

variable [DecidableEq Id]

/-- What an event makes of the operation `i`. -/
def Status.after (i : Id) (s : Status Op Res) : Event Id Op Res → Status Op Res
  | .call j op => if j = i then .called op else s
  | .commit x => if x.id = i then .committed x.op x.res else s
  | .ret j r =>
    if j = i then
      match s with
      | .committed op _ => .returned op r
      | s => s
    else s

/-- How far the operation `i` is after a log. -/
def status (l : List (Event Id Op Res)) (i : Id) : Status Op Res := l.foldl (Status.after i) .absent

/-- An event that may come after a log in which the object is in the state `v`. -/
inductive Next (S : Spec σ Op Res) (l : List (Event Id Op Res)) (v : σ) : Event Id Op Res → σ → Prop
  | call {i : Id} {op : Op} (hstatus : status l i = .absent) : Next S l v (.call i op) v
  | commit {x : Entry Id Op Res} {w : σ} (hstatus : status l x.id = .called x.op) (hnext : S.next v x.op x.res w) :
      Next S l v (.commit x) w
  | ret {i : Id} {op : Op} {r : Res} (hstatus : status l i = .committed op r) : Next S l v (.ret i r) v

/-- The logs in which every operation goes from called to committed to returned, with the state of the
object. -/
inductive Legal (S : Spec σ Op Res) : List (Event Id Op Res) → σ → Prop
  | nil : Legal S [] S.init
  | snoc {l : List (Event Id Op Res)} {e : Event Id Op Res} {v w : σ} (hl : Legal S l v) (he : Next S l v e w) :
      Legal S (l ++ [e]) w

theorem status_snoc (l : List (Event Id Op Res)) (e : Event Id Op Res) (i : Id) :
    status (l ++ [e]) i = (status l i).after i e := by
  rw [status, List.foldl_append]
  rfl

theorem status_call_self : status (l ++ [.call i op]) i = .called op := by
  rw [status_snoc]
  exact if_pos rfl

theorem status_commit_self : status (l ++ [.commit x]) x.id = .committed x.op x.res := by
  rw [status_snoc]
  exact if_pos rfl

theorem status_ret_self (h : status l i = .committed op r) : status (l ++ [.ret i r]) i = .returned op r := by
  rw [status_snoc, h]
  exact if_pos rfl

/-- The operation an event is about. -/
def Event.id : Event Id Op Res → Id
  | .call i _ => i
  | .commit x => x.id
  | .ret i _ => i

theorem status_of_ne (h : e.id ≠ i) : status (l ++ [e]) i = status l i := by
  rw [status_snoc]
  cases e with
  | call | commit | ret => exact if_neg h

/-! ### The commits explain the log -/

/-- The part of the log that concerns `i`, as its status tells it. -/
def Told (l : List (Event Id Op Res)) (i : Id) : Status Op Res → Prop
  | .absent => ∀ e ∈ l, e.id ≠ i
  | .called op => .call i op ∈ l ∧ ∀ x, .commit x ∈ l → x.id ≠ i
  | .committed op r => [.call i op, .commit ⟨i, op, r⟩].Sublist l
  | .returned op r => [.call i op, .commit ⟨i, op, r⟩, .ret i r].Sublist l

omit [DecidableEq Id] in
theorem Told.keep {s : Status Op Res} (h : Told l i s) (he : e.id ≠ i) : Told (l ++ [e]) i s := by
  have hsub {k : List (Event Id Op Res)} (hk : k.Sublist l) : k.Sublist (l ++ [e]) :=
    hk.trans (List.sublist_append_left l [e])
  cases s with
  | absent =>
    intro e' he'
    rcases List.mem_append.mp he' with hold | hnew
    · exact h e' hold
    · rw [List.mem_singleton.mp hnew]
      exact he
  | called op =>
    refine ⟨List.mem_append_left _ h.1, fun x hx => ?_⟩
    rcases List.mem_append.mp hx with hold | hnew
    · exact h.2 x hold
    · rw [← List.mem_singleton.mp hnew] at he
      exact he
  | committed op r => exact hsub h
  | returned op r => exact hsub h

theorem Legal.told (h : Legal S l v) (i : Id) : Told l i (status l i) := by
  induction h with
  | nil => exact nofun
  | @snoc l e v w _ he ih =>
    rcases eq_or_ne e.id i with rfl | hne
    · cases he with
      | @call i op hstatus =>
        show Told (l ++ [.call i op]) i (status (l ++ [.call i op]) i)
        have htold : Told l i (status l i) := ih
        rw [hstatus] at htold
        rw [status_call_self]
        refine ⟨List.mem_concat_self, fun x hx => ?_⟩
        rcases List.mem_append.mp hx with hold | hnew
        · exact htold _ hold
        · cases List.mem_singleton.mp hnew
      | @commit x w hstatus hnext =>
        show Told (l ++ [.commit x]) x.id (status (l ++ [.commit x]) x.id)
        have htold : Told l x.id (status l x.id) := ih
        rw [hstatus] at htold
        rw [status_commit_self]
        exact (List.singleton_sublist.mpr htold.1).append (List.Sublist.refl [Event.commit x])
      | @ret i op r hstatus =>
        show Told (l ++ [.ret i r]) i (status (l ++ [.ret i r]) i)
        have htold : Told l i (status l i) := ih
        rw [hstatus] at htold
        rw [status_ret_self hstatus]
        exact htold.append (List.Sublist.refl [Event.ret i r])
    · rw [status_of_ne hne]
      exact ih.keep hne

/-- Every event of a log was possible when it happened. -/
theorem Legal.split (h : Legal S l v) {l₁ l₂ : List (Event Id Op Res)} (hl : l = l₁ ++ e :: l₂) :
    ∃ v₁ w₁, Legal S l₁ v₁ ∧ Next S l₁ v₁ e w₁ := by
  induction h generalizing l₂ with
  | nil => simp at hl
  | @snoc l e' v w hlegal he ih =>
    rcases List.eq_nil_or_concat' l₂ with rfl | ⟨l₃, y, rfl⟩
    · obtain ⟨rfl, hlast⟩ := List.append_inj' hl rfl
      obtain rfl := List.singleton_inj.mp hlast
      exact ⟨v, w, hlegal, he⟩
    · rw [← List.cons_append, ← List.append_assoc] at hl
      exact ih (List.append_inj' hl rfl).1

/-- Before a return the operation has committed. -/
theorem Legal.told_ret (h : Legal S l v) {l₁ l₂ : List (Event Id Op Res)} (hl : l = l₁ ++ .ret i r :: l₂) :
    ∃ op, [.call i op, .commit ⟨i, op, r⟩].Sublist l₁ := by
  obtain ⟨v₁, w₁, hlegal, he⟩ := h.split hl
  cases he with
  | @ret i op r hstatus =>
    have htold := hlegal.told i
    rw [hstatus] at htold
    exact ⟨op, htold⟩

/-- Before a call there is nothing of the operation. -/
theorem Legal.told_call (h : Legal S l v) {l₁ l₂ : List (Event Id Op Res)} (hl : l = l₁ ++ .call i op :: l₂) :
    ∀ e ∈ l₁, e.id ≠ i := by
  obtain ⟨v₁, w₁, hlegal, he⟩ := h.split hl
  cases he with
  | call hstatus =>
    have htold := hlegal.told i
    rw [hstatus] at htold
    exact htold

/-- Before a commit the operation has been called and has not committed. -/
theorem Legal.told_commit (h : Legal S l v) {l₁ l₂ : List (Event Id Op Res)} (hl : l = l₁ ++ .commit x :: l₂) :
    .call x.id x.op ∈ l₁ ∧ ∀ y, .commit y ∈ l₁ → y.id ≠ x.id := by
  obtain ⟨v₁, w₁, hlegal, he⟩ := h.split hl
  cases he with
  | commit hstatus hnext =>
    have htold := hlegal.told x.id
    rw [hstatus] at htold
    exact htold

/-- An operation that has returned has committed in between. -/
theorem Legal.sublist_of_ret (h : Legal S l v) (hmem : .ret i r ∈ l) :
    ∃ op, [.call i op, .commit ⟨i, op, r⟩, .ret i r].Sublist l := by
  obtain ⟨l₁, l₂, hl⟩ := List.append_of_mem hmem
  obtain ⟨op, hsub⟩ := h.told_ret hl
  refine ⟨op, ?_⟩
  rw [hl]
  exact hsub.append (List.singleton_sublist.mpr List.mem_cons_self)

theorem Legal.nodup (h : Legal S l v) : ((commits l).map Entry.id).Nodup := by
  induction h with
  | nil => exact List.nodup_nil
  | @snoc l e v w hl he ih =>
    rw [commits_append]
    cases he with
    | @commit x w hstatus hnext =>
      have htold := hl.told x.id
      rw [hstatus] at htold
      rw [List.map_append, List.nodup_append_comm]
      refine List.nodup_cons.mpr ⟨fun hmem => ?_, ih⟩
      obtain ⟨y, hy, hid⟩ := List.mem_map.mp hmem
      exact htold.2 y (mem_commits.mp hy) hid
    | call | ret =>
      rw [show commits [_] = [] from rfl, List.append_nil]
      exact ih

/-- An operation that returned before another was called has committed first. -/
theorem Legal.realTime (h : Legal S l v) (hsub : [.ret i r, .call j op].Sublist l)
    (hj : j ∈ (commits l).map Entry.id) : [i, j].Sublist ((commits l).map Entry.id) := by
  have happend : ([Event.ret i r] ++ [Event.call j op]).Sublist l := hsub
  obtain ⟨k₁, k₂, rfl, hret, hcall⟩ := List.append_sublist_iff.mp happend
  obtain ⟨a₁, a₂, rfl⟩ := List.append_of_mem (List.singleton_sublist.mp hret)
  obtain ⟨b₁, b₂, rfl⟩ := List.append_of_mem (List.singleton_sublist.mp hcall)
  have hi : i ∈ (commits (a₁ ++ .ret i r :: a₂)).map Entry.id := by
    obtain ⟨op', hop⟩ := h.told_ret (show _ = a₁ ++ .ret i r :: _ from List.append_assoc ..)
    have hcommit : .commit ⟨i, op', r⟩ ∈ a₁ := hop.subset (List.mem_cons_of_mem _ List.mem_cons_self)
    exact List.mem_map.mpr ⟨⟨i, op', r⟩, mem_commits.mpr (List.mem_append_left _ hcommit), rfl⟩
  have hnone := h.told_call (show _ = (a₁ ++ .ret i r :: a₂ ++ b₁) ++ .call j op :: _ from (List.append_assoc ..).symm)
  rw [commits_append, List.map_append] at hj ⊢
  have hj' : j ∈ (commits (b₁ ++ .call j op :: b₂)).map Entry.id := by
    refine (List.mem_append.mp hj).resolve_left fun hmem => ?_
    obtain ⟨y, hy, hid⟩ := List.mem_map.mp hmem
    exact hnone (.commit y) (List.mem_append_left _ (mem_commits.mp hy)) hid
  exact (List.singleton_sublist.mpr hi).append (List.singleton_sublist.mpr hj')

/-- The commits explain a log in which every operation goes from called to committed to returned. -/
theorem Legal.explains (h : Legal S l v) : Explains (commits l) l where
  nodup := h.nodup
  called x hx := by
    obtain ⟨l₁, l₂, hl⟩ := List.append_of_mem (mem_commits.mp hx)
    rw [hl]
    exact List.mem_append_left _ (h.told_commit hl).1
  returned i r hret := by
    obtain ⟨op, hsub⟩ := h.sublist_of_ret hret
    have hcommit : .commit ⟨i, op, r⟩ ∈ l := hsub.subset (List.mem_cons_of_mem _ List.mem_cons_self)
    exact ⟨⟨i, op, r⟩, mem_commits.mpr hcommit, rfl, rfl⟩
  realTime i r j op hsub hj := h.realTime hsub hj

/-- The object is in the state that the commits lead to. -/
theorem Legal.run (h : Legal S l v) : S.Run (commits l) v := by
  induction h with
  | nil => exact .nil
  | @snoc l e v w _ he ih =>
    rw [commits_append]
    cases he with
    | commit hstatus hnext => exact ih.snoc hnext
    | call | ret =>
      rw [show commits [_] = [] from rfl, List.append_nil]
      exact ih

end CppConcur.Logic.Linearizable
