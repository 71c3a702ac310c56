import CppConcur.Logic.Linearizable
import CppConcur.LockFree.SharedPtr

/-!
# An `AtomicSharedPtr` is an atomic cell of pointers

The operations on one cell are recorded with their calls, commits and returns. `Load` takes effect with
the compare-exchange that increments the stamp, `Store` with its exchange, `CompareExchangeWeak` with its
compare-exchange if that succeeds, and otherwise with the increment of the `Load` that follows. An
operation has returned when its result is where the caller finds it; the parameters that were passed by
value are destroyed after that. A `CompareExchangeWeak` is recorded as called when it reads its arguments,
which is at its first access of the cell.

At every moment the pointer of the cell is the one that the commits so far lead to. Increments and flushes
of the stamp write the pointer they have just compared with.
-/

namespace CppConcur.LockFree.SharedPtr

open Logic.Linearizable

variable {Tid Cell Handle : Type*}

/-- The operations on a cell, with their arguments. -/
inductive Op
  | load
  | store (target : Option Addr)
  | compareExchange (expected desired : Option Addr)

/-- What the operations return; one that returns false sets `expected` to `p`. -/
inductive Res
  | value (p : Option Addr)
  | stored
  | exchanged
  | failed (p : Option Addr)

/-- The operations of an atomic cell of pointers. A `CompareExchangeWeak` may fail although the cell is
equal to what is expected. -/
inductive PtrStep : Option Addr → Op → Res → Option Addr → Prop
  | load (v : Option Addr) : PtrStep v .load (.value v) v
  | store (v p : Option Addr) : PtrStep v (.store p) .stored p
  | exchange (e d : Option Addr) : PtrStep e (.compareExchange e d) .exchanged d
  | fail (v e d : Option Addr) : PtrStep v (.compareExchange e d) (.failed v) v

/-- An atomic cell of pointers. -/
def ptrCell : Spec (Option Addr) Op Res := ⟨none, PtrStep⟩

/-! ### Recording the operations on a cell -/

/-- Where the caller of an operation finds its result. -/
inductive Dest (Handle : Type*)
  | load (h : Handle)
  | store
  | exchange
  | failed (expected : Handle)

/-- An operation that has been called and has not returned. -/
structure Active (Handle : Type*) where
  id : Nat
  op : Op
  dest : Dest Handle

/-- The log of the operations on a cell, the next name, and the operations in progress. -/
structure Record (Tid Handle : Type*) where
  log : List (Event Nat Op Res)
  next : Nat
  active : Tid → Option (Active Handle)

/-- The result of an operation as the caller finds it. -/
def Dest.result (m : Mem Cell Handle) : Dest Handle → Res
  | .load h => .value ((m.handle h).getD none)
  | .store => .stored
  | .exchange => .exchanged
  | .failed expected => .failed ((m.handle expected).getD none)

/-- What is loaded, as the result of the operation that loads. -/
def LoadTo.answer (p : Option Addr) : LoadTo Handle → Res
  | .handle _ => .value p
  | .expected _ _ => .failed p

/-- What is left before an operation returns, and not only the destruction of a parameter. -/
def Rest.inBody : Rest Handle → Bool
  | .ret | .drop _ | .assign _ _ _ => true
  | .destroyed _ => false

def Cont.inBody : Cont Cell Handle → Bool
  | .handle _ _ | .reset _ .ret | .reset _ (.destroyed _) | .reset _ (.drop _) => false
  | .reset _ (.assign _ _ _) | .exchange _ _ | .cleanup _ | .cas _ _ _ _ | .undo _ _ _ | .flush _ _ _ | .flushed _ => true

def Pc.inBody : Pc Cell Handle → Bool
  | .idle | .make _ => false
  | .addLoad _ _ k | .addCas _ _ _ k => k.inBody
  | .delete _ rest => rest.inBody
  | .incLoad _ _ | .incCas _ _ _ | .flushCas _ _ _ _ | .exchange _ _ _ | .casLoad _ _ _ | .cas _ _ _ _ _ => true

namespace Record

variable [DecidableEq Tid] (g : Record Tid Handle)

def call (t : Tid) (op : Op) (dest : Dest Handle) : Record Tid Handle where
  log := g.log ++ [.call g.next op]
  next := g.next + 1
  active := Function.update g.active t (some ⟨g.next, op, dest⟩)

def commit (t : Tid) (r : Res) : Record Tid Handle :=
  match g.active t with
  | some a => { g with log := g.log ++ [.commit ⟨a.id, a.op, r⟩] }
  | none => g

/-- A `CompareExchangeWeak` has failed and will set `expected`. -/
def fail (t : Tid) (expected : Handle) : Record Tid Handle :=
  { g with active := Function.update g.active t ((g.active t).map fun a => { a with dest := .failed expected }) }

/-- An operation has returned when nothing of its body is left. -/
def ret (t : Tid) (m : Mem Cell Handle) (pc : Pc Cell Handle) : Record Tid Handle :=
  match g.active t with
  | some a =>
    if pc.inBody then g
    else { g with log := g.log ++ [.ret a.id (a.dest.result m)], active := Function.update g.active t none }
  | none => g

variable [DecidableEq Cell] (c : Cell) (m : Mem Cell Handle)

/-- The call of an operation. -/
def onCall (t : Tid) : Call Cell Handle → Record Tid Handle
  | .load c' h => if c' = c then g.call t .load (.load h) else g
  | .store c' target => if c' = c then g.call t (.store ((m.handle target).getD none)) .store else g
  | .destroyCell c' => if c' = c then g.call t (.store none) .store else g
  | .construct _ | .makeShared _ | .copy _ _ | .move _ _ | .reset _ | .destroy _ | .compareExchangeWeak _ _ _ => g

/-- The atomic access of a step. -/
def onStep (t : Tid) (choice : Choice) : Pc Cell Handle → Record Tid Handle
  | .incCas c' old dest =>
    if c' = c ∧ m.cell c' = old ∧ choice.spurious = false then g.commit t (dest.answer old.rawPtr) else g
  | .exchange c' _ _ => if c' = c then g.commit t .stored else g
  | .casLoad c' expected desired =>
    if c' = c then
      g.call t (.compareExchange ((m.handle expected).getD none) ((m.handle desired).getD none)) .exchange
    else g
  | .cas c' expected _ _ old =>
    if c' = c then
      if m.cell c' = old ∧ choice.spurious = false then g.commit t .exchanged else g.fail t expected
    else g
  | .idle | .make _ | .addLoad _ _ _ | .addCas _ _ _ _ | .delete _ _ | .incLoad _ _ | .flushCas _ _ _ _ => g

end Record

section System

variable [DecidableEq Tid] [DecidableEq Cell] [DecidableEq Handle]

/-- The actions of a thread, recorded for the cell `c`. -/
inductive RecordedAct (c : Cell) (s : Logic.Conf Tid (Mem Cell Handle) (Pc Cell Handle)) (g : Record Tid Handle) (t : Tid) :
    Mem Cell Handle → Pc Cell Handle → Record Tid Handle → Prop
  | call (op : Call Cell Handle) (hallowed : Allowed s t op) :
      RecordedAct c s g t (call s.mem op).1 (call s.mem op).2 (g.onCall c s.mem t op)
  | step (choice : Choice) (halloc : ∀ h, s.pc t = .make h → s.mem.live choice.addr = false)
      (hstamp : ∀ c, ((step s.mem choice (s.pc t)).1.cell c).stamp < stamps) :
      RecordedAct c s g t (step s.mem choice (s.pc t)).1 (step s.mem choice (s.pc t)).2
        ((g.onStep c s.mem t choice (s.pc t)).ret t (step s.mem choice (s.pc t)).1 (step s.mem choice (s.pc t)).2)

/-- The runs of the system, with the operations on the cell `c` recorded. -/
def recordedSystem (Tid : Type*) {Cell : Type*} (Handle : Type*) [DecidableEq Tid] [DecidableEq Cell] [DecidableEq Handle]
    (c : Cell) : Logic.System (Logic.Conf Tid (Mem Cell Handle) (Pc Cell Handle) × Record Tid Handle) where
  init x := x = (⟨.new, fun _ => .idle⟩, ⟨[], 0, fun _ => none⟩)
  step x x' := ∃ t m' pc', RecordedAct c x.1 x.2 t m' pc' x'.2 ∧ x'.1 = ⟨m', Function.update x.1.pc t pc'⟩

theorem reachable_act {c : Cell} {s : Logic.Conf Tid (Mem Cell Handle) (Pc Cell Handle)} {g g' : Record Tid Handle} {t : Tid}
    {m' : Mem Cell Handle} {pc' : Pc Cell Handle} (h : (recordedSystem Tid Handle c).Reachable (s, g))
    (hact : RecordedAct c s g t m' pc' g') :
    (recordedSystem Tid Handle c).Reachable (⟨m', Function.update s.pc t pc'⟩, g') :=
  h.step ⟨t, m', pc', hact, rfl⟩

/-- Every run is recorded. -/
theorem exists_recorded {s : Logic.Conf Tid (Mem Cell Handle) (Pc Cell Handle)} (h : (system Tid Cell Handle).Reachable s)
    (c : Cell) : ∃ g, (recordedSystem Tid Handle c).Reachable (s, g) := by
  induction h with
  | init hinit =>
    obtain rfl := hinit
    exact ⟨_, .init rfl⟩
  | @step s s' _ hstep ih =>
    obtain ⟨g, hg⟩ := ih
    obtain ⟨t, m', pc', hact, rfl⟩ := hstep
    cases hact with
    | call op hallowed => exact ⟨_, reachable_act hg (.call op hallowed)⟩
    | step choice halloc hstamp => exact ⟨_, reachable_act hg (.step choice halloc hstamp)⟩

end System

/-! ### What an operation in progress has done -/

section Assertions

variable (c : Cell) (st : Status Op Res) (a : Active Handle)

/-- The rest of an operation that has committed. -/
def Rest.Tied : Rest Handle → Prop
  | .ret | .drop _ => (a.dest = .store ∧ st = .committed a.op .stored) ∨ (a.dest = .exchange ∧ st = .committed a.op .exchanged)
  | .assign expected p desired => a.dest = .failed expected ∧ expected ≠ desired ∧ st = .committed a.op (.failed p)
  | .destroyed _ => False

/-- An operation that loads: `Load`, or `CompareExchangeWeak` after its compare-exchange has failed. -/
def LoadTo.Tied : LoadTo Handle → Prop
  | .handle h => a.op = .load ∧ a.dest = .load h
  | .expected e d => (∃ p q, a.op = .compareExchange p q) ∧ a.dest = .failed e ∧ e ≠ d

def Cont.Tied (b : Addr) : Cont Cell Handle → Prop
  | .handle _ _ | .reset _ .ret | .reset _ (.destroyed _) | .reset _ (.drop _) => False
  | .reset _ (.assign expected p desired) => Rest.Tied st a (.assign expected p desired)
  | .exchange c' _ => c' = c ∧ a.op = .store (some b) ∧ a.dest = .store ∧ st = .called a.op
  | .cleanup rest => rest.Tied st a
  | .cas c' expected desired old =>
      c' = c ∧ a.op = .compareExchange old.rawPtr (some b) ∧ a.dest = .exchange ∧ expected ≠ desired ∧ st = .called a.op
  | .undo c' expected desired => c' = c ∧ LoadTo.Tied a (.expected expected desired) ∧ st = .called a.op
  | .flush c' _ dest => c' = c ∧ dest.Tied a ∧ st = .committed a.op (dest.answer (some b))
  | .flushed dest => dest.Tied a ∧ st = .committed a.op (dest.answer (some b))

/-- What a thread that is in the operation `a` on the cell `c` has done. -/
def Pc.Tied : Pc Cell Handle → Prop
  | .idle | .make _ | .casLoad _ _ _ => False
  | .addLoad b _ k | .addCas b _ _ k => k.Tied c st a b
  | .delete _ rest => rest.Tied st a
  | .incLoad c' dest | .incCas c' _ dest => c' = c ∧ dest.Tied a ∧ st = .called a.op
  | .flushCas c' b _ dest => c' = c ∧ dest.Tied a ∧ st = .committed a.op (dest.answer (some b))
  | .exchange c' _ p => c' = c ∧ a.op = .store p ∧ a.dest = .store ∧ st = .called a.op
  | .cas c' expected desired p old =>
      c' = c ∧ a.op = .compareExchange old.rawPtr p ∧ a.dest = .exchange ∧ expected ≠ desired ∧ st = .called a.op

def Cont.Outside : Cont Cell Handle → Prop
  | .handle _ _ | .reset _ _ | .cleanup _ | .flushed _ => True
  | .exchange c' _ | .cas c' _ _ _ | .undo c' _ _ | .flush c' _ _ => c' ≠ c

/-- A thread that is in no recorded operation does not access the cell `c` before it reads the arguments
of a `CompareExchangeWeak`. -/
def Pc.Outside : Pc Cell Handle → Prop
  | .idle | .make _ | .delete _ _ => True
  | .addLoad _ _ k | .addCas _ _ _ k => k.Outside c
  | .incLoad c' _ | .incCas c' _ _ | .flushCas c' _ _ _ | .exchange c' _ _ | .cas c' _ _ _ _ => c' ≠ c
  | .casLoad _ expected desired => expected ≠ desired

/-- The operation `a` goes on, or it has committed and its result is in place. -/
def Settled (next : Mem Cell Handle × Pc Cell Handle) : Prop :=
  if next.2.inBody then next.2.Tied c st a else st = .committed a.op (a.dest.result next.1)

end Assertions

theorem Pc.outside_of_inBody {pc : Pc Cell Handle} (h : pc.inBody = false) (c : Cell) : pc.Outside c := by
  match pc, h with
  | .idle, _ | .make _, _ | .delete _ _, _ => trivial
  | .addLoad _ _ (.handle _ _), _ | .addCas _ _ _ (.handle _ _), _ => trivial
  | .addLoad _ _ (.reset _ _), _ | .addCas _ _ _ (.reset _ _), _ => trivial

theorem Cont.Tied.inBody {c : Cell} {st : Status Op Res} {a : Active Handle} {b : Addr} {k : Cont Cell Handle}
    (h : k.Tied c st a b) : k.inBody = true := by
  match k, h with
  | .reset _ (.assign _ _ _), _ | .exchange _ _, _ | .cleanup _, _ | .cas _ _ _ _, _ | .undo _ _ _, _ | .flush _ _ _, _
  | .flushed _, _ => rfl

theorem Rest.Tied.inBody {st : Status Op Res} {a : Active Handle} {rest : Rest Handle} (h : rest.Tied st a) :
    rest.inBody = true := by
  match rest, h with
  | .ret, _ | .drop _, _ | .assign _ _ _, _ => rfl

theorem Pc.Tied.inBody {c : Cell} {st : Status Op Res} {a : Active Handle} {pc : Pc Cell Handle}
    (h : pc.Tied c st a) : pc.inBody = true := by
  match pc, h with
  | .addLoad _ _ _, h | .addCas _ _ _ _, h => exact Cont.Tied.inBody h
  | .delete _ _, h => exact Rest.Tied.inBody h
  | .incLoad _ _, _ | .incCas _ _ _, _ | .flushCas _ _ _ _, _ | .exchange _ _ _, _ | .cas _ _ _ _ _, _ => rfl

section Private

variable [DecidableEq Handle] {m : Mem Cell Handle} {c : Cell} {st : Status Op Res} {a : Active Handle}

omit [DecidableEq Handle] in
theorem Pc.Tied.settled {pc : Pc Cell Handle} (h : pc.Tied c st a) : Settled c st a (m, pc) := by
  rw [Settled, if_pos h.inBody]
  exact h

omit [DecidableEq Handle] in
theorem settled_of_committed {next : Mem Cell Handle × Pc Cell Handle} (hbody : next.2.inBody = false)
    (h : st = .committed a.op (a.dest.result next.1)) : Settled c st a next := by
  rw [Settled, hbody]
  exact h

/-! ### The private parts leave the cells alone -/

@[simp]
theorem dropHandle_cell (h : Handle) : (dropHandle m h).1.cell = m.cell := by
  rw [dropHandle]
  split <;> rfl

@[simp]
theorem finish_cell (rest : Rest Handle) : (finish m rest).1.cell = m.cell := by
  cases rest with
  | ret => rfl
  | destroyed h => rfl
  | drop h => exact dropHandle_cell h
  | assign expected p desired => exact dropHandle_cell desired

@[simp]
theorem resetHandle_cell (h : Handle) (rest : Rest Handle) : (resetHandle m h rest).1.cell = m.cell := by
  rw [resetHandle]
  split
  · rfl
  · exact finish_cell rest

@[simp]
theorem cleanupStampedBlock_cell (sp : StampedPtr Addr) (rest : Rest Handle) :
    (cleanupStampedBlock m sp rest).1.cell = m.cell := by
  rw [cleanupStampedBlock]
  split
  · exact finish_cell rest
  · rfl

@[simp]
theorem loaded_cell (p : Option Addr) (dest : LoadTo Handle) : (loaded m p dest).1.cell = m.cell := by
  cases dest with
  | handle h => rfl
  | expected expected desired => exact resetHandle_cell expected _

@[simp]
theorem tryUpdateTransient_cell (c : Cell) (old : StampedPtr Addr) (dest : LoadTo Handle) :
    (tryUpdateTransient m c old dest).1.cell = m.cell := by
  rw [tryUpdateTransient]
  split
  · exact loaded_cell none dest
  · rfl

@[simp]
theorem deleteIfZero_cell (b : Addr) (rest : Rest Handle) : (deleteIfZero m b rest).1.cell = m.cell := by
  rw [deleteIfZero]
  split
  · rfl
  · exact finish_cell rest

@[simp]
theorem resume_cell (b : Addr) (k : Cont Cell Handle) : (resume m b k).1.cell = m.cell := by
  cases k with
  | handle | exchange | cas | undo | flush => rfl
  | reset h rest => exact deleteIfZero_cell b rest
  | cleanup rest => exact deleteIfZero_cell b rest
  | flushed dest => exact loaded_cell (some b) dest

@[simp]
theorem call_cell (op : Call Cell Handle) : (call m op).1.cell = m.cell := by
  cases op with
  | construct | makeShared | move | load | destroyCell | compareExchangeWeak => rfl
  | copy h source =>
    simp only [call]
    split <;> rfl
  | reset h => exact resetHandle_cell h .ret
  | destroy h => exact dropHandle_cell h
  | store c target =>
    simp only [call]
    split <;> rfl

/-! ### What the private parts leave to do -/

theorem dropHandle_inBody (h : Handle) : (dropHandle m h).2.inBody = false := by
  rw [dropHandle]
  split <;> rfl

theorem finish_outside (rest : Rest Handle) : (finish m rest).2.Outside c := by
  apply Pc.outside_of_inBody
  cases rest with
  | ret => rfl
  | destroyed h => rfl
  | drop h => exact dropHandle_inBody h
  | assign expected p desired => exact dropHandle_inBody desired

theorem resetHandle_outside (h : Handle) (rest : Rest Handle) : (resetHandle m h rest).2.Outside c := by
  rw [resetHandle]
  split
  · trivial
  · exact finish_outside rest

theorem cleanupStampedBlock_outside (sp : StampedPtr Addr) (rest : Rest Handle) :
    (cleanupStampedBlock m sp rest).2.Outside c := by
  rw [cleanupStampedBlock]
  split
  · exact finish_outside rest
  · trivial

theorem loaded_outside (p : Option Addr) (dest : LoadTo Handle) : (loaded m p dest).2.Outside c := by
  cases dest with
  | handle h => trivial
  | expected expected desired => exact resetHandle_outside expected _

theorem tryUpdateTransient_outside {c' : Cell} (hc : c' ≠ c) (old : StampedPtr Addr) (dest : LoadTo Handle) :
    (tryUpdateTransient m c' old dest).2.Outside c := by
  rw [tryUpdateTransient]
  split
  · exact loaded_outside none dest
  · exact hc

theorem deleteIfZero_outside (b : Addr) (rest : Rest Handle) : (deleteIfZero m b rest).2.Outside c := by
  rw [deleteIfZero]
  split
  · trivial
  · exact finish_outside rest

theorem resume_outside {b : Addr} {k : Cont Cell Handle} (h : k.Outside c) : (resume m b k).2.Outside c := by
  cases k with
  | handle => trivial
  | exchange | cas | undo | flush => exact h
  | reset _ rest => exact deleteIfZero_outside b rest
  | cleanup rest => exact deleteIfZero_outside b rest
  | flushed dest => exact loaded_outside (some b) dest

theorem dropHandle_settled {h : Handle} (hst : st = .committed a.op (a.dest.result (dropHandle m h).1)) :
    Settled c st a (dropHandle m h) :=
  settled_of_committed (dropHandle_inBody h) hst

theorem dropHandle_handle {h h' : Handle} (hne : h' ≠ h) : (dropHandle m h).1.handle h' = m.handle h' := by
  rw [dropHandle]
  split
  · rfl
  · exact Function.update_of_ne hne _ _

theorem finish_settled {rest : Rest Handle} (h : rest.Tied st a) : Settled c st a (finish m rest) := by
  match rest, h with
  | .ret, .inl ⟨hdest, hst⟩ | .ret, .inr ⟨hdest, hst⟩ =>
    apply settled_of_committed rfl
    rw [hdest]
    exact hst
  | .drop _, .inl ⟨hdest, hst⟩ | .drop _, .inr ⟨hdest, hst⟩ =>
    apply dropHandle_settled
    rw [hdest]
    exact hst
  | .assign expected p desired, ⟨hdest, hne, hst⟩ =>
    apply dropHandle_settled
    rw [hdest, Dest.result, dropHandle_handle hne]
    show _ = Status.committed _ (Res.failed ((Function.update m.handle expected (some p) expected).getD none))
    rw [Function.update_self]
    exact hst

theorem deleteIfZero_settled {b : Addr} {rest : Rest Handle} (h : rest.Tied st a) :
    Settled c st a (deleteIfZero m b rest) := by
  rw [deleteIfZero]
  split
  · apply Pc.Tied.settled
    exact h
  · exact finish_settled h

theorem cleanupStampedBlock_settled {sp : StampedPtr Addr} {rest : Rest Handle} (h : rest.Tied st a) :
    Settled c st a (cleanupStampedBlock m sp rest) := by
  rw [cleanupStampedBlock]
  split
  · exact finish_settled h
  · apply Pc.Tied.settled
    exact h

theorem loaded_settled {p : Option Addr} {dest : LoadTo Handle} (h : dest.Tied a)
    (hst : st = .committed a.op (dest.answer p)) : Settled c st a (loaded m p dest) := by
  cases dest with
  | handle h' =>
    apply settled_of_committed rfl
    rw [h.2]
    show _ = Status.committed _ (Res.value ((Function.update m.handle h' (some p) h').getD none))
    rw [Function.update_self]
    exact hst
  | expected expected desired =>
    have hrest : Rest.Tied st a (.assign expected p desired) := ⟨h.2.1, h.2.2, hst⟩
    rw [loaded, resetHandle]
    split
    · apply Pc.Tied.settled
      exact hrest
    · exact finish_settled hrest

theorem tryUpdateTransient_settled {old : StampedPtr Addr} {dest : LoadTo Handle} (h : dest.Tied a)
    (hst : st = .committed a.op (dest.answer old.rawPtr)) : Settled c st a (tryUpdateTransient m c old dest) := by
  rw [tryUpdateTransient]
  split
  next hp => exact loaded_settled h (by rw [hst, hp])
  next b hp =>
    apply Pc.Tied.settled
    exact ⟨rfl, h, by rw [hst, hp]⟩

theorem resume_settled {b : Addr} {k : Cont Cell Handle} (h : k.Tied c st a b) : Settled c st a (resume m b k) := by
  match k, h with
  | .reset _ (.assign _ _ _), h => exact deleteIfZero_settled h
  | .cleanup rest, h => exact deleteIfZero_settled h
  | .flushed dest, h => exact loaded_settled h.1 h.2
  | .exchange _ _, h | .cas _ _ _ _, h | .undo _ _ _, h | .flush _ _ _, h =>
    apply Pc.Tied.settled
    exact h

end Private

end CppConcur.LockFree.SharedPtr
