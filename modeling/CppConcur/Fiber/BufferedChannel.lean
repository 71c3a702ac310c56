import CppConcur.Logic.Transition
import Mathlib.Data.List.Infix

/-!
# The buffered channel of fibers

`BufferedChannelState` is a ring of `capacity_ + 1` slots under a spinlock, one of which stays free.
The vector behind it grows in the first lap and is written in place later. A fiber that finds the
channel full, or empty, puts itself into a list, releases the lock from its awaiter and is suspended;
each `Send` and `Recv` schedules at most one fiber out of the other list, and a fiber that was
scheduled takes the lock again and checks again.

Everything between taking `lock_` and releasing it is one step: the fibers interleave these sections.
-/

namespace CppConcur.Fiber.BufferedChannel

open Logic

variable {Fid T : Type}

/-- The channel, the fibers on their way back from its lists, and its history. A slot is `none` when
its value has been moved out. -/
structure Mem (Fid T : Type) where
  head : Nat
  tail : Nat
  data : List (Option T)
  senders : List Fid
  recvs : List Fid
  /-- scheduled out of `senders_`, `IsFull` not checked since -/
  wokenSenders : List Fid
  /-- scheduled out of `recvs_`, `IsEmpty` not checked since -/
  wokenRecvs : List Fid
  /-- the values sent, in the order of the updates of `tail_` -/
  sent : List T
  /-- what was moved out of the slots, in the order of the updates of `head_` -/
  received : List (Option T)

/-- `Next`. -/
def next (cap ptr : Nat) : Nat := (ptr + 1) % (cap + 1)

namespace Mem

/-- A new channel: room is reserved, but the vector is empty. -/
def new : Mem Fid T := ⟨0, 0, [], [], [], [], [], [], []⟩

/-- `IsEmpty`. -/
def isEmpty (m : Mem Fid T) : Bool := m.tail = m.head

/-- `IsFull`. -/
def isFull (cap : Nat) (m : Mem Fid T) : Bool := next cap m.tail = m.head

/-- `Place`. -/
def place (m : Mem Fid T) (v : T) (pos : Nat) : Mem Fid T := { m with data := m.data.set pos (some v) }

/-- Write a value to the slot at the tail. -/
def store (cap : Nat) (m : Mem Fid T) (v : T) : Mem Fid T :=
  if m.data.length < cap + 1 then { m with data := m.data ++ [some v] } else m.place v m.tail

/-- Schedule the first receiver, if one waits. -/
def wakeRecv (m : Mem Fid T) : Mem Fid T :=
  match m.recvs with
  | [] => m
  | f :: fs => { m with recvs := fs, wokenRecvs := m.wokenRecvs ++ [f] }

/-- Schedule the first sender, if one waits. -/
def wakeSender (m : Mem Fid T) : Mem Fid T :=
  match m.senders with
  | [] => m
  | f :: fs => { m with senders := fs, wokenSenders := m.wokenSenders ++ [f] }

/-- `Send` after its loop. -/
def put (cap : Nat) (m : Mem Fid T) (v : T) : Mem Fid T :=
  wakeRecv { m.store cap v with tail := next cap m.tail, sent := m.sent ++ [v] }

/-- `Recv` after its loop. -/
def take (cap : Nat) (m : Mem Fid T) : Mem Fid T :=
  wakeSender { m with
    data := m.data.set m.head none
    head := next cap m.head
    received := m.received ++ [m.data[m.head]?.join] }

/-- The awaiter of `Send`. -/
def parkSender (m : Mem Fid T) (f : Fid) : Mem Fid T := { m with senders := m.senders ++ [f] }

/-- The awaiter of `Recv`. -/
def parkRecv (m : Mem Fid T) (f : Fid) : Mem Fid T := { m with recvs := m.recvs ++ [f] }

end Mem

/-- Where a fiber is. -/
inductive Pc (T : Type)
  /-- not in a call of the channel -/
  | idle
  /-- in `Send`, about to take the lock for the first time -/
  | send (v : T)
  /-- in `Send`, suspended -/
  | sendWait (v : T)
  /-- in `Recv`, about to take the lock for the first time -/
  | recv
  /-- in `Recv`, suspended -/
  | recvWait

section Actions

variable [DecidableEq Fid]

/-- A fiber takes the lock in `Send`: at the start, or when it has been scheduled and is resumed. -/
inductive EntersSend (f : Fid) (v : T) (m : Mem Fid T) : Pc T → Mem Fid T → Prop
  | first : EntersSend f v m (.send v) m
  | again (h : f ∈ m.wokenSenders) :
      EntersSend f v m (.sendWait v) { m with wokenSenders := m.wokenSenders.erase f }

/-- A fiber takes the lock in `Recv`. -/
inductive EntersRecv (f : Fid) (m : Mem Fid T) : Pc T → Mem Fid T → Prop
  | first : EntersRecv f m .recv m
  | again (h : f ∈ m.wokenRecvs) :
      EntersRecv f m .recvWait { m with wokenRecvs := m.wokenRecvs.erase f }

/-- The sections of the fibers. -/
inductive Act (cap : Nat) (f : Fid) (m : Mem Fid T) : Pc T → Mem Fid T → Pc T → Prop
  | callSend (v : T) : Act cap f m .idle m (.send v)
  | callRecv : Act cap f m .idle m .recv
  | sendPark {pc : Pc T} {v : T} {m₁ : Mem Fid T} (henter : EntersSend f v m pc m₁)
      (hfull : m₁.isFull cap = true) : Act cap f m pc (m₁.parkSender f) (.sendWait v)
  | sendDone {pc : Pc T} {v : T} {m₁ : Mem Fid T} (henter : EntersSend f v m pc m₁)
      (hfull : m₁.isFull cap = false) : Act cap f m pc (m₁.put cap v) .idle
  | recvPark {pc : Pc T} {m₁ : Mem Fid T} (henter : EntersRecv f m pc m₁)
      (hempty : m₁.isEmpty = true) : Act cap f m pc (m₁.parkRecv f) .recvWait
  | recvDone {pc : Pc T} {m₁ : Mem Fid T} (henter : EntersRecv f m pc m₁)
      (hempty : m₁.isEmpty = false) : Act cap f m pc (m₁.take cap) .idle

def program (cap : Nat) : Program Fid (Mem Fid T) (Pc T) := fun f m pc m' pc' => Act cap f m pc m' pc'

/-- Any number of fibers on one channel. -/
def system (Fid T : Type) [DecidableEq Fid] (cap : Nat) : System (Conf Fid (Mem Fid T) (Pc T)) :=
  (program cap).system fun c => c = ⟨.new, fun _ => .idle⟩

end Actions

/-! ### The ring -/

/-- Two numbers less than `n` apart with one remainder are equal. -/
theorem eq_of_mod_eq {a b n : Nat} (hle : a ≤ b) (hlt : b - a < n) (h : a % n = b % n) : a = b := by
  have hdvd : (b - a) % n = 0 := Nat.sub_mod_eq_zero_of_mod_eq h.symm
  rw [Nat.mod_eq_of_lt hlt] at hdvd
  omega

/-- What the ring holds: the slots from `head_` to `tail_` are those of the values that were sent and
not received, wherever the laps are. -/
structure Ring (cap : Nat) (m : Mem Fid T) : Prop where
  le : m.received.length ≤ m.sent.length
  room : m.sent.length ≤ m.received.length + cap
  tail_eq : m.tail = m.sent.length % (cap + 1)
  head_eq : m.head = m.received.length % (cap + 1)
  size : m.data.length = min m.sent.length (cap + 1)
  live : ∀ i v, m.received.length ≤ i → m.sent[i]? = some v → m.data[i % (cap + 1)]? = some (some v)
  fifo : m.received = (m.sent.take m.received.length).map some

namespace Ring

variable {cap : Nat} {m : Mem Fid T}

theorem isEmpty_iff (h : Ring cap m) : m.isEmpty = true ↔ m.sent.length = m.received.length := by
  rw [Mem.isEmpty, decide_eq_true_iff, h.tail_eq, h.head_eq]
  have hle := h.le
  have hroom := h.room
  refine ⟨fun heq => ?_, fun heq => by rw [heq]⟩
  exact (eq_of_mod_eq hle (by omega) heq.symm).symm

theorem isFull_iff (h : Ring cap m) :
    m.isFull cap = true ↔ m.sent.length = m.received.length + cap := by
  rw [Mem.isFull, decide_eq_true_iff, next, h.tail_eq, h.head_eq, Nat.mod_add_mod]
  have hle := h.le
  have hroom := h.room
  refine ⟨fun heq => ?_, fun heq => ?_⟩
  · by_contra hne
    have := eq_of_mod_eq (n := cap + 1) (a := m.received.length) (b := m.sent.length + 1) (by omega)
      (by omega) heq.symm
    omega
  · rw [heq, Nat.add_assoc, Nat.add_mod_right]

/-- The slot at the tail is in the vector after the first lap. -/
theorem tail_lt (h : Ring cap m) (hsize : cap + 1 ≤ m.data.length) : m.tail < m.data.length := by
  have htail : m.sent.length % (cap + 1) < cap + 1 := Nat.mod_lt _ (Nat.succ_pos cap)
  rw [h.tail_eq]
  omega

theorem next_tail (h : Ring cap m) : next cap m.tail = (m.sent.length + 1) % (cap + 1) := by
  rw [next, h.tail_eq, Nat.mod_add_mod]

theorem next_head (h : Ring cap m) : next cap m.head = (m.received.length + 1) % (cap + 1) := by
  rw [next, h.head_eq, Nat.mod_add_mod]

theorem wakeRecv (h : Ring cap m) : Ring cap m.wakeRecv := by
  unfold Mem.wakeRecv
  split
  · exact h
  · exact ⟨h.le, h.room, h.tail_eq, h.head_eq, h.size, h.live, h.fifo⟩

theorem wakeSender (h : Ring cap m) : Ring cap m.wakeSender := by
  unfold Mem.wakeSender
  split
  · exact h
  · exact ⟨h.le, h.room, h.tail_eq, h.head_eq, h.size, h.live, h.fifo⟩

/-- The slot written is the one the tail designates, and no buffered value is in it. -/
theorem store_live (h : Ring cap m) (hroom : m.sent.length < m.received.length + cap) (v : T) :
    (m.store cap v).data.length = min (m.sent.length + 1) (cap + 1) ∧
      ∀ i w, m.received.length ≤ i → (m.sent ++ [v])[i]? = some w →
        (m.store cap v).data[i % (cap + 1)]? = some (some w) := by
  have hsize := h.size
  have hle := h.le
  have htail : m.sent.length % (cap + 1) < cap + 1 := Nat.mod_lt _ (Nat.succ_pos cap)
  rw [Mem.store]
  split
  case isTrue hlt =>
    -- the first lap: the new slot is the next one, and the indices of all values are their own
    have hlen : m.data.length = m.sent.length := by omega
    refine ⟨by simp only [List.length_append, List.length_singleton]; omega, ?_⟩
    intro i w hi hw
    show (m.data ++ [some v])[i % (cap + 1)]? = _
    rcases Nat.lt_trichotomy i m.sent.length with hlt' | rfl | hgt
    · rw [List.getElem?_append_left hlt'] at hw
      have hold := h.live i w hi hw
      rw [Nat.mod_eq_of_lt (by omega)] at hold ⊢
      rw [List.getElem?_append_left (by omega)]
      exact hold
    · rw [List.getElem?_concat_length] at hw
      cases hw
      rw [Nat.mod_eq_of_lt (by omega), ← hlen, List.getElem?_concat_length]
    · rw [List.getElem?_eq_none (by simp only [List.length_append, List.length_singleton]; omega)] at hw
      cases hw
  case isFalse hge =>
    refine ⟨by simp only [Mem.place, List.length_set]; omega, ?_⟩
    intro i w hi hw
    show (m.data.set m.tail (some v))[i % (cap + 1)]? = _
    rcases Nat.lt_trichotomy i m.sent.length with hlt' | rfl | hgt
    · rw [List.getElem?_append_left hlt'] at hw
      have hne : m.tail ≠ i % (cap + 1) := by
        rw [h.tail_eq]
        intro heq
        have := eq_of_mod_eq (n := cap + 1) (a := i) (b := m.sent.length) (by omega) (by omega) heq.symm
        omega
      rw [List.getElem?_set_ne hne]
      exact h.live i w hi hw
    · rw [List.getElem?_concat_length] at hw
      cases hw
      rw [h.tail_eq, List.getElem?_set_self (by omega)]
    · rw [List.getElem?_eq_none (by simp only [List.length_append, List.length_singleton]; omega)] at hw
      cases hw

theorem put (h : Ring cap m) (hfull : m.isFull cap = false) (v : T) : Ring cap (m.put cap v) := by
  have hne : m.sent.length ≠ m.received.length + cap := by
    rw [ne_eq, ← h.isFull_iff, hfull]
    exact nofun
  have hroom := h.room
  have hle := h.le
  obtain ⟨hsize, hlive⟩ := h.store_live (by omega) v
  have hreceived : (m.store cap v).received = m.received := by
    rw [Mem.store]
    split <;> rfl
  have hhead : (m.store cap v).head = m.head := by
    rw [Mem.store]
    split <;> rfl
  refine Ring.wakeRecv ⟨?_, ?_, ?_, ?_, ?_, ?_, ?_⟩
  all_goals simp only [hreceived, hhead, List.length_append, List.length_singleton]
  · omega
  · omega
  · exact h.next_tail
  · exact h.head_eq
  · exact hsize
  · exact hlive
  · rw [List.take_append_of_le_length hle]
    exact h.fifo

theorem take (h : Ring cap m) (hempty : m.isEmpty = false) : Ring cap (m.take cap) := by
  have hne : m.sent.length ≠ m.received.length := by
    rw [ne_eq, ← h.isEmpty_iff, hempty]
    exact nofun
  have hle := h.le
  have hroom := h.room
  have hlt : m.received.length < m.sent.length := by omega
  -- the slot at the head holds the first value that has not been received
  have hvalue : m.data[m.head]? = some (some (m.sent[m.received.length])) := by
    rw [h.head_eq]
    exact h.live _ _ (Nat.le_refl _) (List.getElem?_eq_getElem hlt)
  refine Ring.wakeSender ⟨?_, ?_, ?_, ?_, ?_, ?_, ?_⟩
  all_goals simp only [hvalue, Option.join_some, List.length_append, List.length_singleton]
  · omega
  · omega
  · exact h.tail_eq
  · exact h.next_head
  · rw [List.length_set]
    exact h.size
  · intro i v hi hv
    have hi' : i < m.sent.length := (List.getElem?_eq_some_iff.mp hv).1
    have hne : m.head ≠ i % (cap + 1) := by
      rw [h.head_eq]
      intro heq
      have := eq_of_mod_eq (n := cap + 1) (by omega : m.received.length ≤ i) (by omega) heq
      omega
    rw [List.getElem?_set_ne hne]
    exact h.live i v (by omega) hv
  · rw [List.take_succ_eq_append_getElem hlt, List.map_append, ← h.fifo]
    rfl

end Ring

section Contents

variable [DecidableEq Fid] {cap : Nat}

theorem EntersSend.ring {f : Fid} {v : T} {m m₁ : Mem Fid T} {pc : Pc T} (h : EntersSend f v m pc m₁)
    (hring : Ring cap m) : Ring cap m₁ := by
  cases h with
  | first => exact hring
  | again => exact { hring with }

theorem EntersRecv.ring {f : Fid} {m m₁ : Mem Fid T} {pc : Pc T} (h : EntersRecv f m pc m₁)
    (hring : Ring cap m) : Ring cap m₁ := by
  cases h with
  | first => exact hring
  | again => exact { hring with }

theorem Act.ring {f : Fid} {m m' : Mem Fid T} {pc pc' : Pc T} (h : Act cap f m pc m' pc')
    (hring : Ring cap m) : Ring cap m' := by
  cases h with
  | callSend | callRecv => exact hring
  | sendPark henter => exact { henter.ring hring with }
  | sendDone henter hfull => exact (henter.ring hring).put hfull _
  | recvPark henter => exact { henter.ring hring with }
  | recvDone henter hempty => exact (henter.ring hring).take hempty

theorem ring_of_reachable {c : Conf Fid (Mem Fid T) (Pc T)} (h : (system Fid T cap).Reachable c) :
    Ring cap c.mem := by
  apply h.invariant
  · intro c hinit
    obtain rfl : c = _ := hinit
    refine ⟨Nat.le_refl _, Nat.zero_le _, (Nat.zero_mod _).symm, (Nat.zero_mod _).symm, ?_, ?_, rfl⟩
    · exact (Nat.zero_min _).symm
    · intro i v _ hv
      exact nomatch hv
  · intro c c' _ hring hstep
    obtain ⟨f, m', pc', hact, rfl⟩ := hstep
    exact Act.ring hact hring

/-- A fiber sends on a channel that is not full, with no other fiber in between. -/
theorem reachable_send {c : Conf Fid (Mem Fid T) (Pc T)} (h : (system Fid T cap).Reachable c) {f : Fid}
    (hidle : c.pc f = .idle) (hfull : c.mem.isFull cap = false) (v : T) :
    (system Fid T cap).Reachable ⟨c.mem.put cap v, c.pc⟩ := by
  have hcall : (system Fid T cap).Reachable ⟨c.mem, Function.update c.pc f (.send v)⟩ :=
    .step h ⟨f, _, _, by rw [hidle]; exact .callSend v, rfl⟩
  refine .step hcall ⟨f, c.mem.put cap v, .idle, ?_, ?_⟩
  · show Act cap f c.mem (Function.update c.pc f (.send v) f) _ _
    rw [Function.update_self]
    exact .sendDone .first hfull
  · show _ = (⟨_, Function.update (Function.update c.pc f _) f _⟩ : Conf Fid (Mem Fid T) (Pc T))
    rw [Function.update_idem, ← hidle, Function.update_eq_self]

/-- A fiber receives from a channel that is not empty. -/
theorem reachable_recv {c : Conf Fid (Mem Fid T) (Pc T)} (h : (system Fid T cap).Reachable c) {f : Fid}
    (hidle : c.pc f = .idle) (hempty : c.mem.isEmpty = false) :
    (system Fid T cap).Reachable ⟨c.mem.take cap, c.pc⟩ := by
  have hcall : (system Fid T cap).Reachable ⟨c.mem, Function.update c.pc f .recv⟩ :=
    .step h ⟨f, _, _, by rw [hidle]; exact .callRecv, rfl⟩
  refine .step hcall ⟨f, c.mem.take cap, .idle, ?_, ?_⟩
  · show Act cap f c.mem (Function.update c.pc f .recv f) _ _
    rw [Function.update_self]
    exact .recvDone .first hempty
  · show _ = (⟨_, Function.update (Function.update c.pc f _) f _⟩ : Conf Fid (Mem Fid T) (Pc T))
    rw [Function.update_idem, ← hidle, Function.update_eq_self]

end Contents

end CppConcur.Fiber.BufferedChannel
