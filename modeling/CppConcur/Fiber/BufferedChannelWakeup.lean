import CppConcur.Fiber.BufferedChannel
import CppConcur.Logic.Roster

/-!
# No lost wakeup in the buffered channel

A fiber that is scheduled out of a list does not own the slot, or the value, it was scheduled for: a
newcomer may take it, and then the fiber goes back to the end of the list. What holds between the
sections is a balance: as long as senders wait, at least as many of them are on their way as there are
free slots, and as long as receivers wait, at least as many are on their way as there are values.
-/

namespace CppConcur.Fiber.BufferedChannel

open Logic

variable {Fid T : Type} {cap : Nat}

namespace Mem

/-- The number of buffered values. -/
def buffered (m : Mem Fid T) : Nat := m.sent.length - m.received.length

/-- The number of free slots. -/
def free (cap : Nat) (m : Mem Fid T) : Nat := cap - m.buffered

end Mem

/-! ### The balance -/

/-- With `spare` more senders and receivers on their way, the fibers that wait are not forgotten. -/
structure Balance (cap spareSenders spareRecvs : Nat) (m : Mem Fid T) : Prop where
  senders : m.senders ≠ [] →
    m.received.length + cap ≤ m.sent.length + (m.wokenSenders.length + spareSenders)
  recvs : m.recvs ≠ [] → m.sent.length ≤ m.received.length + (m.wokenRecvs.length + spareRecvs)

section Balance

variable {m : Mem Fid T}

theorem store_lists (cap : Nat) (m : Mem Fid T) (v : T) :
    (m.store cap v).senders = m.senders ∧ (m.store cap v).recvs = m.recvs ∧
      (m.store cap v).wokenSenders = m.wokenSenders ∧ (m.store cap v).wokenRecvs = m.wokenRecvs ∧
      (m.store cap v).received = m.received := by
  rw [Mem.store]
  split <;> exact ⟨rfl, rfl, rfl, rfl, rfl⟩

/-- A sender that came back, or a newcomer, uses one free slot and schedules one receiver. -/
theorem Balance.put (h : Balance cap 1 0 m) (v : T) : Balance cap 0 0 (m.put cap v) := by
  obtain ⟨hsenders, hrecvs, hwokenSenders, hwokenRecvs, hreceived⟩ := store_lists cap m v
  unfold Mem.put Mem.wakeRecv
  simp only [hrecvs]
  split
  case h_1 hnil =>
    refine ⟨?_, ?_⟩
    · simp only [hsenders, hwokenSenders, hreceived, List.length_append, List.length_singleton]
      intro hne
      have := h.senders hne
      omega
    · intro hne
      exact absurd hnil hne
  case h_2 f fs hcons =>
    refine ⟨?_, ?_⟩
    · simp only [hsenders, hwokenSenders, hreceived, List.length_append, List.length_singleton]
      intro hne
      have := h.senders hne
      omega
    · simp only [hwokenRecvs, hreceived, List.length_append, List.length_singleton]
      intro _
      have := h.recvs (by rw [hcons]; exact List.cons_ne_nil f fs)
      omega

/-- A receiver takes one value and schedules one sender. -/
theorem Balance.take (h : Balance cap 0 1 m) : Balance cap 0 0 (m.take cap) := by
  unfold Mem.take Mem.wakeSender
  split
  case h_1 hnil =>
    refine ⟨fun hne => absurd hnil hne, ?_⟩
    simp only [List.length_append, List.length_singleton]
    intro hne
    have := h.recvs hne
    omega
  case h_2 f fs hcons =>
    refine ⟨?_, ?_⟩
    · simp only [List.length_append, List.length_singleton]
      intro _
      have := h.senders (by rw [show m.senders = f :: fs from hcons]; exact List.cons_ne_nil f fs)
      omega
    · simp only [List.length_append, List.length_singleton]
      intro hne
      have := h.recvs hne
      omega

variable [DecidableEq Fid]

theorem EntersSend.balance {f : Fid} {v : T} {m₁ : Mem Fid T} {pc : Pc T}
    (henter : EntersSend f v m pc m₁) (h : Balance cap 0 0 m) : Balance cap 1 0 m₁ := by
  cases henter with
  | first => exact ⟨fun hne => by have := h.senders hne; omega, h.recvs⟩
  | again hmem =>
    have hlength := List.length_erase_of_mem hmem
    have hpos := List.length_pos_of_mem hmem
    refine ⟨fun hne => ?_, h.recvs⟩
    have := h.senders hne
    show m.received.length + cap ≤ m.sent.length + ((m.wokenSenders.erase f).length + 1)
    omega

theorem EntersRecv.balance {f : Fid} {m₁ : Mem Fid T} {pc : Pc T}
    (henter : EntersRecv f m pc m₁) (h : Balance cap 0 0 m) : Balance cap 0 1 m₁ := by
  cases henter with
  | first => exact ⟨h.senders, fun hne => by have := h.recvs hne; omega⟩
  | again hmem =>
    have hlength := List.length_erase_of_mem hmem
    have hpos := List.length_pos_of_mem hmem
    refine ⟨h.senders, fun hne => ?_⟩
    have := h.recvs hne
    show m.sent.length ≤ m.received.length + ((m.wokenRecvs.erase f).length + 1)
    omega

theorem Act.balance {f : Fid} {m' : Mem Fid T} {pc pc' : Pc T} (hact : Act cap f m pc m' pc')
    (hring : Ring cap m) (h : Balance cap 0 0 m) : Balance cap 0 0 m' := by
  cases hact with
  | callSend | callRecv => exact h
  | sendPark henter hfull =>
    -- a full channel has no free slot, so it does not matter who is on its way
    have hcount := (henter.ring hring).isFull_iff.mp hfull
    exact ⟨fun _ => by simp only [Mem.parkSender]; omega, (henter.balance h).recvs⟩
  | sendDone henter hfull => exact (henter.balance h).put _
  | recvPark henter hempty =>
    have hcount := (henter.ring hring).isEmpty_iff.mp hempty
    exact ⟨(henter.balance h).senders, fun _ => by simp only [Mem.parkRecv]; omega⟩
  | recvDone henter hempty => exact (henter.balance h).take

theorem balance_of_reachable {c : Conf Fid (Mem Fid T) (Pc T)} (h : (system Fid T cap).Reachable c) :
    Balance cap 0 0 c.mem := by
  apply h.invariant
  · intro c hinit
    obtain rfl : c = _ := hinit
    exact ⟨fun hne => absurd rfl hne, fun hne => absurd rfl hne⟩
  · intro c c' hreach hbalance hstep
    obtain ⟨f, m', pc', hact, rfl⟩ := hstep
    exact Act.balance hact (ring_of_reachable hreach) hbalance

end Balance

/-! ### Who is in the lists -/

/-- The fiber is suspended in `Send`. -/
def Pc.InSend : Pc T → Prop
  | .sendWait _ => True
  | _ => False

/-- The fiber is suspended in `Recv`. -/
def Pc.InRecv : Pc T → Prop
  | .recvWait => True
  | _ => False

/-- The fibers suspended in `Send` are those in `senders_` and those scheduled out of it, each once,
and the same for `Recv`. -/
structure Parked (c : Conf Fid (Mem Fid T) (Pc T)) : Prop where
  senders : Roster (c.mem.senders ++ c.mem.wokenSenders) fun f => (c.pc f).InSend
  recvs : Roster (c.mem.recvs ++ c.mem.wokenRecvs) fun f => (c.pc f).InRecv

theorem put_senders (m : Mem Fid T) (v : T) :
    (m.put cap v).senders = m.senders ∧ (m.put cap v).wokenSenders = m.wokenSenders := by
  obtain ⟨hsenders, _, hwoken, _, _⟩ := store_lists cap m v
  unfold Mem.put Mem.wakeRecv
  split
  · exact ⟨hsenders, hwoken⟩
  · exact ⟨hsenders, hwoken⟩

/-- Scheduling a receiver moves it from one list to the other. -/
theorem put_recvs (m : Mem Fid T) (v : T) :
    ((m.put cap v).recvs ++ (m.put cap v).wokenRecvs).Perm (m.recvs ++ m.wokenRecvs) := by
  obtain ⟨_, hrecvs, _, hwoken, _⟩ := store_lists cap m v
  unfold Mem.put Mem.wakeRecv
  simp only [hrecvs]
  split
  case h_1 hnil =>
    simp only [hwoken]
    exact .rfl
  case h_2 f fs hcons =>
    simp only [hwoken, hcons, ← List.append_assoc]
    exact List.perm_append_singleton f (fs ++ m.wokenRecvs)

theorem take_recvs (m : Mem Fid T) :
    (m.take cap).recvs = m.recvs ∧ (m.take cap).wokenRecvs = m.wokenRecvs := by
  unfold Mem.take Mem.wakeSender
  split
  · exact ⟨rfl, rfl⟩
  · exact ⟨rfl, rfl⟩

/-- Scheduling a sender moves it from one list to the other. -/
theorem take_senders (m : Mem Fid T) :
    ((m.take cap).senders ++ (m.take cap).wokenSenders).Perm (m.senders ++ m.wokenSenders) := by
  unfold Mem.take Mem.wakeSender
  split
  case h_1 hnil => exact .rfl
  case h_2 f fs hcons =>
    have hcons : m.senders = f :: fs := hcons
    simp only [hcons, ← List.append_assoc]
    exact List.perm_append_singleton f (fs ++ m.wokenSenders)

section Parked

variable [DecidableEq Fid] {m : Mem Fid T} {pc : Fid → Pc T} {f : Fid}

theorem EntersSend.arrival {v : T} {m₁ : Mem Fid T} {x : Pc T} (h : EntersSend f v m x m₁) :
    m₁.senders = m.senders ∧ Arrival Pc.InSend f x m.wokenSenders m₁.wokenSenders := by
  cases h with
  | first => exact ⟨rfl, .first id⟩
  | again hmem => exact ⟨rfl, .again trivial hmem⟩

theorem EntersRecv.arrival {m₁ : Mem Fid T} {x : Pc T} (h : EntersRecv f m x m₁) :
    m₁.recvs = m.recvs ∧ Arrival Pc.InRecv f x m.wokenRecvs m₁.wokenRecvs := by
  cases h with
  | first => exact ⟨rfl, .first id⟩
  | again hmem => exact ⟨rfl, .again trivial hmem⟩

/-- A fiber that enters `Send` leaves the receivers alone. -/
theorem EntersSend.recvs {v : T} {m₁ : Mem Fid T} {x : Pc T} (h : EntersSend f v m x m₁) :
    m₁.recvs = m.recvs ∧ m₁.wokenRecvs = m.wokenRecvs ∧ ¬ x.InRecv := by
  cases h <;> exact ⟨rfl, rfl, id⟩

/-- A fiber that enters `Recv` leaves the senders alone. -/
theorem EntersRecv.senders {m₁ : Mem Fid T} {x : Pc T} (h : EntersRecv f m x m₁) :
    m₁.senders = m.senders ∧ m₁.wokenSenders = m.wokenSenders ∧ ¬ x.InSend := by
  cases h <;> exact ⟨rfl, rfl, id⟩

theorem Act.parked {c : Conf Fid (Mem Fid T) (Pc T)} {m' : Mem Fid T} {pc' : Pc T}
    (hact : Act cap f c.mem (c.pc f) m' pc') (h : Parked c) :
    Parked ⟨m', Function.update c.pc f pc'⟩ := by
  generalize hpc : c.pc f = x at hact
  cases hact with
  | callSend v =>
    exact ⟨h.senders.keep (Q := Pc.InSend) (by rw [hpc]; exact Iff.rfl),
      h.recvs.keep (Q := Pc.InRecv) (by rw [hpc]; exact Iff.rfl)⟩
  | callRecv =>
    exact ⟨h.senders.keep (Q := Pc.InSend) (by rw [hpc]; exact Iff.rfl),
      h.recvs.keep (Q := Pc.InRecv) (by rw [hpc]; exact Iff.rfl)⟩
  | @sendPark _ v m₁ henter hfull =>
    obtain ⟨hsenders, harrival⟩ := henter.arrival
    obtain ⟨hrecvs, hwoken, hnot⟩ := henter.recvs
    subst hpc
    refine ⟨?_, ?_⟩
    · show Roster (m₁.senders ++ [f] ++ m₁.wokenSenders) _
      rw [hsenders]
      have hin : (Pc.sendWait v).InSend := trivial
      exact h.senders.park harrival hin
    · show Roster (m₁.recvs ++ m₁.wokenRecvs) _
      rw [hrecvs, hwoken]
      exact h.recvs.keep (iff_of_false id hnot)
  | @sendDone _ v m₁ henter hfull =>
    obtain ⟨hsenders, harrival⟩ := henter.arrival
    obtain ⟨hrecvs, hwoken, hnot⟩ := henter.recvs
    subst hpc
    refine ⟨?_, ?_⟩
    · show Roster ((m₁.put cap v).senders ++ (m₁.put cap v).wokenSenders) _
      rw [(put_senders m₁ v).1, (put_senders m₁ v).2, hsenders]
      exact h.senders.pass harrival id
    · refine Roster.perm ?_ (put_recvs m₁ v)
      rw [hrecvs, hwoken]
      exact h.recvs.keep (iff_of_false id hnot)
  | @recvPark _ m₁ henter hempty =>
    obtain ⟨hrecvs, harrival⟩ := henter.arrival
    obtain ⟨hsenders, hwoken, hnot⟩ := henter.senders
    subst hpc
    refine ⟨?_, ?_⟩
    · show Roster (m₁.senders ++ m₁.wokenSenders) _
      rw [hsenders, hwoken]
      exact h.senders.keep (iff_of_false id hnot)
    · show Roster (m₁.recvs ++ [f] ++ m₁.wokenRecvs) _
      rw [hrecvs]
      have hin : (Pc.recvWait : Pc T).InRecv := trivial
      exact h.recvs.park harrival hin
  | @recvDone _ m₁ henter hempty =>
    obtain ⟨hrecvs, harrival⟩ := henter.arrival
    obtain ⟨hsenders, hwoken, hnot⟩ := henter.senders
    subst hpc
    refine ⟨?_, ?_⟩
    · refine Roster.perm ?_ (take_senders m₁)
      rw [hsenders, hwoken]
      exact h.senders.keep (iff_of_false id hnot)
    · show Roster ((m₁.take cap).recvs ++ (m₁.take cap).wokenRecvs) _
      rw [(take_recvs m₁).1, (take_recvs m₁).2, hrecvs]
      exact h.recvs.pass harrival id

theorem parked_of_reachable {c : Conf Fid (Mem Fid T) (Pc T)} (h : (system Fid T cap).Reachable c) :
    Parked c := by
  refine h.invariant ?_ ?_
  · intro c hinit
    obtain rfl : c = _ := hinit
    exact ⟨Roster.nil fun f => id, Roster.nil fun f => id⟩
  · intro c c' _ hparked hstep
    obtain ⟨f, m', pc', hact, rfl⟩ := hstep
    exact Act.parked hact hparked

/-- Between the sections: as long as senders wait, at least as many have been scheduled and have not
checked again as there are free slots; as long as receivers wait, at least as many as there are
values. So no fiber stays suspended when it could go on and nobody is on the way. -/
theorem channel_wakeups {c : Conf Fid (Mem Fid T) (Pc T)} (h : (system Fid T cap).Reachable c) :
    (c.mem.senders ≠ [] → c.mem.free cap ≤ c.mem.wokenSenders.length) ∧
      (c.mem.recvs ≠ [] → c.mem.buffered ≤ c.mem.wokenRecvs.length) ∧
      Roster (c.mem.senders ++ c.mem.wokenSenders) (fun f => (c.pc f).InSend) ∧
      Roster (c.mem.recvs ++ c.mem.wokenRecvs) (fun f => (c.pc f).InRecv) ∧
      (c.mem.senders ≠ [] → c.mem.isFull cap = false → c.mem.wokenSenders ≠ []) ∧
      (c.mem.recvs ≠ [] → c.mem.isEmpty = false → c.mem.wokenRecvs ≠ []) := by
  have hring := ring_of_reachable h
  have hbalance := balance_of_reachable h
  have hle := hring.le
  have hroom := hring.room
  refine ⟨?_, ?_, (parked_of_reachable h).senders, (parked_of_reachable h).recvs, ?_, ?_⟩
  · intro hne
    have := hbalance.senders hne
    simp only [Mem.free, Mem.buffered]
    omega
  · intro hne
    have := hbalance.recvs hne
    simp only [Mem.buffered]
    omega
  · intro hne hfull hnil
    have hcount := hbalance.senders hne
    rw [hnil] at hcount
    have : c.mem.isFull cap = true := hring.isFull_iff.mpr (by simp only [List.length_nil] at hcount; omega)
    rw [hfull] at this
    cases this
  · intro hne hempty hnil
    have hcount := hbalance.recvs hne
    rw [hnil] at hcount
    have : c.mem.isEmpty = true := hring.isEmpty_iff.mpr (by simp only [List.length_nil] at hcount; omega)
    rw [hempty] at this
    cases this

/-- A fiber finds the channel full and is suspended. -/
theorem reachable_sendPark {c : Conf Fid (Mem Fid T) (Pc T)} (h : (system Fid T cap).Reachable c)
    (hidle : c.pc f = .idle) (hfull : c.mem.isFull cap = true) (v : T) :
    (system Fid T cap).Reachable ⟨c.mem.parkSender f, Function.update c.pc f (.sendWait v)⟩ := by
  have hcall : (system Fid T cap).Reachable ⟨c.mem, Function.update c.pc f (.send v)⟩ :=
    .step h ⟨f, _, _, by rw [hidle]; exact .callSend v, rfl⟩
  refine .step hcall ⟨f, c.mem.parkSender f, .sendWait v, ?_, ?_⟩
  · show Act cap f c.mem (Function.update c.pc f (.send v) f) _ _
    rw [Function.update_self]
    exact .sendPark .first hfull
  · show _ = (⟨_, Function.update (Function.update c.pc f _) f _⟩ : Conf Fid (Mem Fid T) (Pc T))
    rw [Function.update_idem]

/-- Two senders wait on a channel with one slot, and a value is received: one of them is on its way. -/
theorem channel_wakeups_two_senders :
    ∃ c : Conf (Fin 3) (Mem (Fin 3) Nat) (Pc Nat), (system (Fin 3) Nat 1).Reachable c ∧
      c.mem.senders = [2] ∧ c.mem.free 1 = 1 ∧ c.mem.free 1 ≤ c.mem.wokenSenders.length := by
  have hnew : (system (Fin 3) Nat 1).Reachable ⟨.new, fun _ => .idle⟩ := .init rfl
  have hsent := reachable_send hnew (f := 0) rfl rfl 10
  have hone := reachable_sendPark hsent (f := 1) rfl rfl 11
  have htwo := reachable_sendPark hone (f := 2) rfl rfl 12
  have hreceived := reachable_recv htwo (f := 0) rfl rfl
  exact ⟨_, hreceived, rfl, rfl, (channel_wakeups hreceived).1 (List.cons_ne_nil _ _)⟩

end Parked

end CppConcur.Fiber.BufferedChannel
