import CppConcur.LockFree.SharedPtrInvariant

/-!
# The steps of the shared pointers

Each private part of an operation gets one lemma, `Moves`: what it owes to the blocks when it starts is
what the operation contributes when it ends, it writes only the handles of the operation, and it refers
to no block that was not referred to before. The steps are put together from these.
-/

namespace CppConcur.LockFree.SharedPtr

variable {Cell Handle : Type*} {m : Mem Cell Handle} {W : Handle → Prop}

theorem handleCount_of_join {p : Option (Option Addr)} (h : p.join = none) (b : Addr) : handleCount p b = 0 := by
  unfold handleCount
  rw [h]
  rfl

section Handles

variable [DecidableEq Handle]

theorem setHandle_self (h : Handle) (p : Option (Option Addr)) : (m.setHandle h p).handle h = p :=
  Function.update_self ..

theorem setHandle_ne {h h' : Handle} (hne : h' ≠ h) (p : Option (Option Addr)) :
    (m.setHandle h p).handle h' = m.handle h' :=
  Function.update_of_ne hne ..

theorem setHandle_frame {h h' : Handle} (hw : W h) (hh' : ¬ W h') (p : Option (Option Addr)) :
    (m.setHandle h p).handle h' = m.handle h' := by
  refine setHandle_ne ?_ p
  intro heq
  exact hh' (heq ▸ hw)

theorem refers_setHandle {h : Handle} {p : Option Addr} {b : Addr} (hrefers : Refers (m.setHandle h (some p)) .idle b) :
    Refers m .idle b ∨ p = some b := by
  rcases hrefers with hcell | ⟨h', hh⟩ | hpc
  · exact .inl (.inl hcell)
  · by_cases heq : h' = h
    · subst heq
      rw [setHandle_self] at hh
      exact .inr (Option.some.inj hh)
    · rw [setHandle_ne heq] at hh
      exact .inl (.inr (.inl ⟨h', hh⟩))
  · exact hpc.elim

theorem refers_destroy {h : Handle} {b : Addr} (hrefers : Refers (m.setHandle h none) .idle b) : Refers m .idle b := by
  rcases hrefers with hcell | ⟨h', hh⟩ | hpc
  · exact .inl hcell
  · by_cases heq : h' = h
    · subst heq
      rw [setHandle_self] at hh
      exact absurd hh nofun
    · rw [setHandle_ne heq] at hh
      exact .inr (.inl ⟨h', hh⟩)
  · exact hpc.elim

end Handles

/-! ### The counts and their contributions -/

variable [Fintype Cell] [Fintype Handle]

/-- The counts of a block, less what the cells and the handles contribute. -/
def balance (m : Mem Cell Handle) (b : Addr) : SplitCount :=
  m.counter b - ∑ c, cellCount (m.cell c) b - ∑ h, handleCount (m.handle h) b

theorem balance_add (b' : Addr) (add : SplitCount) (b : Addr) :
    balance ((m.touch b').setCounter b' (m.counter b' + add)) b = balance m b + single (some b') add b := by
  simp only [balance, Mem.setCounter, Mem.touch]
  by_cases hb : b = b'
  · subst hb
    rw [Function.update_self, single_self]
    abel
  · rw [Function.update_of_ne hb, single_of_ne fun heq => hb (Option.some.inj heq).symm, add_zero]

theorem balance_setCell [DecidableEq Cell] (c : Cell) (p : StampedPtr Addr) (b : Addr) :
    balance (m.setCell c p) b = balance m b + cellCount (m.cell c) b - cellCount p b := by
  have hsum := Logic.sum_update (fun q => cellCount q b) m.cell c p
  simp only [balance, Mem.setCell, hsum]
  abel

variable [DecidableEq Handle]

theorem balance_setHandle (h : Handle) (p : Option (Option Addr)) (b : Addr) :
    balance (m.setHandle h p) b = balance m b + handleCount (m.handle h) b - handleCount p b := by
  have hsum := Logic.sum_update (fun q => handleCount q b) m.handle h p
  simp only [balance, Mem.setHandle, hsum]
  abel

/-! ### The private parts of an operation -/

/-- What a private part of an operation does, if it may write the handles in `W`, owes `owed` to the blocks
and holds pointers to the blocks in `mentions`. -/
structure Moves (m : Mem Cell Handle) (W : Handle → Prop) (owed : Addr → SplitCount) (mentions : Addr → Prop)
    (next : Mem Cell Handle × Pc Cell Handle) : Prop where
  balance : ∀ b, balance next.1 b - next.2.count b = balance m b - owed b
  ok : next.2.Ok next.1.handle
  writes : ∀ h, next.2.Writes h → W h
  reads : ∀ h, ¬ next.2.Reads h
  handle : ∀ h, ¬ W h → next.1.handle h = m.handle h
  refers : ∀ b, Refers next.1 next.2 b → Refers m .idle b ∨ mentions b
  sole : ∀ b, next.2.Sole b → next.1.counter b = 0 ∧ mentions b
  counter : next.1.counter = m.counter
  live : next.1.live = m.live
  fault : next.1.fault = m.fault

/-- The first step of a `Reset`. -/
theorem startReset_moves {h : Handle} {b : Addr} {rest : Rest Handle} (hh : m.handle h = some (some b))
    (hok : rest.Ok (Function.update m.handle h (some none))) (hw : W h) (hrest : ∀ h', rest.Writes h' → W h') :
    Moves m W rest.count rest.Mentions (m, fetchAddTransient b (-1) (.reset h rest)) where
  balance := fun _ => rfl
  ok := ⟨rfl, hh, hok⟩
  writes := fun h' hh' => by
    rcases hh' with rfl | hh'
    · exact hw
    · exact hrest h' hh'
  reads := fun _ hread => hread
  handle := fun _ _ => rfl
  refers := fun b' hrefers => by
    rcases hrefers with hcell | hhandle | heq | hmem
    · exact .inl (.inl hcell)
    · exact .inl (.inr (.inl hhandle))
    · exact .inl (.inr (.inl ⟨h, heq ▸ hh⟩))
    · exact .inr hmem
  sole := fun _ hsole => hsole.elim
  counter := rfl
  live := rfl
  fault := rfl

theorem destroy_moves {h : Handle} (hh : (m.handle h).join = none) (hw : W h) :
    Moves m W 0 (fun _ => False) (m.setHandle h none, .idle) where
  balance := fun b => by
    rw [balance_setHandle, handleCount_of_join hh, handleCount_of_join rfl]
    simp [Pc.count]
  ok := trivial
  writes := fun _ hh' => hh'.elim
  reads := fun _ hread => hread
  handle := fun _ hh' => setHandle_frame hw hh' none
  refers := fun b hrefers => .inl (refers_destroy hrefers)
  sole := fun _ hsole => hsole.elim
  counter := rfl
  live := rfl
  fault := rfl

theorem dropHandle_moves {h : Handle} (hw : W h) : Moves m W 0 (fun _ => False) (dropHandle m h) := by
  unfold dropHandle
  split
  · rename_i b hb
    change Moves m W (Rest.count (.destroyed h)) (Rest.Mentions (.destroyed h)) _
    refine startReset_moves hb ?_ hw fun h' hh' => ?_
    · simp only [Rest.Ok, Function.update_self]
      rfl
    · obtain rfl : h' = h := hh'
      exact hw
  · rename_i hnone
    refine destroy_moves ?_ hw
    cases hp : m.handle h with
    | none => rfl
    | some p =>
      cases p with
      | none => rfl
      | some b => exact absurd hp (hnone b)

theorem finish_moves {rest : Rest Handle} (hok : rest.Ok m.handle) (hrest : ∀ h, rest.Writes h → W h) :
    Moves m W rest.count rest.Mentions (finish m rest) := by
  cases rest with
  | ret =>
    exact ⟨fun _ => rfl, trivial, fun _ h => h.elim, fun _ h => h, fun _ _ => rfl, fun _ h => .inl h,
      fun _ h => h.elim, rfl, rfl, rfl⟩
  | destroyed h => exact destroy_moves hok (hrest h rfl)
  | drop h => exact dropHandle_moves (hrest h rfl)
  | assign expected p desired =>
    have hmoves : Moves (m.setHandle expected (some p)) W 0 (fun _ => False)
        (dropHandle (m.setHandle expected (some p)) desired) :=
      dropHandle_moves (hrest desired (.inr rfl))
    refine ⟨fun b => ?_, hmoves.ok, hmoves.writes, hmoves.reads, fun h hh => ?_, fun b hrefers => ?_,
      fun b hsole => (hmoves.sole b hsole).2.elim, hmoves.counter, hmoves.live, hmoves.fault⟩
    · refine (hmoves.balance b).trans ?_
      rw [balance_setHandle, handleCount_of_join hok.1]
      simp [Rest.count, handleCount]
    · exact (hmoves.handle h hh).trans (setHandle_frame (hrest expected (.inl rfl)) hh _)
    · exact refers_setHandle ((hmoves.refers b hrefers).resolve_right id)

theorem resetHandle_moves {h : Handle} {rest : Rest Handle} (hok : rest.Ok (Function.update m.handle h (some none)))
    (hw : W h) (hrest : ∀ h', rest.Writes h' → W h') (hnone : ∀ h', rest = .destroyed h' ∨
      (∃ p d, rest = .assign h' p d) → h' = h) :
    Moves m W rest.count rest.Mentions (resetHandle m h rest) := by
  unfold resetHandle
  split
  · rename_i b hb
    exact startReset_moves hb hok hw hrest
  · rename_i hnull
    have hjoin : (m.handle h).join = none := by
      cases hp : m.handle h with
      | none => rfl
      | some p =>
        cases p with
        | none => rfl
        | some b => exact absurd hp (hnull b)
    refine finish_moves ?_ hrest
    cases rest with
    | destroyed h' =>
      obtain rfl := hnone h' (.inl rfl)
      exact hjoin
    | assign expected p desired =>
      obtain rfl := hnone expected (.inr ⟨p, desired, rfl⟩)
      exact ⟨hjoin, hok.2⟩
    | _ => trivial

theorem cleanupStampedBlock_moves {sp : StampedPtr Addr} {rest : Rest Handle} (hok : rest.Ok m.handle)
    (hrest : ∀ h, rest.Writes h → W h) :
    Moves m W (rest.count + cellCount sp) (fun b => rest.Mentions b ∨ sp.rawPtr = some b)
      (cleanupStampedBlock m sp rest) := by
  unfold cleanupStampedBlock
  split
  · rename_i hnull
    have hmoves : Moves m W rest.count rest.Mentions (finish m rest) := finish_moves hok hrest
    have hcell : cellCount sp = 0 := by
      funext b
      exact single_of_ne (by rw [hnull]; exact nofun) _
    rw [hcell, add_zero]
    exact { hmoves with
      refers := fun b hrefers => (hmoves.refers b hrefers).imp_right .inl
      sole := fun b hsole => ⟨(hmoves.sole b hsole).1, .inl (hmoves.sole b hsole).2⟩ }
  · rename_i b hb
    refine ⟨fun b' => ?_, ⟨rfl, hok⟩, hrest, fun _ hread => hread, fun _ _ => rfl, fun b' hrefers => ?_,
      fun _ hsole => hsole.elim, rfl, rfl, rfl⟩
    · simp only [fetchAddTransientAndStrong, Pc.count, Cont.count, cellCount, hb]
      rfl
    · rcases hrefers with hcell | hhandle | heq | hmem
      · exact .inl (.inl hcell)
      · exact .inl (.inr (.inl hhandle))
      · exact .inr (.inr (heq ▸ hb))
      · exact .inr (.inl hmem)

theorem loaded_moves {p : Option Addr} {dest : LoadTo Handle} (hok : dest.Ok m.handle)
    (hdest : ∀ h, dest.Writes h → W h) : Moves m W (single p (1, 0)) (fun b => p = some b) (loaded m p dest) := by
  cases dest with
  | handle h =>
    have hh : m.handle h = none := hok
    refine ⟨fun b => ?_, trivial, fun _ hh => hh.elim, fun _ hread => hread, fun h' hh' => ?_,
      fun b hrefers => refers_setHandle hrefers, fun _ hsole => hsole.elim, rfl, rfl, rfl⟩
    · simp only [loaded]
      rw [balance_setHandle, hh, handleCount_of_join rfl]
      simp [Pc.count, handleCount]
    · exact setHandle_frame (hdest h rfl) hh' _
  | expected e d =>
    change Moves m W (Rest.count (.assign e p d)) (Rest.Mentions (.assign e p d)) _
    refine resetHandle_moves ⟨?_, hok⟩ (hdest e (.inl rfl)) hdest ?_
    · rw [Function.update_self]
      rfl
    · rintro h' (hh' | ⟨q, d', hh'⟩)
      · exact absurd hh' nofun
      · cases hh'
        rfl

theorem tryUpdateTransient_moves {c : Cell} {old : StampedPtr Addr} {dest : LoadTo Handle} (hok : dest.Ok m.handle)
    (hdest : ∀ h, dest.Writes h → W h) :
    Moves m W (single old.rawPtr (1, 0)) (fun b => old.rawPtr = some b) (tryUpdateTransient m c old dest) := by
  unfold tryUpdateTransient
  split
  · rename_i hnull
    rw [hnull]
    exact loaded_moves hok hdest
  · rename_i b hb
    refine ⟨fun b' => ?_, ⟨rfl, hok⟩, hdest, fun _ hread => hread, fun _ _ => rfl, fun b' hrefers => ?_,
      fun _ hsole => hsole.elim, rfl, rfl, rfl⟩
    · rw [hb]
      rfl
    · rcases hrefers with hcell | hhandle | heq | hmem
      · exact .inl (.inl hcell)
      · exact .inl (.inr (.inl hhandle))
      · exact .inr (heq ▸ hb)
      · exact hmem.elim

theorem deleteIfZero_moves {b : Addr} {rest : Rest Handle} (hok : rest.Ok m.handle) (hrest : ∀ h, rest.Writes h → W h) :
    Moves m W rest.count (fun b' => b' = b ∨ rest.Mentions b') (deleteIfZero m b rest) := by
  unfold deleteIfZero
  split
  · rename_i hzero
    refine ⟨fun _ => rfl, hok, hrest, fun _ hread => hread, fun _ _ => rfl, fun b' hrefers => ?_,
      fun b' hsole => ?_, rfl, rfl, rfl⟩
    · rcases hrefers with hcell | hhandle | hmem
      · exact .inl (.inl hcell)
      · exact .inl (.inr (.inl hhandle))
      · exact .inr hmem
    · have heq : b' = b := hsole
      exact ⟨heq ▸ hzero, .inl heq⟩
  · have hmoves : Moves m W rest.count rest.Mentions (finish m rest) := finish_moves hok hrest
    exact { hmoves with
      refers := fun b' hrefers => (hmoves.refers b' hrefers).imp_right .inr
      sole := fun b' hsole => ⟨(hmoves.sole b' hsole).1, .inr (hmoves.sole b' hsole).2⟩ }

/-- The step to a state that holds a pointer to the block, and no other change. -/
theorem hold_moves {b : Addr} {owed : Addr → SplitCount} {mentions : Addr → Prop} {pc : Pc Cell Handle}
    (hcount : pc.count = owed) (hok : pc.Ok m.handle) (hwrites : ∀ h, pc.Writes h → W h)
    (hreads : ∀ h, ¬ pc.Reads h) (hsole : ∀ b, ¬ pc.Sole b) (hmentions : ∀ b', pc.Mentions b' → b' = b ∨ mentions b') :
    Moves m W owed (fun b' => b' = b ∨ mentions b') (m, pc) := by
  refine ⟨fun b' => by rw [hcount], hok, hwrites, hreads, fun _ _ => rfl, fun b' hrefers => ?_,
    fun b' hb' => absurd hb' (hsole b'), rfl, rfl, rfl⟩
  rcases hrefers with hcell | hhandle | hmem
  · exact .inl (.inl hcell)
  · exact .inl (.inr (.inl hhandle))
  · exact .inr (hmentions b' hmem)

theorem resume_moves {b : Addr} {add : SplitCount} {k : Cont Cell Handle} (hok : k.Ok m.handle b add)
    (hwrites : ∀ h, k.Writes h → W h) :
    Moves m W (k.count b add + single (some b) add) (fun b' => b' = b ∨ k.Mentions b') (resume m b k) := by
  cases k with
  | handle h source =>
    obtain ⟨rfl, hh, -⟩ := hok
    refine ⟨fun b' => ?_, trivial, fun _ hh => hh.elim, fun _ hread => hread,
      fun _ hh' => setHandle_frame (hwrites h rfl) hh' _, fun b' hrefers => ?_, fun _ hsole => hsole.elim, rfl, rfl, rfl⟩
    · simp only [resume]
      rw [balance_setHandle, hh, handleCount_of_join rfl]
      simp [Pc.count, Cont.count, handleCount]
    · rcases refers_setHandle hrefers with hrefers | heq
      · exact .inl hrefers
      · exact .inr (.inl (Option.some.inj heq).symm)
  | reset h rest =>
    obtain ⟨rfl, hh, hrest⟩ := hok
    have hmoves : Moves (m.setHandle h (some none)) W rest.count (fun b' => b' = b ∨ rest.Mentions b')
        (deleteIfZero (m.setHandle h (some none)) b rest) :=
      deleteIfZero_moves hrest fun h' hh' => hwrites h' (.inr hh')
    refine { hmoves with
      balance := fun b' => (hmoves.balance b').trans ?_
      handle := fun h' hh' => (hmoves.handle h' hh').trans (setHandle_frame (hwrites h (.inl rfl)) hh' _)
      refers := fun b' hrefers => ?_ }
    · rw [balance_setHandle, hh, handleCount_of_join (p := some none) rfl]
      have hneg : single (some b) (-1, 0) b' = - single (some b) (1, 0) b' := by
        unfold single
        split <;> rfl
      simp only [Cont.count, handleCount, Option.join_some, Pi.add_apply, hneg]
      abel
    · rcases hmoves.refers b' hrefers with hrefers | hmem
      · exact .inl ((refers_setHandle hrefers).resolve_right (by rintro ⟨⟩))
      · exact .inr hmem
  | exchange c target =>
    obtain ⟨rfl, h, rfl, hh⟩ := hok
    refine hold_moves (zero_add _).symm ⟨fun h' hh' => ?_, by rintro ⟨⟩⟩ hwrites (fun _ hread => hread) (fun _ hsole => hsole)
      fun b' hb' => .inl (Option.some.inj hb').symm
    rw [← Option.some.inj hh']
    exact hh
  | cleanup rest =>
    have hzero : (Cont.cleanup rest : Cont Cell Handle).count b add + single (some b) add = rest.count := by
      funext b'
      simp only [Cont.count, Pi.add_apply]
      rw [add_assoc, single_add, neg_add_cancel]
      unfold single
      simp
    rw [hzero]
    exact deleteIfZero_moves hok.2 hwrites
  | cas c expected desired old =>
    obtain ⟨rfl, hh, hne⟩ := hok
    exact hold_moves (zero_add _).symm ⟨hne, hh⟩ hwrites (fun _ hread => hread) (fun _ hsole => hsole)
      fun b' hb' => .inl (Option.some.inj hb').symm
  | undo c expected desired =>
    obtain ⟨rfl, hh, hne⟩ := hok
    refine hold_moves ?_ hne hwrites (fun _ hread => hread) (fun _ hsole => hsole) fun b' hb' => hb'.elim
    funext b'
    simp only [Cont.count, Pi.add_apply, single_add, Pc.count, Pi.zero_apply]
    unfold single
    split <;> rfl
  | flush c stamp dest =>
    obtain ⟨rfl, hdest⟩ := hok
    refine hold_moves ?_ hdest hwrites (fun _ hread => hread) (fun _ hsole => hsole) fun b' hb' => .inl hb'
    funext b'
    simp only [Cont.count, Pi.add_apply, single_add, Pc.count, Prod.mk_add_mk, zero_add]
  | flushed dest =>
    obtain ⟨-, hstrong, hdest⟩ := hok
    have hmoves : Moves m W (single (some b) (1, 0)) (fun b' => some b = some b') (loaded m (some b) dest) :=
      loaded_moves hdest hwrites
    have howed : (Cont.flushed dest : Cont Cell Handle).count b add + single (some b) add = single (some b) (1, 0) := by
      funext b'
      simp only [Cont.count, Pi.add_apply, single_add]
      congr 1
      exact Prod.ext (by simp) (by simp [hstrong])
    rw [howed]
    exact { hmoves with
      refers := fun b' hrefers => (hmoves.refers b' hrefers).imp_right fun heq => .inl (Option.some.inj heq).symm
      sole := fun b' hsole => ⟨(hmoves.sole b' hsole).1, .inl (Option.some.inj (hmoves.sole b' hsole).2).symm⟩ }

omit [Fintype Cell] [Fintype Handle] in
theorem loaded_refers {b : Addr} {dest : LoadTo Handle} (hok : dest.Ok m.handle) :
    Refers (loaded m (some b) dest).1 (loaded m (some b) dest).2 b := by
  cases dest with
  | handle h => exact .inr (.inl ⟨h, setHandle_self ..⟩)
  | expected e d =>
    have hne : e ≠ d := hok
    simp only [loaded, resetHandle]
    split
    · exact .inr (.inr (.inr rfl))
    · simp only [finish, dropHandle]
      split
      · exact .inr (.inl ⟨e, setHandle_self ..⟩)
      · exact .inr (.inl ⟨e, (setHandle_ne hne _).trans (setHandle_self ..)⟩)

omit [Fintype Cell] [Fintype Handle] in
/-- After a change that leaves both counts of a block at zero something still refers to the block, if only
the operation that is about to delete it. -/
theorem resume_refers {b : Addr} {add : SplitCount} {k : Cont Cell Handle} (hok : k.Ok m.handle b add)
    (hzero : m.counter b = 0) : Refers (resume m b k).1 (resume m b k).2 b := by
  cases k with
  | handle h source => exact .inr (.inl ⟨h, setHandle_self ..⟩)
  | reset h rest =>
    simp only [resume, deleteIfZero]
    rw [if_pos (by exact hzero)]
    exact .inr (.inr (.inl rfl))
  | exchange c target => exact .inr (.inr rfl)
  | cleanup rest =>
    simp only [resume, deleteIfZero]
    rw [if_pos hzero]
    exact .inr (.inr (.inl rfl))
  | cas c expected desired old => exact .inr (.inr rfl)
  | undo c expected desired => exact .inr (.inl ⟨desired, hok.2.1⟩)
  | flush c stamp dest => exact .inr (.inr rfl)
  | flushed dest => exact loaded_refers hok.2.2

/-! ### The steps and the calls -/

/-- What every action does except the allocation and the deletion of a block, if it may write the handles
in `W` and copy from those in `R`. -/
structure Ordinary (W R : Handle → Prop) (m : Mem Cell Handle) (pc : Pc Cell Handle)
    (next : Mem Cell Handle × Pc Cell Handle) : Prop where
  balance : ∀ b, balance next.1 b - next.2.count b = balance m b - pc.count b
  ok : next.2.Ok next.1.handle
  writes : ∀ h, next.2.Writes h → W h
  reads : ∀ h, next.2.Reads h → R h
  handle : ∀ h, ¬ W h → next.1.handle h = m.handle h
  refers : ∀ b, Refers next.1 next.2 b → Refers m pc b
  sole : ∀ b, next.2.Sole b → next.1.counter b = 0 ∨ pc.Sole b ∧ next.1.counter b = m.counter b
  kept : ∀ b, next.1.counter b = 0 → pc.Sole b ∨ next.1.counter b ≠ m.counter b → Refers next.1 next.2 b
  live : next.1.live = m.live
  fault : (∀ b, pc.Mentions b → m.live b = true) → next.1.fault = m.fault

variable {R : Handle → Prop}

/-- A private part of an operation after a write to a cell. -/
theorem Moves.ordinary {m' : Mem Cell Handle} {owed : Addr → SplitCount} {mentions : Addr → Prop}
    {pc : Pc Cell Handle} {next : Mem Cell Handle × Pc Cell Handle} (h : Moves m' W owed mentions next)
    (hbalance : ∀ b, SharedPtr.balance m' b - owed b = SharedPtr.balance m b - pc.count b)
    (hhandle : m'.handle = m.handle) (hcounter : m'.counter = m.counter) (hlive : m'.live = m.live)
    (hfault : m'.fault = m.fault) (hrefers : ∀ b, Refers m' .idle b ∨ mentions b → Refers m pc b)
    (hsole : ∀ b, ¬ pc.Sole b) : Ordinary W R m pc next where
  balance := fun b => (h.balance b).trans (hbalance b)
  ok := h.ok
  writes := h.writes
  reads := fun b hread => absurd hread (h.reads b)
  handle := fun b hb => (h.handle b hb).trans (congrFun hhandle b)
  refers := fun b hb => hrefers b (h.refers b hb)
  sole := fun b hb => .inl (h.sole b hb).1
  kept := fun b _ hb => by
    rcases hb with hb | hb
    · exact absurd hb (hsole b)
    · exact absurd (congrFun (h.counter.trans hcounter) b) hb
  live := h.live.trans hlive
  fault := fun _ => h.fault.trans hfault

omit [Fintype Cell] [Fintype Handle] [DecidableEq Handle] in
theorem refers_setCell [DecidableEq Cell] {c : Cell} {p : StampedPtr Addr} {pc : Pc Cell Handle} {b : Addr}
    (hp : p.rawPtr = some b → Refers m pc b) (hrefers : Refers (m.setCell c p) .idle b) : Refers m pc b := by
  rcases hrefers with ⟨c', hc⟩ | hhandle | hpc
  · by_cases heq : c' = c
    · subst heq
      simp only [Mem.setCell, Function.update_self] at hc
      exact hp hc
    · simp only [Mem.setCell, ne_eq, heq, not_false_eq_true, Function.update_of_ne] at hc
      exact .inl ⟨c', hc⟩
  · exact .inr (.inl hhandle)
  · exact hpc.elim

omit [Fintype Cell] [Fintype Handle] [DecidableEq Handle] in
theorem Refers.of_idle {pc : Pc Cell Handle} {b : Addr} (h : Refers m .idle b) : Refers m pc b := by
  rcases h with hcell | hhandle | hpc
  · exact .inl hcell
  · exact .inr (.inl hhandle)
  · exact hpc.elim

/-- A step that changes neither a cell, nor a handle, nor a count. -/
theorem ordinary_of_read {m' : Mem Cell Handle} {pc pc' : Pc Cell Handle} (hbalance : balance m' = balance m)
    (hcell : m'.cell = m.cell) (hhandle : m'.handle = m.handle) (hlive : m'.live = m.live)
    (hfault : (∀ b, pc.Mentions b → m.live b = true) → m'.fault = m.fault)
    (hcounter : m'.counter = m.counter) (hcount : pc'.count = pc.count)
    (hok : pc'.Ok m.handle) (hwrites : ∀ h, pc'.Writes h → W h) (hreads : ∀ h, pc'.Reads h → R h)
    (hmentions : ∀ b, pc'.Mentions b → Refers m pc b) (hsole : ∀ b, pc'.Sole b → pc.Sole b)
    (hkept : ∀ b, pc.Sole b → pc'.Mentions b) : Ordinary W R m pc (m', pc') where
  balance := fun b => by rw [hbalance, hcount]
  ok := hhandle ▸ hok
  writes := hwrites
  reads := hreads
  handle := fun h _ => congrFun hhandle h
  refers := fun b hrefers => by
    rcases hrefers with ⟨c, hc⟩ | ⟨h, hh⟩ | hmem
    · exact .inl ⟨c, hcell ▸ hc⟩
    · exact .inr (.inl ⟨h, hhandle ▸ hh⟩)
    · exact hmentions b hmem
  sole := fun b hb => .inr ⟨hsole b hb, congrFun hcounter b⟩
  kept := fun b _ hb => by
    rcases hb with hb | hb
    · exact .inr (.inr (hkept b hb))
    · exact absurd (congrFun hcounter b) hb
  live := hlive
  fault := hfault

omit [Fintype Cell] [Fintype Handle] [DecidableEq Handle] in
theorem touch_fault {pc : Pc Cell Handle} {b : Addr} (hb : pc.Mentions b)
    (hlive : ∀ b, pc.Mentions b → m.live b = true) : (m.touch b).fault = m.fault := by
  simp only [Mem.touch, hlive b hb, Bool.not_true, Bool.or_false]

theorem addRetry_ordinary {b : Addr} {add : SplitCount} {k : Cont Cell Handle} {pc : Pc Cell Handle}
    (hpc : pc = .addLoad b add k ∨ ∃ old, pc = .addCas b add old k) (hok : k.Ok m.handle b add) :
    Ordinary pc.Writes pc.Reads m pc (m.touch b, .addCas b add (m.counter b) k) := by
  have hreads : ∀ h, (Pc.addCas b add (m.counter b) k : Pc Cell Handle).Reads h → pc.Reads h := by
    intro h hread
    rcases hpc with rfl | ⟨old, rfl⟩
    · cases k <;> exact hread
    · cases k <;> exact hread
  have hsole : ∀ b', (Pc.addCas b add (m.counter b) k : Pc Cell Handle).Sole b' ↔ pc.Sole b' := by
    intro b'
    rcases hpc with rfl | ⟨old, rfl⟩
    · cases k with
      | handle h source => cases source <;> exact Iff.rfl
      | _ => exact Iff.rfl
    · cases k with
      | handle h source => cases source <;> exact Iff.rfl
      | _ => exact Iff.rfl
  have hmentions : ∀ b', (Pc.addCas b add (m.counter b) k : Pc Cell Handle).Mentions b' ↔ pc.Mentions b' := by
    intro b'
    rcases hpc with rfl | ⟨old, rfl⟩ <;> exact Iff.rfl
  refine ordinary_of_read rfl rfl rfl rfl (touch_fault ((hmentions b).mp (.inl rfl))) rfl ?_ hok ?_ hreads
    (fun b' hb' => .inr (.inr ((hmentions b').mp hb'))) (fun b' => (hsole b').mp) fun b' hb' => ?_
  · rcases hpc with rfl | ⟨old, rfl⟩ <;> rfl
  · rcases hpc with rfl | ⟨old, rfl⟩ <;> exact fun _ hh => hh
  · have hb' := (hsole b').mpr hb'
    cases k with
    | handle h source =>
      cases source with
      | none => exact .inl hb'
      | some s => exact hb'.elim
    | _ => exact hb'.elim

theorem addCas_ordinary {b : Addr} {add old : SplitCount} {k : Cont Cell Handle} (hok : k.Ok m.handle b add)
    (hold : m.counter b = old) : Ordinary (Pc.addCas b add old k).Writes (Pc.addCas b add old k).Reads m
      (.addCas b add old k) (resume ((m.touch b).setCounter b (old + add)) b k) := by
  subst hold
  have hmoves : Moves ((m.touch b).setCounter b (m.counter b + add)) k.Writes (k.count b add + single (some b) add)
      (fun b' => b' = b ∨ k.Mentions b') (resume ((m.touch b).setCounter b (m.counter b + add)) b k) :=
    resume_moves hok fun _ hh => hh
  have hmentions : (Pc.addCas b add (m.counter b) k).Mentions b := .inl rfl
  refine ⟨fun b' => ?_, hmoves.ok, hmoves.writes, fun h hread => absurd hread (hmoves.reads h), hmoves.handle,
    fun b' hrefers => ?_, fun b' hsole => .inl (hmoves.sole b' hsole).1, fun b' hzero hb' => ?_, hmoves.live,
    fun hlive => hmoves.fault.trans (touch_fault hmentions hlive)⟩
  · refine (hmoves.balance b').trans ?_
    rw [balance_add]
    simp only [Pc.count, Pi.add_apply]
    abel
  · rcases hmoves.refers b' hrefers with hrefers | hmem
    · exact Refers.of_idle hrefers
    · exact .inr (.inr hmem)
  · have hb : b' = b := by
      rcases hb' with hsole | hchanged
      · cases k with
        | handle h source =>
          cases source with
          | none => exact hsole
          | some s => exact hsole.elim
        | _ => exact hsole.elim
      · by_contra hne
        refine hchanged ?_
        rw [hmoves.counter]
        exact Function.update_of_ne hne ..
    subst hb
    refine resume_refers hok ?_
    rw [← hmoves.counter]
    exact hzero

section Step

variable [DecidableEq Cell]

theorem single_sub_single (p : Option Addr) (v w : SplitCount) (b : Addr) :
    single p v b - single p w b = single p (v - w) b := by
  unfold single
  split
  · rfl
  · exact sub_zero 0

theorem incCas_ordinary {c : Cell} {old : StampedPtr Addr} {dest : LoadTo Handle} (hok : dest.Ok m.handle)
    (choice : Choice) : Ordinary (Pc.incCas c old dest : Pc Cell Handle).Writes (Pc.incCas c old dest : Pc Cell Handle).Reads
      m (.incCas c old dest) (step m choice (.incCas c old dest)) := by
  simp only [step]
  split
  · rename_i hcas
    obtain ⟨hold, -⟩ := hcas
    have hbalance : ∀ b, balance (m.setCell c ⟨old.rawPtr, old.stamp + 1⟩) b - single old.rawPtr (1, 0) b =
        balance m b - (Pc.incCas c old dest : Pc Cell Handle).count b := by
      intro b
      rw [balance_setCell, hold]
      have hstamp : cellCount old b - cellCount ⟨old.rawPtr, old.stamp + 1⟩ b = single old.rawPtr (1, 0) b := by
        simp only [cellCount, single_sub_single]
        congr 1
        refine Prod.ext ?_ rfl
        simp only [Prod.mk_sub_mk]
        push_cast
        omega
      rw [add_sub_assoc, hstamp, add_sub_cancel_right]
      simp [Pc.count]
    have hrefers : ∀ b, Refers (m.setCell c ⟨old.rawPtr, old.stamp + 1⟩) .idle b ∨ old.rawPtr = some b →
        Refers m (.incCas c old dest) b := by
      intro b hb
      have hcell : old.rawPtr = some b → Refers m (.incCas c old dest) b := fun hb => .inl ⟨c, by rw [hold]; exact hb⟩
      rcases hb with hb | hb
      · exact refers_setCell (p := ⟨old.rawPtr, old.stamp + 1⟩) hcell hb
      · exact hcell hb
    have hok' : dest.Ok (m.setCell c ⟨old.rawPtr, old.stamp + 1⟩).handle := hok
    split
    · refine Moves.ordinary (tryUpdateTransient_moves hok' ?_) hbalance rfl rfl rfl rfl hrefers fun _ hsole => hsole
      exact fun _ hh => hh
    · refine Moves.ordinary (loaded_moves hok' ?_) hbalance rfl rfl rfl rfl hrefers fun _ hsole => hsole
      exact fun _ hh => hh
  · exact ordinary_of_read rfl rfl rfl rfl (fun _ => rfl) rfl rfl hok (fun _ hh => hh) (fun _ hread => hread.elim)
      (fun _ hmem => hmem.elim) (fun _ hsole => hsole) fun _ hsole => hsole.elim

theorem flushCas_ordinary {c : Cell} {b : Addr} {stamp : Nat} {dest : LoadTo Handle} (hok : dest.Ok m.handle)
    (choice : Choice) : Ordinary (Pc.flushCas c b stamp dest : Pc Cell Handle).Writes
      (Pc.flushCas c b stamp dest : Pc Cell Handle).Reads m (.flushCas c b stamp dest)
      (step m choice (.flushCas c b stamp dest)) := by
  simp only [step]
  split
  · rename_i hcas
    obtain ⟨hold, -⟩ := hcas
    refine ⟨fun b' => ?_, ⟨le_rfl, rfl, hok⟩, fun _ hh => hh, fun _ hread => hread, fun _ _ => rfl, fun b' hrefers => ?_,
      fun _ hsole => hsole.elim, fun b' _ hb' => ?_, rfl, fun _ => rfl⟩
    · simp only
      rw [balance_setCell, hold]
      simp only [cellCount, fetchAddStrong, Pc.count, Cont.count, add_sub_assoc, single_sub_single]
      rw [sub_eq_add_neg (balance m b') (single _ _ _)]
      congr 1
      unfold single
      split
      · refine Prod.ext ?_ ?_
        · simp only [Prod.mk_sub_mk, Prod.fst_neg]
          push_cast
          omega
        · rfl
      · rfl
    · rcases hrefers with hcell | hhandle | hmem | hmem
      · exact refers_setCell (fun heq => .inr (.inr (Option.some.inj heq).symm)) (.inl hcell)
      · exact .inr (.inl hhandle)
      · exact .inr (.inr hmem)
      · exact hmem.elim
    · rcases hb' with hb' | hb'
      · exact hb'.elim
      · exact absurd rfl hb'
  · refine ordinary_of_read rfl rfl rfl rfl (fun _ => rfl) rfl ?_ ⟨?_, rfl, hok⟩ (fun _ hh => hh)
      (fun _ hread => hread.elim) (fun b' hmem => ?_) (fun _ hsole => hsole) fun _ hsole => hsole.elim
    · simp [fetchAddTransientAndStrong, Pc.count, Cont.count]
    · simp
    · exact .inr (.inr (hmem.resolve_right id))

/-- A write to a cell that gives up its old value: `Exchange`, and the compare-exchange when it succeeds. -/
theorem replace_ordinary {c : Cell} {p : Option Addr} {pc : Pc Cell Handle} {rest : Rest Handle}
    (hcount : pc.count = single p (0, 1)) (hmentions : ∀ b, p = some b → pc.Mentions b) (hsole : ∀ b, ¬ pc.Sole b)
    (hrestCount : rest.count = 0) (hrestMentions : ∀ b, ¬ rest.Mentions b) (hok : rest.Ok m.handle)
    (hrest : ∀ h, rest.Writes h → W h) :
    Ordinary W R m pc (cleanupStampedBlock (m.setCell c ⟨p, 0⟩) (m.cell c) rest) := by
  have hmoves : Moves (m.setCell c ⟨p, 0⟩) W (rest.count + cellCount (m.cell c))
      (fun b => rest.Mentions b ∨ (m.cell c).rawPtr = some b)
      (cleanupStampedBlock (m.setCell c ⟨p, 0⟩) (m.cell c) rest) :=
    cleanupStampedBlock_moves hok hrest
  refine hmoves.ordinary (fun b => ?_) rfl rfl rfl rfl (fun b hb => ?_) hsole
  · rw [balance_setCell, hcount, hrestCount]
    simp only [zero_add, cellCount]
    abel_nf
  · rcases hb with hb | hb | hb
    · exact refers_setCell (fun hp => .inr (.inr (hmentions b hp))) hb
    · exact absurd hb (hrestMentions b)
    · exact .inl ⟨c, hb⟩

/-- Every step except the allocation and the deletion of a block. -/
theorem step_ordinary {pc : Pc Cell Handle} (hok : pc.Ok m.handle) (choice : Choice) (hmake : ∀ h, pc ≠ .make h)
    (hdelete : ∀ b rest, pc ≠ .delete b rest) : Ordinary pc.Writes pc.Reads m pc (step m choice pc) := by
  cases pc with
  | idle =>
    exact ordinary_of_read rfl rfl rfl rfl (fun _ => rfl) rfl rfl trivial (fun _ hh => hh) (fun _ hread => hread)
      (fun _ hmem => hmem.elim) (fun _ hsole => hsole) fun _ hsole => hsole.elim
  | make h => exact absurd rfl (hmake h)
  | addLoad b add k => exact addRetry_ordinary (.inl rfl) hok
  | addCas b add old k =>
    simp only [step]
    split
    · rename_i hcas
      exact addCas_ordinary hok hcas.1
    · exact addRetry_ordinary (.inr ⟨old, rfl⟩) hok
  | delete b rest => exact absurd rfl (hdelete b rest)
  | incLoad c dest =>
    exact ordinary_of_read rfl rfl rfl rfl (fun _ => rfl) rfl rfl hok (fun _ hh => hh) (fun _ hread => hread)
      (fun _ hmem => hmem.elim) (fun _ hsole => hsole) fun _ hsole => hsole.elim
  | incCas c old dest => exact incCas_ordinary hok choice
  | flushCas c b stamp dest => exact flushCas_ordinary hok choice
  | exchange c target p =>
    refine replace_ordinary rfl (fun _ hp => hp) (fun _ hsole => hsole) ?_ ?_ ?_ ?_ <;> cases target
    · rfl
    · rfl
    · exact fun _ hmem => hmem
    · exact fun _ hmem => hmem
    · trivial
    · trivial
    · exact fun _ hh => hh.elim
    · exact fun _ hh => congrArg some (Eq.symm hh)
  | casLoad c expected desired =>
    obtain ⟨hne, hsome⟩ := hok
    simp only [step]
    split
    · rename_i b hb
      exact ordinary_of_read rfl rfl rfl rfl (fun _ => rfl) rfl rfl ⟨rfl, hb, hne⟩ (fun _ hh => hh)
        (fun _ hread => hread) (fun b' hmem => .inr (.inl ⟨desired, (hmem.resolve_right id) ▸ hb⟩))
        (fun _ hsole => hsole) fun _ hsole => hsole.elim
    · rename_i hnull
      have hdesired : m.handle desired = some none := by
        obtain ⟨p, hp⟩ := Option.ne_none_iff_exists'.mp hsome
        cases p with
        | none => exact hp
        | some b => exact absurd hp (hnull b)
      exact ordinary_of_read rfl rfl rfl rfl (fun _ => rfl) rfl rfl ⟨hne, hdesired⟩ (fun _ hh => hh)
        (fun _ hread => hread) (fun b' hmem => absurd hmem nofun) (fun _ hsole => hsole) fun _ hsole => hsole.elim
  | cas c expected desired p old =>
    obtain ⟨hne, hp⟩ := hok
    simp only [step]
    split
    · rename_i hcas
      rw [← hcas.1]
      exact replace_ordinary rfl (fun _ hp => hp) (fun _ hsole => hsole) rfl (fun _ hmem => hmem) trivial
        fun _ hh => .inr hh
    · split
      · rename_i b
        exact ordinary_of_read rfl rfl rfl rfl (fun _ => rfl) rfl rfl ⟨rfl, hp, hne⟩ (fun _ hh => hh)
          (fun _ hread => hread) (fun b' hmem => .inr (.inr (congrArg some (hmem.resolve_right id).symm)))
          (fun _ hsole => hsole) fun _ hsole => hsole.elim
      · exact ordinary_of_read rfl rfl rfl rfl (fun _ => rfl) rfl rfl hne (fun _ hh => hh)
          (fun _ hread => hread) (fun b' hmem => hmem.elim) (fun _ hsole => hsole) fun _ hsole => hsole.elim

omit [DecidableEq Cell] in
/-- A private part of an operation right after the call. -/
theorem Moves.call {pc : Pc Cell Handle} {next : Mem Cell Handle × Pc Cell Handle} {mentions : Addr → Prop}
    (h : Moves m W 0 mentions next) (hpc : pc = .idle) (hmentions : ∀ b, ¬ mentions b) : Ordinary W R m pc next := by
  subst hpc
  refine h.ordinary (fun _ => rfl) rfl rfl rfl rfl (fun b hb => ?_) fun _ hsole => hsole
  exact hb.resolve_right (hmentions b)

omit [DecidableEq Cell] in
theorem write_ordinary {h : Handle} {p : Option (Option Addr)} (hh : handleCount (m.handle h) = handleCount p)
    (hp : ∀ b, p = some (some b) → m.handle h = some (some b)) (hw : W h) :
    Ordinary W R m .idle (m.setHandle h p, .idle) := by
  refine ⟨fun b => ?_, trivial, fun _ hh => hh.elim, fun _ hread => hread.elim, fun _ hh' => setHandle_frame hw hh' p,
    fun b hrefers => ?_, fun _ hsole => hsole.elim, fun b _ hb => ?_, rfl, fun _ => rfl⟩
  · simp only
    rw [balance_setHandle, hh, add_sub_cancel_right]
  · rcases hrefers with hcell | ⟨h', hh'⟩ | hmem
    · exact .inl hcell
    · by_cases heq : h' = h
      · subst heq
        rw [setHandle_self] at hh'
        exact .inr (.inl ⟨h', hp b hh'⟩)
      · rw [setHandle_ne heq] at hh'
        exact .inr (.inl ⟨h', hh'⟩)
    · exact hmem.elim
  · rcases hb with hb | hb
    · exact hb.elim
    · exact absurd rfl hb

omit [DecidableEq Cell] in
theorem move_ordinary {h source : Handle} (hh : m.handle h = none) (hsource : m.handle source ≠ none) (hw : W h)
    (hwSource : W source) :
    Ordinary W R m .idle ((m.setHandle h (m.handle source)).setHandle source (some none), .idle) := by
  have hne : source ≠ h := by
    intro heq
    rw [heq] at hsource
    exact hsource hh
  refine ⟨fun b => ?_, trivial, fun _ hh => hh.elim, fun _ hread => hread.elim,
    fun _ hh' => (setHandle_frame hwSource hh' _).trans (setHandle_frame hw hh' _), fun b hrefers => ?_,
    fun _ hsole => hsole.elim, fun b _ hb => ?_, rfl, fun _ => rfl⟩
  · simp only
    rw [balance_setHandle, balance_setHandle, setHandle_ne hne, hh]
    rw [handleCount_of_join (p := none) rfl, handleCount_of_join (p := some none) rfl]
    abel
  · rcases (refers_setHandle hrefers).resolve_right nofun with hcell | ⟨h', hh'⟩ | hmem
    · exact .inl hcell
    · by_cases heq : h' = h
      · subst heq
        rw [setHandle_self] at hh'
        exact .inr (.inl ⟨source, hh'⟩)
      · rw [setHandle_ne heq] at hh'
        exact .inr (.inl ⟨h', hh'⟩)
    · exact hmem.elim
  · rcases hb with hb | hb
    · exact hb.elim
    · exact absurd rfl hb

omit [DecidableEq Cell] in
theorem call_ordinary {op : Call Cell Handle} (hready : op.Ready m) :
    Ordinary op.Writes op.Reads m .idle (call m op) := by
  have hread : ∀ {pc' : Pc Cell Handle}, pc'.count = 0 → pc'.Ok m.handle → (∀ h, pc'.Writes h → op.Writes h) →
      (∀ h, pc'.Reads h → op.Reads h) → (∀ b, pc'.Mentions b → ∃ h, m.handle h = some (some b)) →
      (∀ b, ¬ pc'.Sole b) → Ordinary op.Writes op.Reads m .idle (m, pc') :=
    fun hcount hok hwrites hreads hmentions hsole =>
      ordinary_of_read rfl rfl rfl rfl (fun _ => rfl) rfl hcount hok hwrites hreads
        (fun b hb => .inr (.inl (hmentions b hb))) (fun b hb => hsole b hb) fun _ hb => hb.elim
  cases op with
  | construct h =>
    have hh : m.handle h = none := hready
    refine write_ordinary ?_ nofun rfl
    rw [hh]
    rfl
  | makeShared h => exact hread rfl hready (fun _ hh => hh) (fun _ hr => hr) (fun _ hb => hb.elim) fun _ hb => hb
  | copy h source =>
    obtain ⟨hh, hsource⟩ := hready
    simp only [call]
    split
    · rename_i b hb
      refine hread rfl ⟨rfl, hh, fun s hs => ?_⟩ (fun _ hh => hh) (fun _ hr => (Option.some.inj hr).symm)
        (fun b' hb' => ⟨source, (hb'.resolve_right id) ▸ hb⟩) fun _ hb => hb
      rw [← Option.some.inj hs]
      exact hb
    · refine write_ordinary ?_ nofun rfl
      rw [hh]
      rfl
  | move h source => exact move_ordinary hready.1 hready.2 (.inl rfl) (.inr rfl)
  | reset h =>
    have hmoves : Moves m (Call.reset h : Call Cell Handle).Writes (Rest.ret : Rest Handle).count
        (Rest.ret : Rest Handle).Mentions (resetHandle m h .ret) := by
      refine resetHandle_moves trivial rfl (fun _ hh => hh.elim) ?_
      rintro h' (hh' | ⟨p, d, hh'⟩)
      · exact absurd hh' nofun
      · exact absurd hh' nofun
    exact hmoves.call rfl fun _ hmem => hmem
  | destroy h =>
    have hmoves : Moves m (Call.destroy h : Call Cell Handle).Writes 0 (fun _ => False) (dropHandle m h) :=
      dropHandle_moves rfl
    exact hmoves.call rfl fun _ hmem => hmem
  | load c h => exact hread rfl hready (fun _ hh => hh) (fun _ hr => hr) (fun _ hb => hb.elim) fun _ hb => hb
  | store c target =>
    have hsome : m.handle target ≠ none := hready
    simp only [call]
    split
    · rename_i b hb
      exact hread rfl ⟨rfl, target, rfl, hb⟩ (fun _ hh => (Option.some.inj hh).symm) (fun _ hr => hr)
        (fun b' hb' => ⟨target, (hb'.resolve_right id) ▸ hb⟩) fun _ hb => hb
    · rename_i hnull
      refine hread rfl ⟨fun h hh => ?_, nofun⟩ (fun _ hh => (Option.some.inj hh).symm) (fun _ hr => hr)
        (fun b hb => absurd hb nofun) fun _ hb => hb
      rw [← Option.some.inj hh]
      obtain ⟨p, hp⟩ := Option.ne_none_iff_exists'.mp hsome
      cases p with
      | none => exact hp
      | some b => exact absurd hp (hnull b)
  | destroyCell c =>
    exact hread rfl ⟨nofun, fun _ => rfl⟩ (fun _ hh => absurd hh nofun) (fun _ hr => hr) (fun _ hb => absurd hb nofun)
      fun _ hb => hb
  | compareExchangeWeak c expected desired =>
    exact hread rfl ⟨hready.1, hready.2.2⟩ (fun _ hh => hh) (fun _ hr => hr) (fun _ hb => hb.elim) fun _ hb => hb

end Step

end CppConcur.LockFree.SharedPtr
