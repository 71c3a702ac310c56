import CppConcur.Logic.Phase
import CppConcur.WorkStealing.PoolQueues

/-!
# The victims of a thief

`TryStealTasks` shuffles the indices of all workers but the last and goes through them, with the last worker in the place
of the thief. It ends at the first victim it gets tasks from: it pushes these tasks to its own queue, in their order, and
returns the last one.

What happens in one call of `TryStealTasks` is collected as a list of events: a victim has been asked, a batch has been
claimed, a task has been pushed to the thief's own queue. Any other threads act in between.
-/

namespace CppConcur.WorkStealing.Pool

open Logic

variable {n : Nat}

/-! ### The order of the victims -/

theorem mem_order {order : List (Fin n)} (horder : order.Perm ((List.finRange n).take (n - 1))) (v : Fin n) :
    v ∈ order ↔ v.val < n - 1 := by
  rw [horder.mem_iff, List.mem_take_iff_getElem]
  constructor
  · rintro ⟨j, hj, rfl⟩
    rw [List.getElem_finRange]
    exact hj.trans_le (min_le_left _ _)
  · intro hv
    exact ⟨v.val, by rw [List.length_finRange]; omega, by rw [List.getElem_finRange]; rfl⟩

/-- The victims are all workers but the thief. -/
theorem mem_victims (hn : 2 ≤ n) {i : Fin n} {order : List (Fin n)}
    (horder : order.Perm ((List.finRange n).take (n - 1))) (v : Fin n) : v ∈ victims i order ↔ v ≠ i := by
  rw [victims, if_neg (by omega), List.mem_map]
  constructor
  · rintro ⟨w, hw, rfl⟩
    rw [mem_order horder] at hw
    split
    · rename_i hwi
      subst hwi
      rw [ne_eq, Fin.ext_iff]
      simp only
      omega
    · assumption
  · intro hne
    -- the last worker stands in the place of the thief
    by_cases hv : v.val < n - 1
    · exact ⟨v, (mem_order horder v).2 hv, if_neg hne⟩
    · have hvi : v.val ≠ i.val := fun heq => hne (Fin.ext heq)
      refine ⟨i, (mem_order horder i).2 (by omega), ?_⟩
      rw [if_pos rfl, Fin.ext_iff]
      simp only
      omega

theorem nodup_victims (i : Fin n) {order : List (Fin n)} (horder : order.Perm ((List.finRange n).take (n - 1))) :
    (victims i order).Nodup := by
  rw [victims]
  split
  · exact List.nodup_nil
  · have hnodup : order.Nodup := horder.nodup_iff.2 ((List.nodup_finRange n).sublist (List.take_sublist _ _))
    refine hnodup.map_on ?_
    intro v hv w hw heq
    rw [mem_order horder] at hv hw
    split at heq <;> split at heq
    · exact Eq.trans (by assumption) (Eq.symm (by assumption))
    · exact absurd (congrArg Fin.val heq).symm (by simp only; omega)
    · exact absurd (congrArg Fin.val heq) (by simp only; omega)
    · exact heq

/-! ### What happens in a call -/

/-- What a thief does in `TryStealTasks`. -/
inductive Event (n : Nat) where
  /-- it has called `StealTasks` of the victim -/
  | ask (victim : Fin n)
  /-- its `Grab` has claimed these tasks of the victim -/
  | batch (victim : Fin n) (tasks : List Task)
  /-- a task has been pushed to its own queue -/
  | push (task : Task)

def Event.victim? : Event n → Option (Fin n)
  | .ask v => some v
  | _ => none

def Event.batch? : Event n → Option (Fin n × List Task)
  | .batch v tasks => some (v, tasks)
  | _ => none

def Event.push? : Event n → Option Task
  | .push task => some task
  | _ => none

/-- The victims that have been asked. -/
def tried (log : List (Event n)) : List (Fin n) := log.filterMap Event.victim?

/-- The batches that have been claimed, with their victims. -/
def batches (log : List (Event n)) : List (Fin n × List Task) := log.filterMap Event.batch?

/-- The tasks that have been pushed to the thief's queue. -/
def pushes (log : List (Event n)) : List Task := log.filterMap Event.push?

/-- What a step from one place of the thief to another is. -/
def stealEvents : Pc n → Pc n → List (Event n)
  | .queue v .sizeLoadHead (.size _ _), .queue _ (.sizeLoadTail _) _ => [.ask v]
  | .queue v (.grabCas _ _ _ _) (.grab _ _), .queue _ (.grabRet out grabbed) _ => [.batch v (grabbedTasks out grabbed)]
  | _, _ => []

section Calls

variable {Client : Type*}

/-- The events of a step for thief `i`. -/
def stealing (i : Fin n) (c c' : Conf (Thread n Client) (Mem n) (Pc n)) : List (Event n) :=
  stealEvents (c.pc (.worker i)) (c'.pc (.worker i)) ++
    ((c'.mem.worker i).queue.pushed.drop (c.mem.worker i).queue.pushed.length).map .push

/-- Worker `i` starts `TryStealTasks`: before it parks, or as the final attempt after a look at the global queue. -/
def StartsStealing (i : Fin n) (c c' : Conf (Thread n Client) (Mem n) (Pc n)) : Prop :=
  (c.pc (.worker i) = .spin ∨ ∃ old, c.pc (.worker i) = .recheck old ∧ c.mem.global = []) ∧
    c'.pc (.worker i) ≠ c.pc (.worker i)

/-- In `TryStealTasks`. -/
def Pc.InSteal : Pc n → Prop
  | .queue _ _ (.size _ _) => True
  | .queue _ _ (.grab _ _) => True
  | .queue _ _ (.keep _ _ _ _) => True
  | _ => False

variable [DecidableEq Client]

/-- The events of a call of `TryStealTasks` by worker `i`, from its start to this state. -/
abbrev StealOf (cap : Nat) (i : Fin n) : List (Event n) → Conf (Thread n Client) (Mem n) (Pc n) → Prop :=
  (system cap n Client).Since (stealing i) (StartsStealing i) fun c => (c.pc (.worker i)).InSteal

end Calls

/-! ### How far a call has come -/

/-- Victim `v` has been asked last, and the victims in `rest` come after it. -/
def Asked (vs : List (Fin n)) (log : List (Event n)) (v : Fin n) (rest : List (Fin n)) : Prop :=
  ∃ before, tried log = before ++ [v] ∧ vs = before ++ v :: rest

/-- The operation of the thief on the queue of `v` fits to the victims in their order and to the events so far. -/
def Use.Progress (vs : List (Fin n)) (log : List (Event n)) (v : Fin n) (qpc : WorkStealing.Pc Task) : Use n → Prop
  | .size _ rest =>
    match qpc with
    | .sizeLoadHead => vs = tried log ++ v :: rest ∧ pushes log = []
    | _ => Asked vs log v rest ∧ pushes log = []
  | .grab _ rest => Asked vs log v rest ∧ pushes log = [] ∧
    match qpc with
    | .grabRet out grabbed =>
      grabbedTasks out grabbed ≠ [] → (batches log).getLast? = some (v, grabbedTasks out grabbed)
    | _ => True
  | .keep _ stolen task rest => ∃ victim left kept, Asked vs log victim left ∧
    (batches log).getLast? = some (victim, kept ++ task :: (rest ++ [stolen])) ∧
    match qpc with
    | .pushRet ok => ok = true → pushes log = kept ++ [task]
    | _ => pushes log = kept
  | _ => False

/-- The place of the thief fits to the victims in their order and to the events so far. -/
def Progress (vs : List (Fin n)) (log : List (Event n)) : Pc n → Prop
  | .queue v qpc use => use.Progress vs log v qpc
  | .loadWakeups => vs = tried log
  | .park _ => vs = tried log
  | .spinFound task => ∃ v left, Asked vs log v left ∧ (batches log).getLast? = some (v, pushes log ++ [task])
  | .wakePop _ task => ∃ v left, Asked vs log v left ∧ (batches log).getLast? = some (v, pushes log ++ [task])
  | .aborted _ _ => ∃ v left, Asked vs log v left
  | _ => False

section Progress

variable {cap : Nat} {i v : Fin n} {vs rest : List (Fin n)} {log : List (Event n)} {attempt : Attempt} {use : Use n}
  {qpc : WorkStealing.Pc Task} {pc : Pc n}

theorem stealNext_progress (hvs : vs = tried log ++ rest) (hpushes : pushes log = []) :
    Progress vs log (stealNext attempt rest) := by
  cases rest with
  | nil =>
    rw [List.append_nil] at hvs
    cases attempt <;> exact hvs
  | cons v rest => exact ⟨hvs, hpushes⟩

theorem Asked.next (h : Asked vs log v rest) (hpushes : pushes log = []) : Progress vs log (stealNext attempt rest) := by
  obtain ⟨before, htried, hvs⟩ := h
  exact stealNext_progress (by rw [htried, hvs, List.append_assoc]; rfl) hpushes

theorem keepRest_progress {stolen : Task} {tasks : List Task} (h : Asked vs log v rest)
    (hbatch : (batches log).getLast? = some (v, pushes log ++ (tasks ++ [stolen]))) :
    Progress vs log (keepRest i attempt stolen tasks) := by
  cases tasks with
  | nil => cases attempt <;> exact ⟨v, rest, h, hbatch⟩
  | cons task tasks => exact ⟨v, rest, pushes log, h, hbatch, rfl⟩

theorem stolenTasks_progress {tasks : List Task} (h : Asked vs log v rest) (hpushes : pushes log = [])
    (hbatch : tasks ≠ [] → (batches log).getLast? = some (v, tasks)) : Progress vs log (stolenTasks i attempt rest tasks) := by
  unfold stolenTasks
  split
  · exact h.next hpushes
  · rename_i stolen hlast
    obtain ⟨init, rfl⟩ := List.getLast?_eq_some_iff.1 hlast
    rw [List.dropLast_concat]
    refine keepRest_progress h ?_
    rw [hpushes, hbatch (by simp), List.nil_append]

/-- When an operation on a queue returns, the thief goes on to the next victim, to the next push, or returns. -/
theorem Resumed.progress (h : Resumed cap i v use qpc pc) (hprogress : Progress vs log (.queue v qpc use)) :
    Progress vs log pc := by
  cases h with
  | sizeZero attempt rest size => exact hprogress.1.next hprogress.2
  | sizePos attempt rest size => exact ⟨hprogress.1, hprogress.2, trivial⟩
  | grab attempt rest out grabbed =>
    obtain ⟨hasked, hpushes, hbatch⟩ := hprogress
    exact stolenTasks_progress hasked hpushes hbatch
  | kept attempt stolen task rest =>
    obtain ⟨v, left, kept, hasked, hbatch, hpushes⟩ := hprogress
    refine keepRest_progress hasked ?_
    rw [hbatch, hpushes rfl, List.append_assoc]
    rfl
  | aborted attempt stolen task rest =>
    obtain ⟨v, left, kept, hasked, -⟩ := hprogress
    exact ⟨v, left, hasked⟩
  | _ => exact hprogress.elim

/-- The task that a step of an operation adds to the queue. -/
def pushedBy : WorkStealing.Pc Task → List Task
  | .pushBump task => [task]
  | _ => []

theorem pushed_queueStep (cap : Nat) (q : Queue Task) (qpc : WorkStealing.Pc Task) :
    (WorkStealing.step cap q qpc).1.pushed = q.pushed ++ pushedBy qpc := by
  cases qpc <;> simp only [WorkStealing.step, pushedBy, List.append_nil]
  all_goals split <;> rfl

@[simp] theorem tried_append (log log' : List (Event n)) : tried (log ++ log') = tried log ++ tried log' :=
  List.filterMap_append ..

@[simp] theorem batches_append (log log' : List (Event n)) : batches (log ++ log') = batches log ++ batches log' :=
  List.filterMap_append ..

@[simp] theorem pushes_append (log log' : List (Event n)) : pushes (log ++ log') = pushes log ++ pushes log' :=
  List.filterMap_append ..

theorem Asked.append (h : Asked vs log v rest) {events : List (Event n)} (htried : tried events = []) :
    Asked vs (log ++ events) v rest := by
  obtain ⟨before, hbefore, hvs⟩ := h
  exact ⟨before, by rw [tried_append, htried, List.append_nil, hbefore], hvs⟩

theorem pushes_quiet {kept : List Task} (h : pushes log = kept) {events : List (Event n)} (hnone : pushes events = []) :
    pushes (log ++ events) = kept := by
  rw [pushes_append, h, hnone, List.append_nil]

/-- A step that asks nobody and pushes nothing. -/
theorem Asked.quiet (h : Asked vs log v rest) (hpushes : pushes log = []) {events : List (Event n)}
    (htried : tried events = [])
    (hnone : pushes events = []) : Asked vs (log ++ events) v rest ∧ pushes (log ++ events) = [] :=
  ⟨h.append htried, pushes_quiet hpushes hnone⟩

theorem step_size_progress (h : (Use.size attempt rest).Progress vs log v qpc) (hfits : qpc.Sizing)
    (hresume : resume cap i v (.size attempt rest) qpc = none) (q : Queue Task) :
    (Use.size attempt rest).Progress vs
      (log ++ (stealEvents (.queue v qpc (.size attempt rest))
          (.queue v (WorkStealing.step cap q qpc).2 (.size attempt rest)) ++ (pushedBy qpc).map .push))
      v (WorkStealing.step cap q qpc).2 := by
  cases qpc with
  | sizeLoadHead =>
    obtain ⟨hvs, hpushes⟩ := h
    exact ⟨⟨tried log, by rw [tried_append]; rfl, hvs⟩, by rw [pushes_append, hpushes]; rfl⟩
  | sizeLoadTail oldHead => exact h.1.quiet h.2 rfl rfl
  | sizeRet size =>
    simp only [resume] at hresume
    split at hresume <;> cases hresume
  | _ => exact hfits.elim

theorem step_grab_progress (h : (Use.grab attempt rest).Progress vs log v qpc) (hfits : qpc.Grabbing)
    (hresume : resume cap i v (.grab attempt rest) qpc = none) (q : Queue Task) :
    (Use.grab attempt rest).Progress vs
      (log ++ (stealEvents (.queue v qpc (.grab attempt rest))
          (.queue v (WorkStealing.step cap q qpc).2 (.grab attempt rest)) ++ (pushedBy qpc).map .push))
      v (WorkStealing.step cap q qpc).2 := by
  obtain ⟨hasked, hpushes, -⟩ := h
  have hquiet : ∀ events : List (Event n), tried events = [] → pushes events = [] →
      Asked vs (log ++ events) v rest ∧ pushes (log ++ events) = [] := fun _ => hasked.quiet hpushes
  cases qpc with
  | grabLoadTail out => exact ⟨(hquiet _ rfl rfl).1, (hquiet _ rfl rfl).2, trivial⟩
  | grabLoadHead out newHead =>
    simp only [WorkStealing.step]
    split
    · exact ⟨(hquiet _ rfl rfl).1, (hquiet _ rfl rfl).2, fun hne => absurd rfl hne⟩
    · exact ⟨(hquiet _ rfl rfl).1, (hquiet _ rfl rfl).2, trivial⟩
  | grabCopy out oldHead newHead maxGrab k =>
    simp only [WorkStealing.step, grabLoop]
    repeat' split
    all_goals exact ⟨(hquiet _ rfl rfl).1, (hquiet _ rfl rfl).2, trivial⟩
  | grabCas out oldHead newHead maxGrab =>
    simp only [WorkStealing.step, grabLoop]
    split
    · refine ⟨(hquiet _ rfl rfl).1, (hquiet _ rfl rfl).2, fun _ => ?_⟩
      rw [batches_append]
      exact List.getLast?_concat
    · split <;> exact ⟨(hquiet _ rfl rfl).1, (hquiet _ rfl rfl).2, trivial⟩
  | grabRet out grabbed => cases hresume
  | _ => exact hfits.elim

theorem step_keep_progress {stolen task : Task} {tasks : List Task}
    (h : (Use.keep attempt stolen task tasks).Progress vs log v qpc) (hfits : qpc.Pushing task)
    (hresume : resume cap i v (.keep attempt stolen task tasks) qpc = none) (q : Queue Task) :
    (Use.keep attempt stolen task tasks).Progress vs
      (log ++ (stealEvents (.queue v qpc (.keep attempt stolen task tasks))
          (.queue v (WorkStealing.step cap q qpc).2 (.keep attempt stolen task tasks)) ++ (pushedBy qpc).map .push))
      v (WorkStealing.step cap q qpc).2 := by
  obtain ⟨victim, left, kept, hasked, hbatch, hpushes⟩ := h
  have hstays : ∀ events : List (Event n), batches events = [] →
      (batches (log ++ events)).getLast? = some (victim, kept ++ task :: (tasks ++ [stolen])) := by
    intro events hnone
    rw [batches_append, hnone, List.append_nil, hbatch]
  cases qpc with
  | pushLoadTail pushed => exact ⟨victim, left, kept, hasked.append rfl, hstays _ rfl, pushes_quiet hpushes rfl⟩
  | pushLoadHead pushed currentTail =>
    simp only [WorkStealing.step]
    split
    · exact ⟨victim, left, kept, hasked.append rfl, hstays _ rfl, by rintro ⟨⟩⟩
    · exact ⟨victim, left, kept, hasked.append rfl, hstays _ rfl, pushes_quiet hpushes rfl⟩
  | pushStore pushed currentTail => exact ⟨victim, left, kept, hasked.append rfl, hstays _ rfl, pushes_quiet hpushes rfl⟩
  | pushBump pushed =>
    obtain rfl : pushed = task := hfits
    exact ⟨victim, left, kept, hasked.append rfl, hstays _ rfl, fun _ => by rw [pushes_append, hpushes]; rfl⟩
  | pushRet ok => cases ok <;> cases hresume
  | _ => exact hfits.elim

/-- A step of an operation of the thief. -/
theorem Use.Progress.step (h : use.Progress vs log v qpc) (hfits : use.Fits i v qpc)
    (hresume : resume cap i v use qpc = none) (q : Queue Task) :
    use.Progress vs (log ++ (stealEvents (.queue v qpc use) (.queue v (WorkStealing.step cap q qpc).2 use) ++
      (pushedBy qpc).map .push)) v (WorkStealing.step cap q qpc).2 := by
  cases use with
  | size attempt rest => exact step_size_progress h hfits hresume q
  | grab attempt rest => exact step_grab_progress h hfits hresume q
  | keep attempt stolen task rest => exact step_keep_progress h hfits.2 hresume q
  | _ => exact h.elim

/-- The victims are asked in their order. -/
theorem Progress.tried_append {vs : List (Fin n)} {log : List (Event n)} {pc : Pc n} (h : Progress vs log pc) :
    ∃ rest, vs = tried log ++ rest := by
  have hasked : ∀ {v rest}, Asked vs log v rest → ∃ rest, vs = tried log ++ rest := by
    rintro v rest ⟨before, htried, hvs⟩
    exact ⟨rest, by rw [htried, hvs, List.append_assoc]; rfl⟩
  cases pc with
  | queue v qpc use =>
    cases use with
    | size attempt rest =>
      cases qpc with
      | sizeLoadHead => exact ⟨v :: rest, h.1⟩
      | _ => exact hasked h.1
    | grab attempt rest => exact hasked h.1
    | keep attempt stolen task rest =>
      obtain ⟨victim, left, kept, hkept, -⟩ := h
      exact hasked hkept
    | _ => exact h.elim
  | loadWakeups => exact ⟨[], h.trans (List.append_nil _).symm⟩
  | park old => exact ⟨[], h.trans (List.append_nil _).symm⟩
  | spinFound task =>
    obtain ⟨v, left, hfound, -⟩ := h
    exact hasked hfound
  | wakePop left task =>
    obtain ⟨v, left, hfound, -⟩ := h
    exact hasked hfound
  | aborted attempt tasks =>
    obtain ⟨v, left, haborted⟩ := h
    exact hasked haborted
  | _ => exact h.elim

/-- No event of the thief belongs to the return of an operation. -/
theorem Resumed.stealEvents_eq_nil (h : Resumed cap i v use qpc pc) : stealEvents (.queue v qpc use) pc = [] := by
  cases h <;> rfl

theorem stealEvents_self (pc : Pc n) : stealEvents pc pc = [] := by
  cases pc with
  | queue v qpc use => cases qpc <;> cases use <;> rfl
  | _ => rfl

/-- Nothing is pushed to the queue of another worker. -/
theorem Use.Fits.pushedBy_eq_nil (h : use.Fits i v qpc) (hne : v ≠ i) : pushedBy qpc = [] := by
  cases use with
  | pick parked => exact absurd h.1 hne
  | push current task => exact absurd h.1 hne
  | offload current task => exact absurd h.1 hne
  | keep attempt stolen task rest => exact absurd h.1 hne
  | size attempt rest => cases qpc <;> first | rfl | exact h.elim
  | grab attempt rest => cases qpc <;> first | rfl | exact h.elim

end Progress

/-! ### Every call -/

section Calls

variable {Client : Type*} {cap : Nat} {i : Fin n} {c : Conf (Thread n Client) (Mem n) (Pc n)}

/-- Every worker is in an operation that it has called. -/
def Fitting (c : Conf (Thread n Client) (Mem n) (Pc n)) : Prop := ∀ i, (c.pc (.worker i)).Fits i

theorem pushed_setQueue (m : Mem n) (v : Fin n) (qpc : WorkStealing.Pc Task) :
    ((m.setWorker v { m.worker v with queue := (WorkStealing.step cap (m.worker v).queue qpc).1 }).worker i).queue.pushed =
      (m.worker i).queue.pushed ++ if v = i then pushedBy qpc else [] := by
  by_cases hv : v = i
  · subst hv
    simp only [Mem.setWorker, Function.update_self, pushed_queueStep, if_pos]
  · simp only [Mem.setWorker, ne_eq, Ne.symm hv, not_false_eq_true, Function.update_of_ne, if_neg hv, List.append_nil]

variable [DecidableEq Client]

theorem fits_of_reachable (h : (system cap n Client).Reachable c) : Fitting c := by
  refine h.invariant ?_ ?_
  · rintro c ⟨-, hpcs⟩ i
    rw [hpcs]
    trivial
  · rintro c c' - hfits ⟨t, m, pc, hact, rfl⟩ i
    by_cases ht : .worker i = t
    · subst ht
      have hown := hfits i
      simp only [Function.update_self]
      generalize c.pc (.worker i) = pc₀ at hact hown
      cases hact with
      | submitInside hint => trivial
      | step order horder =>
        rcases workerStep_cases cap i order c.mem pc₀ with ⟨v, qpc, use, rfl, hresume⟩ | ⟨_, hstarts⟩
        · simp only [step, workerStep, hresume]
          exact Use.Fits.step hown cap _
        · exact hstarts.fits
    · simpa only [ne_eq, ht, not_false_eq_true, Function.update_of_ne] using hfits i

omit [DecidableEq Client] in
/-- Only the thief itself pushes to its queue. -/
theorem Fitting.pushed_act {t : Thread n Client} {m : Mem n} {pc : Pc n} (h : Fitting c) (ht : .worker i ≠ t)
    (hact : Act cap t c.mem (c.pc t) m pc) : (m.worker i).queue.pushed = (c.mem.worker i).queue.pushed := by
  cases t with
  | client e =>
    generalize c.pc (.client e) = pc₀ at hact
    cases hact with
    | submit => rfl
    | step order horder => rw [step, submitStep_sameQueues c.mem pc₀ i]
  | stopper =>
    generalize c.pc .stopper = pc₀ at hact
    cases hact with
    | stop => rfl
    | step order horder => rw [step, stopStep_sameQueues c.mem pc₀ i]
  | worker j =>
    have hfits := h j
    generalize c.pc (.worker j) = pc₀ at hact hfits
    cases hact with
    | submitInside hint => rfl
    | step order horder =>
      rcases workerStep_cases cap j order c.mem pc₀ with ⟨v, qpc, use, rfl, hresume⟩ | ⟨hsame, _⟩
      · have hnone : (if v = i then pushedBy qpc else []) = [] := by
          split
          · exact hfits.pushedBy_eq_nil fun hv => ht (congrArg Thread.worker (by rw [← hv]; exact Eq.symm (by assumption)))
          · rfl
        simp only [step, workerStep, hresume, pushed_setQueue, hnone, List.append_nil]
      · rw [step, hsame i]

/-- A step of the thief that leaves the queues alone has no event. -/
theorem stealing_of_sameQueues {m : Mem n} {pc : Pc n} (h : SameQueues c.mem m)
    (hnone : stealEvents (c.pc (.worker i)) pc = []) :
    stealing i c ⟨m, Function.update c.pc (.worker i) pc⟩ = [] := by
  simp only [stealing, Function.update_self, hnone, h i, List.drop_length, List.map_nil, List.append_nil]

/-- Neither has a step of another thread. -/
theorem Fitting.stealing_eq_nil {t : Thread n Client} {m : Mem n} {pc : Pc n} (h : Fitting c) (ht : .worker i ≠ t)
    (hact : Act cap t c.mem (c.pc t) m pc) : stealing i c ⟨m, Function.update c.pc t pc⟩ = [] := by
  simp only [stealing, ne_eq, ht, not_false_eq_true, Function.update_of_ne, stealEvents_self, h.pushed_act ht hact,
    List.drop_length, List.map_nil, List.append_nil]

/-- The first step of a call shuffles the victims. -/
theorem progress_start {t : Thread n Client} {m : Mem n} {pc : Pc n} (hact : Act cap t c.mem (c.pc t) m pc)
    (hstarts : StartsStealing i c ⟨m, Function.update c.pc t pc⟩) :
    ∃ order : List (Fin n), order.Perm ((List.finRange n).take (n - 1)) ∧
      Progress (victims i order) (stealing i c ⟨m, Function.update c.pc t pc⟩) (Function.update c.pc t pc (.worker i)) := by
  obtain ⟨hpc, hmoved⟩ := hstarts
  by_cases ht : .worker i = t
  · subst ht
    generalize hfrom : c.pc (.worker i) = pc₀ at hact hpc
    rcases hpc with rfl | ⟨old, rfl, hglobal⟩
    · cases hact with
      | step order horder =>
        have hquiet : stealing i c ⟨_, Function.update c.pc (.worker i) (stealNext .first (victims i order))⟩ = [] :=
          stealing_of_sameQueues (m := { c.mem with nSpinning := c.mem.nSpinning + 1 }) (fun _ => rfl) (by rw [hfrom]; rfl)
        refine ⟨order, horder, ?_⟩
        simp only [step, workerStep, hquiet, Function.update_self]
        exact stealNext_progress rfl rfl
    · cases hact with
      | step order horder =>
        have hquiet : stealing i c ⟨c.mem, Function.update c.pc (.worker i) (stealNext (.final old) (victims i order))⟩ = [] :=
          stealing_of_sameQueues (fun _ => rfl) (by rw [hfrom]; rfl)
        refine ⟨order, horder, ?_⟩
        simp only [step, workerStep, hglobal, hquiet, Function.update_self]
        exact stealNext_progress rfl rfl
  · exact absurd (Function.update_of_ne ht ..) hmoved

/-- A step of the thief inside the call. -/
theorem progress_step {order : List (Fin n)} {log : List (Event n)} {m : Mem n} {pc : Pc n} (hfits : Fitting c)
    (h : Progress (victims i order) log (c.pc (.worker i))) (hinside : (c.pc (.worker i)).InSteal)
    (hact : Act cap (.worker i : Thread n Client) c.mem (c.pc (.worker i)) m pc) :
    Progress (victims i order) (log ++ stealing i c ⟨m, Function.update c.pc (.worker i) pc⟩) pc := by
  have hown := hfits i
  generalize hfrom : c.pc (.worker i) = pc₀ at hact hinside h hown
  cases pc₀ with
  | queue v qpc use =>
    cases hact with
    | step order' horder =>
      cases hresume : resume cap i v use qpc with
      | some pc' =>
        have hresumed := resumed_of_resume hresume
        simp only [step, workerStep, hresume]
        rw [stealing_of_sameQueues (fun _ => rfl) (by rw [hfrom]; exact hresumed.stealEvents_eq_nil), List.append_nil]
        exact hresumed.progress h
      | none =>
        have hpushed : (if v = i then pushedBy qpc else []) = pushedBy qpc := by
          split
          · rfl
          · exact (Use.Fits.pushedBy_eq_nil hown (by assumption)).symm
        simp only [step, workerStep, hresume, stealing, Function.update_self, hfrom, pushed_setQueue, hpushed,
          List.drop_left]
        exact Use.Progress.step h hown hresume _
  | _ => exact hinside.elim

/-- The place of the thief in a call of `TryStealTasks` fits to the events of the call. -/
theorem progress_of_stealOf {log : List (Event n)} (h : StealOf cap i log c) :
    ∃ order : List (Fin n), order.Perm ((List.finRange n).take (n - 1)) ∧
      Progress (victims i order) log (c.pc (.worker i)) := by
  refine h.invariant (P := fun log c => ∃ order : List (Fin n), order.Perm ((List.finRange n).take (n - 1)) ∧
    Progress (victims i order) log (c.pc (.worker i))) ?_ ?_
  · rintro c c' - ⟨t, m, pc, hact, rfl⟩ hstarts
    exact progress_start hact hstarts
  · rintro log c c' hreach ⟨order, horder, hprogress⟩ hinside ⟨t, m, pc, hact, rfl⟩
    have hfits := fits_of_reachable hreach
    refine ⟨order, horder, ?_⟩
    by_cases ht : .worker i = t
    · subst ht
      simp only [Function.update_self]
      exact progress_step hfits hprogress hinside hact
    · rw [hfits.stealing_eq_nil ht hact, List.append_nil]
      simpa only [ne_eq, ht, not_false_eq_true, Function.update_of_ne] using hprogress

/-- A call of `TryStealTasks` asks every victim at most once and never the thief. If it returns nothing it has asked all
other workers; if it returns a task, this is the last one of the batch claimed from the last victim, and the others have
been pushed to the thief's queue in their order. -/
theorem victims_enumerated (hn : 2 ≤ n) (i : Fin n) {log : List (Event n)} (h : StealOf cap i log c) :
    (tried log).Nodup ∧ i ∉ tried log ∧
    ((c.pc (.worker i) = .loadWakeups ∨ ∃ old, c.pc (.worker i) = .park old) → ∀ v, v ≠ i → (tried log).count v = 1) ∧
    ∀ task, (c.pc (.worker i) = .spinFound task ∨ c.pc (.worker i) = .wakePop 5 task) →
      ∃ victim batch, (tried log).getLast? = some victim ∧ (batches log).getLast? = some (victim, batch) ∧
        batch = pushes log ++ [task] := by
  obtain ⟨order, horder, hprogress⟩ := progress_of_stealOf h
  have hnodup := nodup_victims i horder
  obtain ⟨rest, hrest⟩ := hprogress.tried_append
  have htried : (tried log).Nodup := (hrest ▸ hnodup).of_append_left
  refine ⟨htried, ?_, ?_, ?_⟩
  · intro hmem
    exact (mem_victims hn horder i).1 (by rw [hrest]; exact List.mem_append_left _ hmem) rfl
  · intro hret v hv
    have hall : victims i order = tried log := by
      rcases hret with hpc | ⟨old, hpc⟩ <;> rwa [hpc] at hprogress
    exact List.count_eq_one_of_mem htried (hall ▸ (mem_victims hn horder v).2 hv)
  · intro task hret
    obtain ⟨v, left, ⟨before, hbefore, -⟩, hbatch⟩ : ∃ v left, Asked (victims i order) log v left ∧
        (batches log).getLast? = some (v, pushes log ++ [task]) := by
      rcases hret with hpc | hpc <;> rwa [hpc] at hprogress
    exact ⟨v, _, by rw [hbefore, List.getLast?_concat], hbatch, rfl⟩

/-- In a pool of two workers without tasks the first one asks the second one. -/
theorem victims_enumerated_two : ∃ (log : List (Event 2)) (c : Conf (Thread 2 Unit) (Mem 2) (Pc 2)),
    2 ≤ 2 ∧ StealOf 7 0 log c ∧ c.pc (.worker 0) = .loadWakeups ∧ (tried log).count 1 = 1 := by
  have horder : [(0 : Fin 2)].Perm ((List.finRange 2).take (2 - 1)) := .refl _
  have h0 : (system 7 2 Unit).Reachable ⟨.start 2, Thread.start⟩ := .init ⟨rfl, fun _ => rfl⟩
  have hloop := h0.step ⟨.worker 0, _, _, .step [0] horder, rfl⟩
  have hlifo := hloop.step ⟨.worker 0, _, _, .step [0] horder, rfl⟩
  have hpopHead := hlifo.step ⟨.worker 0, _, _, .step [0] horder, rfl⟩
  have hpopTail := hpopHead.step ⟨.worker 0, _, _, .step [0] horder, rfl⟩
  have hpop := hpopTail.step ⟨.worker 0, _, _, .step [0] horder, rfl⟩
  have hglobal := hpop.step ⟨.worker 0, _, _, .step [0] horder, rfl⟩
  have hspin : StealOf 7 0 _ _ := .enter hglobal ⟨.worker 0, _, _, .step [0] horder, rfl⟩ ⟨.inl rfl, nofun⟩
  have hsizeHead := hspin.step trivial ⟨.worker 0, _, _, .step [0] horder, rfl⟩
  have hsizeTail := hsizeHead.step trivial ⟨.worker 0, _, _, .step [0] horder, rfl⟩
  have hnone := hsizeTail.step trivial ⟨.worker 0, _, _, .step [0] horder, rfl⟩
  exact ⟨_, _, le_rfl, hnone, rfl, (victims_enumerated le_rfl 0 hnone).2.2.1 (.inl rfl) 1 (by decide)⟩

end Calls

end CppConcur.WorkStealing.Pool
