import Nachos.Userprog.PTableInv

/-!
# The steps of the process table, one by one

In a reachable state the three functions take fewer branches than their code has: the slot of the
process that runs leads to its own `PCB`. `Act` lists what is left, and `step_act` shows that the
list is complete. The lemmas after it say for each part of the state which steps touch it.
-/

namespace Nachos

namespace Procs

/-- What a step in a state with `TableInv` can be. -/
inductive Act (s : Procs) : Label → Procs → Prop
  | exec {t : ℕ} {name : Option Name} (hp : s.pt t = .user) :
      Act s (.exec t name) (s.goto t (.execP name))
  | joinRejected {t : ℕ} {id : ℤ} {m : Report} (hp : s.pt t = .user)
      (hr : ¬ ∃ a, s.pcbAt id = some a ∧ (s.heap a).parentID = s.processID t) :
      Act s (.join t id) (((s.emit (.joinCalled t id)).emit (.printed m)).joinReturn t id (-1))
  | joinFault {t : ℕ} {id : ℤ} (hp : s.pt t = .user) (ha : s.pcbAt id = none) :
      Act s (.join t id) ((s.emit (.joinCalled t id)).stop .undefined)
  | join {t : ℕ} {id : ℤ} {a : ℕ} (hp : s.pt t = .user) (ha : s.pcbAt id = some a)
      (hpar : (s.heap a).parentID = s.processID t) :
      Act s (.join t id) ((s.emit (.joinCalled t id)).goto t (.joinIncP id t))
  | exitHalt {t : ℕ} {ec : ℤ} (hp : s.pt t = .user) (h0 : s.processID t = 0) :
      Act s (.exit t ec) ((s.emit (.exitCalled t ec)).stop .halted)
  | exitFault {t : ℕ} {ec : ℤ} (hp : s.pt t = .user) (hb : s.pcbAt (s.heap t).parentID = none) :
      Act s (.exit t ec) (((s.emit (.exitCalled t ec)).modify t
        fun b => { b with exitcode := ec }).stop .undefined)
  | exit {t : ℕ} {ec : ℤ} {b : ℕ} (hp : s.pt t = .user)
      (hb : s.pcbAt (s.heap t).parentID = some b) :
      Act s (.exit t ec) (((s.emit (.exitCalled t ec)).modify t
        fun b => { b with exitcode := ec }).goto t (.exitDecP b))
  | fault {t : ℕ} {nm : Name} {r : SemRef} {next : Pt} (hw : (s.pt t).waits = some (r, next))
      (hq : t ∉ (s.sems r).queue) (hf : s.freed r = true) :
      Act s (.run t nm) (s.stop .undefined)
  | sleep {t : ℕ} {nm : Name} {r : SemRef} {next : Pt} (hw : (s.pt t).waits = some (r, next))
      (hq : t ∉ (s.sems r).queue) (hf : s.freed r = false) (hv : (s.sems r).value = 0) :
      Act s (.run t nm) (s.setSem r { s.sems r with queue := (s.sems r).queue ++ [t] })
  | take {t : ℕ} {nm : Name} {r : SemRef} {next : Pt} (hw : (s.pt t).waits = some (r, next))
      (hq : t ∉ (s.sems r).queue) (hf : s.freed r = false) (hv : (s.sems r).value ≠ 0) :
      Act s (.run t nm) ((s.setSem r { s.sems r with value := intPred (s.sems r).value }).goto t next)
  | execFailed {t : ℕ} {nm : Name} {name : Option Name} {m : Report}
      (hp : s.pt t = .execBody name) :
      Act s (.run t nm) (((s.emit (.printed m)).V .bmsem).execReturn t (-1))
  | create {t : ℕ} {nm : Name} {slot : ℕ} {name : Name} (hp : s.pt t = .execBody (some name))
      (hlt : slot < maxProcess) (hc : s.bm.test slot = false) :
      Act s (.run t nm) ((({ s with bm := s.bm.mark slot }.newPCB t slot name).emit
        (.created t s.next slot)).goto t (.execMultexP s.next slot))
  | fork {t : ℕ} {nm : Name} {a slot : ℕ} (hp : s.pt t = .execFork a slot) :
      Act s (.run t nm) (s.execFork t a slot)
  | execUnlock {t : ℕ} {nm : Name} {a slot : ℕ} (hp : s.pt t = .execUnlock a slot) :
      Act s (.run t nm) ((s.V (.multex a)).goto t (.execDone slot))
  | execDone {t : ℕ} {nm : Name} {slot : ℕ} (hp : s.pt t = .execDone slot) :
      Act s (.run t nm) ((s.V .bmsem).execReturn t slot)
  | joinInc {t : ℕ} {nm : Name} {id : ℤ} {b : ℕ} (hp : s.pt t = .joinInc id b) :
      Act s (.run t nm) (((s.modify b fun p => { p with numwait := p.numwait + 1 }).V
        (.multex b)).goto t (.joinP id))
  | joinPFault {t : ℕ} {nm : Name} {id : ℤ} (hp : s.pt t = .joinP id) (ha : s.pcbAt id = none) :
      Act s (.run t nm) (s.stop .undefined)
  | joinP {t : ℕ} {nm : Name} {id : ℤ} {a : ℕ} (hp : s.pt t = .joinP id)
      (ha : s.pcbAt id = some a) : Act s (.run t nm) (s.goto t (.joinWait id a))
  | joinReadFault {t : ℕ} {nm : Name} {id : ℤ} (hp : s.pt t = .joinRead id)
      (ha : s.pcbAt id = none) : Act s (.run t nm) (s.stop .undefined)
  | joinRead {t : ℕ} {nm : Name} {id : ℤ} {a : ℕ} (hp : s.pt t = .joinRead id)
      (ha : s.pcbAt id = some a) :
      Act s (.run t nm) (((s.emit (.joinRead t id (s.heap a).exitcode)).V (.exitsem a)).goto t
        (.joinDone id (s.heap a).exitcode))
  | joinDone {t : ℕ} {nm : Name} {id ec : ℤ} (hp : s.pt t = .joinDone id ec) :
      Act s (.run t nm) (s.joinReturn t id ec)
  | exitDec {t : ℕ} {nm : Name} {b : ℕ} (hp : s.pt t = .exitDec b) :
      Act s (.run t nm) (((s.modify b fun p =>
        { p with numwait := if p.numwait > 0 then p.numwait - 1 else p.numwait }).V
          (.multex b)).goto t .exitRelease)
  | exitRelease {t : ℕ} {nm : Name} (hp : s.pt t = .exitRelease) :
      Act s (.run t nm) ((s.V (.joinsem t)).goto t .exitP)
  | exitP {t : ℕ} {nm : Name} (hp : s.pt t = .exitP) :
      Act s (.run t nm) (s.goto t (.exitWait t))
  | remove {t : ℕ} {nm : Name} (hp : s.pt t = .exitRemove) :
      Act s (.run t nm) ((({ s with bm := s.bm.clear (s.processID t) }.emit
        (.removed t (s.sems (.joinsem t)).queue (s.sems (.exitsem t)).queue)).modify t
          fun b => { b with deleted := true }).goto t .dead)

section Complete

variable {s s' : Procs} {t : ℕ} (hi : s.TableInv)

include hi

theorem act_join (hp : s.pt t = .user) (id : ℤ) : s.Act (.join t id) (s.joinUpdate t id) := by
  have hself : s.pcbAt (s.processID t) = some t := hi.pcbAt_self (by rw [hp]; rfl)
  have hemit : ∀ i, (s.emit (.joinCalled t id)).pcbAt i = s.pcbAt i := fun _ => rfl
  have hheap : (s.emit (.joinCalled t id)).heap = s.heap := rfl
  have hpid : (s.emit (.joinCalled t id)).processID = s.processID := rfl
  unfold joinUpdate
  dsimp only
  rw [hemit]
  split_ifs with hid
  · refine .joinRejected hp ?_
    rintro ⟨a, ha, _⟩
    unfold pcbAt at ha
    rcases hid with h | h
    · rw [if_neg (by omega)] at ha; cases ha
    · rw [if_neg (by omega)] at ha; cases ha
  · rcases ha : s.pcbAt id with _ | a
    · exact .joinFault hp ha
    · simp only [hheap, hpid, hemit]
      split_ifs with hne
      · refine .joinRejected hp ?_
        rintro ⟨b, hb, hpar⟩
        rw [ha, Option.some.injEq] at hb
        subst hb
        exact hne hpar.symm
      · rw [ne_eq, not_not] at hne
        rw [← hne, hself]
        exact .join hp ha hne.symm

theorem act_exit (hp : s.pt t = .user) (ec : ℤ) : s.Act (.exit t ec) (s.exitUpdate t ec) := by
  obtain ⟨hl, hid, _⟩ := hi.running t (by rw [hp]; rfl)
  have hself : s.pcbAt (s.processID t) = some t := hi.pcbAt_self (by rw [hp]; rfl)
  have htest : s.bm.test (s.processID t) = true := hid ▸ (hi.own t hl).2.2
  have hemit : ∀ i, (s.emit (.exitCalled t ec)).pcbAt i = s.pcbAt i := fun _ => rfl
  have hbm : (s.emit (.exitCalled t ec)).bm = s.bm := rfl
  have hmod : ∀ i, ((s.emit (.exitCalled t ec)).modify t fun b => { b with exitcode := ec }).pcbAt
      i = s.pcbAt i := fun _ => rfl
  have hpar : (((s.emit (.exitCalled t ec)).modify t fun b => { b with exitcode := ec }).heap
      t).parentID = (s.heap t).parentID := by simp [modify, emit]
  unfold exitUpdate
  dsimp only
  rw [hbm, htest, hemit, hself]
  split_ifs with h0
  · exact .exitHalt hp h0
  · exact absurd ‹_› (by simp)
  · dsimp only
    rw [hmod, hpar]
    rcases hb : s.pcbAt (s.heap t).parentID with _ | b
    · exact .exitFault hp hb
    · exact .exit hp hb

omit hi in
theorem act_P {nm : Name} {r : SemRef} {next : Pt} (hw : (s.pt t).waits = some (r, next))
    (h : s.P t r next = some s') : s.Act (.run t nm) s' := by
  unfold P at h
  split_ifs at h with hq hf
  · rw [Option.some.injEq] at h
    subst h
    exact .fault hw hq hf
  · rw [Bool.not_eq_true] at hf
    rw [Option.some.injEq] at h
    subst h
    by_cases hv : (s.sems r).value = 0
    · rw [Semaphore.P_zero hv]
      exact .sleep hw hq hf hv
    · rw [Semaphore.P_pos hv]
      exact .take hw hq hf hv

theorem act_execBody {nm : Name} {name : Option Name} (hp : s.pt t = .execBody name) :
    s.Act (.run t nm) (s.execBody t name nm) := by
  unfold execBody
  dsimp only
  split
  · exact .execFailed hp
  rw [hi.pcbAt_zero]
  dsimp only
  split_ifs with _ hneg
  · exact .execFailed hp
  · exact .execFailed hp
  · rcases s.bm.find_cases with ⟨_, hf⟩ | ⟨slot, hlt, hclear, hf⟩
    · rw [hf] at hneg; exact absurd (by simp) hneg
    · simp only [hf, Int.toNat_natCast]
      exact .create hp (hi.size ▸ hlt) hclear

theorem act_block {nm : Name} (h : s.block t nm = some s') : s.Act (.run t nm) s' := by
  unfold block at h
  split at h
  all_goals first | (rw [Option.some.injEq] at h; subst h) | cases h
  case _ hp => exact act_execBody hi hp
  case _ hp => exact .fork hp
  case _ hp => exact .execUnlock hp
  case _ hp => exact .execDone hp
  case _ hp => exact .joinInc hp
  case _ id hp =>
    rcases ha : s.pcbAt id with _ | a
    · exact .joinPFault hp ha
    · exact .joinP hp ha
  case _ id hp =>
    unfold Procs.joinRead
    rcases ha : s.pcbAt id with _ | a
    · exact .joinReadFault hp ha
    · exact .joinRead hp ha
  case _ hp => exact .joinDone hp
  case _ hp => exact .exitDec hp
  case _ hp =>
    rw [hi.pcbAt_self (by rw [hp]; rfl)]
    exact .exitRelease hp
  case _ hp =>
    rw [hi.pcbAt_self (by rw [hp]; rfl)]
    exact .exitP hp
  case _ hp =>
    rw [(hi.remove_eq hp).2]
    exact .remove hp

/-- The list of steps is complete. -/
theorem step_act {l : Label} (h : s.step l = some s') : s.down = none ∧ s.Act l s' := by
  unfold step at h
  split_ifs at h with hd
  have hdown : s.down = none := by simpa using hd
  refine ⟨hdown, ?_⟩
  cases l with
  | exec t name =>
    simp only at h
    split_ifs at h with hp
    rw [Option.some.injEq] at h
    subst h
    exact .exec hp
  | join t id =>
    simp only at h
    split_ifs at h with hp
    rw [Option.some.injEq] at h
    subst h
    exact act_join hi hp id
  | exit t ec =>
    simp only at h
    split_ifs at h with hp
    rw [Option.some.injEq] at h
    subst h
    exact act_exit hi hp ec
  | run t nm =>
    simp only at h
    split at h
    · rename_i hw
      exact act_P hw h
    · exact act_block hi h

end Complete

/-! ## What the elementary steps leave alone -/

section Elementary

variable (s : Procs) (t : ℕ) (p : Pt) (e : Event) (d : Down) (r : SemRef) (a : ℕ)

@[simp] theorem goto_sems : (s.goto t p).sems = s.sems := rfl
@[simp] theorem emit_sems : (s.emit e).sems = s.sems := rfl
@[simp] theorem stop_sems : (s.stop d).sems = s.sems := rfl
@[simp] theorem modify_sems (f : PCB → PCB) : (s.modify a f).sems = s.sems := rfl
@[simp] theorem setSem_sems (m : Semaphore) :
    (s.setSem r m).sems = Function.update s.sems r m := rfl
@[simp] theorem setSem_pt (m : Semaphore) : (s.setSem r m).pt = s.pt := rfl
@[simp] theorem goto_heap : (s.goto t p).heap = s.heap := rfl
@[simp] theorem emit_heap : (s.emit e).heap = s.heap := rfl
@[simp] theorem stop_heap : (s.stop d).heap = s.heap := rfl
@[simp] theorem setSem_heap (m : Semaphore) : (s.setSem r m).heap = s.heap := rfl
@[simp] theorem V_heap : (s.V r).heap = s.heap := by unfold V; split_ifs <;> rfl
@[simp] theorem goto_log : (s.goto t p).log = s.log := rfl
@[simp] theorem emit_log : (s.emit e).log = s.log ++ [e] := rfl
@[simp] theorem stop_log : (s.stop d).log = s.log := rfl
@[simp] theorem modify_log (f : PCB → PCB) : (s.modify a f).log = s.log := rfl
@[simp] theorem setSem_log (m : Semaphore) : (s.setSem r m).log = s.log := rfl
@[simp] theorem V_log : (s.V r).log = s.log := by unfold V; split_ifs <;> rfl

theorem V_sems_of_ne {r' : SemRef} (h : r' ≠ r) : (s.V r).sems r' = s.sems r' := by
  unfold V
  split_ifs
  · rfl
  · rw [setSem_sems, Function.update_of_ne h]

variable {s r}

theorem V_eq (h : s.freed r = false) : s.V r = s.setSem r (s.sems r).V := by
  unfold V
  rw [h]
  rfl

end Elementary

/-- A thread stays where it is unless it takes the step, or is forked by it. -/
theorem Act.pt_others {s s' : Procs} {l : Label} (h : s.Act l s') {u : ℕ} (hu : u ≠ l.thread) :
    s'.pt u = s.pt u ∨ ∃ slot, s.pt l.thread = .execFork u slot ∧ s'.pt u = .user := by
  cases h with
  | fork hp =>
    rename_i t nm a slot
    have hu : u ≠ t := hu
    by_cases hua : u = a
    · subst hua
      refine Or.inr ⟨slot, hp, ?_⟩
      simp [execFork, hu]
    · refine Or.inl ?_
      simp [execFork, hu, hua, modify]
  | _ =>
    refine Or.inl ?_
    simp only [Label.thread] at hu
    simp [joinReturn, execReturn, newPCB, hu]

section Kept

variable {s s' : Procs} {l : Label} {a t : ℕ}

/-- The `PCB` of a process stays what it is until the process removes it; the fork of its thread
writes its `parentID`. -/
theorem TableInv.kept (hi : s.TableInv) (h : s.step l = some s') (ha : s.Live a)
    (hr : ¬ (l.thread = a ∧ s.pt a = .exitRemove)) :
    s'.Live a ∧ (s'.heap a).slot = (s.heap a).slot ∧ (s'.heap a).creator = (s.heap a).creator ∧
      ((s'.heap a).parentID = (s.heap a).parentID ∨
        (s'.heap a).parentID = s.processID (s.heap a).creator) := by
  obtain ⟨hlt, hdel⟩ := ha
  cases step_table h with
  | quiet hq =>
    rw [live_of_table hq.table, slot_of_table hq.table, creator_of_table hq.table,
      parentID_of_table hq.table]
    exact ⟨⟨hlt, hdel⟩, rfl, rfl, .inl rfl⟩
  | create slot name hfree hclear he =>
    have hheap : s'.heap a = s.heap a := by rw [he]; simp [newPCB, Nat.ne_of_lt hlt]
    rw [Live, hheap]
    refine ⟨⟨?_, hdel⟩, rfl, rfl, .inl rfl⟩
    rw [he]
    exact Nat.lt_succ_of_lt hlt
  | fork b slot hpt he =>
    obtain ⟨-, -, hcr, -, -⟩ := hi.creating l.thread b slot (by rw [hpt]; rfl)
    have hnext : s'.next = s.next := by rw [he]; rfl
    rw [Live, hnext]
    by_cases hab : a = b
    · subst hab
      rw [he, hcr]
      refine ⟨⟨hlt, ?_⟩, ?_, ?_, .inr ?_⟩ <;> simp [execFork, modify, hdel, hcr]
    · have hheap : s'.heap a = s.heap a := by rw [he]; simp [execFork, modify, hab]
      rw [hheap]
      exact ⟨⟨hlt, hdel⟩, rfl, rfl, .inl rfl⟩
  | remove hpt he =>
    have hne : a ≠ l.thread := by rintro rfl; exact hr ⟨rfl, hpt⟩
    rw [(hi.remove_eq hpt).2] at he
    have hheap : s'.heap a = s.heap a := by rw [he]; simp [modify, hne]
    rw [Live, hheap]
    refine ⟨⟨?_, hdel⟩, rfl, rfl, .inl rfl⟩
    rw [he]
    exact hlt

/-- The `processID` of a thread in use does not change. -/
theorem TableInv.processID_kept (hi : s.TableInv) (h : s.step l = some s')
    (ha : (s.pt t).active = true) : s'.processID t = s.processID t := by
  cases step_table h with
  | quiet hq => rw [processID_of_table hq.table]
  | create slot name _ _ he => rw [he]; rfl
  | fork a slot hpt he =>
    obtain ⟨-, -, -, hun, -⟩ := hi.creating l.thread a slot (by rw [hpt]; rfl)
    have hta : t ≠ a := by
      rintro rfl
      rw [hun] at ha
      cases ha
    rw [he]
    exact Function.update_of_ne hta _ _
  | remove hpt he => rw [(hi.remove_eq hpt).2] at he; rw [he]; rfl

end Kept

end Procs

end Nachos
