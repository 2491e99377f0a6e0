import Nachos.Lib.Run
import Nachos.Userprog.PTable

/-!
# The process table over whole runs

Most steps only move a thread and its semaphores. What they leave alone is the `Table`: the bitmap,
the pointers and, of every `PCB`, all fields but the exit code and the wait count. `step_table`
says what a step does to it: create a `PCB`, fork its thread, remove it, or nothing.

1. `TableInv` holds in every reachable state: every process that runs owns a marked slot whose
   pointer leads to its own `PCB`.
2. The parent link of a `PCB` can go stale, because a process can be removed before its children.
   `ParentInv` holds as long as this does not happen (`parentInv_reach`).
-/

namespace Nachos

/-- A thread that was forked and has not finished. -/
def Pt.active : Pt → Bool
  | .unborn | .dead => false
  | _ => true

/-- The `PCB` a thread in `PCB::Exec` has not forked yet. -/
def Pt.creating : Pt → Option (ℕ × ℕ)
  | .execMultexP a slot | .execFork a slot => some (a, slot)
  | _ => none

/-- A thread in `ExitUpdate`. -/
def Pt.exiting : Pt → Bool
  | .exitDecP _ | .exitDec _ | .exitRelease | .exitP | .exitWait _ | .exitRemove => true
  | _ => false

namespace Procs

/-- A `PCB` without its exit code and wait count. -/
def info (s : Procs) (a : ℕ) : PCB := { s.heap a with exitcode := 0, numwait := 0 }

/-- What most steps leave alone. -/
structure Table where
  bm : BitMap
  pcb : ℕ → Option ℕ
  next : ℕ
  processID : ℕ → ℕ
  info : ℕ → PCB

def table (s : Procs) : Table where
  bm := s.bm
  pcb := s.pcb
  next := s.next
  processID := s.processID
  info := s.info

/-! ## Elementary steps and the table -/

section Elementary

variable (s : Procs) (t : ℕ) (p : Pt) (e : Event) (d : Down) (r : SemRef) (a : ℕ)

@[simp] theorem goto_table : (s.goto t p).table = s.table := rfl
@[simp] theorem emit_table : (s.emit e).table = s.table := rfl
@[simp] theorem stop_table : (s.stop d).table = s.table := rfl

@[simp] theorem V_table : (s.V r).table = s.table := by
  unfold V; split_ifs <;> rfl

theorem modify_table {f : PCB → PCB}
    (h : ∀ b, { f b with exitcode := 0, numwait := 0 } =
      ({ b with exitcode := 0, numwait := 0 } : PCB)) :
    (s.modify a f).table = s.table := by
  have hinfo : (s.modify a f).info = s.info := by
    funext b
    unfold info modify
    by_cases hb : b = a
    · subst hb; simp [h]
    · simp [hb]
  show Table.mk _ _ _ _ _ = Table.mk _ _ _ _ _
  rw [hinfo]
  rfl

@[simp] theorem V_pt : (s.V r).pt = s.pt := by unfold V; split_ifs <;> rfl
@[simp] theorem emit_pt : (s.emit e).pt = s.pt := rfl
@[simp] theorem stop_pt : (s.stop d).pt = s.pt := rfl
@[simp] theorem modify_pt (f : PCB → PCB) : (s.modify a f).pt = s.pt := rfl
@[simp] theorem goto_pt : (s.goto t p).pt = Function.update s.pt t p := rfl

end Elementary

/-- A thread goes from `p` to `p'`: it stays active, does not start to create a process, and enters
`ExitUpdate` only with a `processID` other than 0. -/
structure Move (processID : ℕ) (p p' : Pt) : Prop where
  active : p'.active = true
  creating : ∀ x, p'.creating = some x → p.creating = some x
  exiting : p'.exiting = true → p.exiting = true ∨ processID ≠ 0

theorem Move.plain {n : ℕ} {p p' : Pt} (ha : p'.active = true) (hc : p'.creating = none)
    (he : p'.exiting = false) : Move n p p' :=
  ⟨ha, by simp [hc], by simp [he]⟩

theorem Move.exit {n : ℕ} {p p' : Pt} (ha : p'.active = true) (hc : p'.creating = none)
    (he : p.exiting = true ∨ n ≠ 0) : Move n p p' :=
  ⟨ha, by simp [hc], fun _ => he⟩

theorem Move.refl {n : ℕ} {p : Pt} (ha : p.active = true) : Move n p p :=
  ⟨ha, fun _ hx => hx, Or.inl⟩

theorem Move.of_waits {n : ℕ} {p next : Pt} {r : SemRef} (hw : p.waits = some (r, next)) :
    p.active = true ∧ Move n p next := by
  cases p <;> simp [Pt.waits] at hw <;> obtain ⟨_, rfl⟩ := hw <;> refine ⟨rfl, rfl, ?_, ?_⟩ <;>
    simp [Pt.creating, Pt.exiting]

/-- The step of thread `t` leaves the table and the other threads alone. -/
structure Quiet (s : Procs) (t : ℕ) (s' : Procs) : Prop where
  table : s'.table = s.table
  others : ∀ u, u ≠ t → s'.pt u = s.pt u
  move : Move (s.processID t) (s.pt t) (s'.pt t)

/-- What a step of thread `t` does to the table. -/
inductive TableStep (s : Procs) (t : ℕ) (s' : Procs) : Prop
  | quiet (h : s.Quiet t s')
  | create (slot : ℕ) (name : Name) (hfree : slot < s.bm.numBits) (hclear : s.bm.test slot = false)
      (h : s' = (({ s with bm := s.bm.mark slot }.newPCB t slot name).emit
        (.created t s.next slot)).goto t (.execMultexP s.next slot))
  | fork (a : ℕ) (slot : ℕ) (hpt : s.pt t = .execFork a slot) (h : s' = s.execFork t a slot)
  | remove (hpt : s.pt t = .exitRemove) (h : s' = s.remove t)

section Steps

variable {s s' : Procs} {t : ℕ}

theorem quiet_stop (hact : (s.pt t).active = true) {d : Down} (htab : s'.table = s.table)
    (hpt : s'.pt = s.pt) : s.Quiet t (s'.stop d) := by
  refine ⟨htab, fun u _ => ?_, ?_⟩
  · rw [stop_pt, hpt]
  · rw [stop_pt, hpt]; exact .refl hact

theorem quiet_goto {p : Pt} (htab : s'.table = s.table) (hpt : s'.pt = s.pt)
    (hm : Move (s.processID t) (s.pt t) p) : s.Quiet t (s'.goto t p) := by
  refine ⟨htab, fun u hu => ?_, ?_⟩
  · rw [goto_pt, Function.update_of_ne hu, hpt]
  · rw [goto_pt, Function.update_self]; exact hm

theorem quiet_P {r : SemRef} {next : Pt} (hw : (s.pt t).waits = some (r, next))
    (h : s.P t r next = some s') : s.Quiet t s' := by
  obtain ⟨hact, hm⟩ := @Move.of_waits (s.processID t) _ _ _ hw
  unfold P at h
  split_ifs at h with h1 h2
  · rw [Option.some.injEq] at h
    subst h
    exact quiet_stop hact rfl rfl
  · rw [Option.some.injEq] at h
    subst h
    split_ifs
    · exact quiet_goto rfl rfl hm
    · exact ⟨rfl, fun _ _ => rfl, .refl hact⟩

theorem quiet_joinUpdate (hp : s.pt t = .user) (id : ℤ) : s.Quiet t (s.joinUpdate t id) := by
  have hact : (s.pt t).active = true := by rw [hp]; rfl
  unfold joinUpdate joinReturn
  dsimp only
  split_ifs
  · exact quiet_goto rfl rfl (.plain rfl rfl rfl)
  · split
    · exact quiet_stop hact rfl rfl
    · split_ifs
      · exact quiet_goto rfl rfl (.plain rfl rfl rfl)
      · split
        · exact quiet_stop hact rfl rfl
        · exact quiet_goto rfl rfl (.plain rfl rfl rfl)

theorem quiet_exitUpdate (hp : s.pt t = .user) (ec : ℤ) : s.Quiet t (s.exitUpdate t ec) := by
  have hact : (s.pt t).active = true := by rw [hp]; rfl
  unfold exitUpdate exitReturn
  dsimp only
  split_ifs with hid
  · exact quiet_stop hact rfl rfl
  · exact quiet_goto rfl rfl (.plain rfl rfl rfl)
  · split
    · exact quiet_stop hact rfl rfl
    · rename_i a _
      have htab : ((s.emit (.exitCalled t ec)).modify a fun b => { b with exitcode := ec }).table =
          s.table := modify_table _ _ fun _ => rfl
      split
      · exact quiet_stop hact htab rfl
      · exact quiet_goto htab rfl (.exit rfl rfl (Or.inr hid))

theorem quiet_joinRead (hp : (s.pt t).active = true) (id : ℤ) : s.Quiet t (s.joinRead t id) := by
  unfold joinRead
  split
  · exact quiet_stop hp rfl rfl
  · exact quiet_goto (by simp) (by simp) (.plain rfl rfl rfl)

theorem tableStep_execBody {name : Option Name} (hp : s.pt t = .execBody name)
    (threadName : Name) : s.TableStep t (s.execBody t name threadName) := by
  have hact : (s.pt t).active = true := by rw [hp]; rfl
  have hret : ∀ m pid, s.Quiet t (((s.emit (.printed m)).V .bmsem).execReturn t pid) :=
    fun m pid => quiet_goto (by simp) (by simp) (.plain rfl rfl rfl)
  unfold execBody
  dsimp only
  split
  · exact .quiet (hret _ _)
  split
  · exact .quiet (quiet_stop hact rfl rfl)
  split_ifs with _ hneg
  · exact .quiet (hret _ _)
  · exact .quiet (hret _ _)
  · rcases s.bm.find_cases with ⟨_, hf⟩ | ⟨slot, hlt, hclear, hf⟩
    · rw [hf] at hneg; exact absurd (by simp) hneg
    · simp only [hf, Int.toNat_natCast]
      exact .create slot _ hlt hclear rfl

/-- The blocks that go through a semaphore of a `PCB` and touch its wait count at most. -/
theorem quiet_V_goto {p : Pt} {r : SemRef} (htab : s'.table = s.table) (hpt : s'.pt = s.pt)
    (hm : Move (s.processID t) (s.pt t) p) : s.Quiet t ((s'.V r).goto t p) :=
  quiet_goto (by rw [V_table, htab]) (by rw [V_pt, hpt]) hm

theorem tableStep_block {threadName : Name} (h : s.block t threadName = some s') :
    s.TableStep t s' := by
  unfold block at h
  split at h
  all_goals first | (rw [Option.some.injEq] at h; subst h) | cases h
  case _ hp => exact tableStep_execBody hp _
  case _ hp => exact .fork _ _ hp rfl
  case _ hp => exact .quiet (quiet_V_goto rfl rfl (.plain rfl rfl rfl))
  case _ hp => exact .quiet (quiet_goto (by simp) (by simp) (.plain rfl rfl rfl))
  case _ hp =>
    exact .quiet (quiet_V_goto (modify_table _ _ fun _ => rfl) rfl (.plain rfl rfl rfl))
  case _ hp =>
    split
    · exact .quiet (quiet_stop (by rw [hp]; rfl) rfl rfl)
    · exact .quiet (quiet_goto rfl rfl (.plain rfl rfl rfl))
  case _ hp => exact .quiet (quiet_joinRead (by rw [hp]; rfl) _)
  case _ hp => exact .quiet (quiet_goto rfl rfl (.plain rfl rfl rfl))
  case _ hp =>
    exact .quiet (quiet_V_goto (modify_table _ _ fun _ => rfl) rfl
      (.exit rfl rfl (Or.inl (by rw [hp]; rfl))))
  case _ hp =>
    split
    · exact .quiet (quiet_stop (by rw [hp]; rfl) rfl rfl)
    · exact .quiet (quiet_V_goto rfl rfl (.exit rfl rfl (Or.inl (by rw [hp]; rfl))))
  case _ hp =>
    split
    · exact .quiet (quiet_stop (by rw [hp]; rfl) rfl rfl)
    · exact .quiet (quiet_goto rfl rfl (.exit rfl rfl (Or.inl (by rw [hp]; rfl))))
  case _ hp => exact .remove hp rfl

end Steps

/-- Every step is quiet, or creates, forks or removes a process. -/
theorem step_table {s s' : Procs} {l : Label} (h : s.step l = some s') :
    s.TableStep l.thread s' := by
  unfold step at h
  split_ifs at h
  cases l with
  | exec t name =>
    simp only at h
    split_ifs at h with hp
    rw [Option.some.injEq] at h
    subst h
    exact .quiet (quiet_goto rfl rfl (.plain rfl rfl rfl))
  | join t id =>
    simp only at h
    split_ifs at h with hp
    rw [Option.some.injEq] at h
    subst h
    exact .quiet (quiet_joinUpdate hp id)
  | exit t ec =>
    simp only at h
    split_ifs at h with hp
    rw [Option.some.injEq] at h
    subst h
    exact .quiet (quiet_exitUpdate hp ec)
  | run t threadName =>
    simp only at h
    split at h
    · rename_i hw
      exact .quiet (quiet_P hw h)
    · exact tableStep_block h

/-- Only an active thread takes a step. -/
theorem step_active {s s' : Procs} {l : Label} (h : s.step l = some s') :
    (s.pt l.thread).active = true := by
  unfold step at h
  split_ifs at h
  cases l with
  | run t threadName =>
    show (s.pt t).active = true
    simp only at h
    split at h
    · rename_i hw
      exact (@Move.of_waits 0 _ _ _ hw).1
    · unfold block at h
      split at h
      all_goals first | (rename_i hp; rw [hp]; rfl) | cases h
  | exec t _ | join t _ | exit t _ =>
    show (s.pt t).active = true
    simp only at h
    split_ifs at h with hp
    rw [hp]
    rfl

/-! ## Who owns which slot -/

/-- A `PCB` in use. -/
def Live (s : Procs) (a : ℕ) : Prop := a < s.next ∧ (s.heap a).deleted = false

/-- Every process that runs owns a marked slot whose pointer leads to its own `PCB`. -/
structure TableInv (s : Procs) : Prop where
  size : s.bm.numBits = maxProcess
  root : s.Live 0 ∧ (s.heap 0).slot = 0 ∧ (s.pt 0).exiting = false
  pointer : ∀ i a, s.pcb i = some a → a < s.next ∧ (s.heap a).slot = i
  own : ∀ a, s.Live a → (s.heap a).slot < maxProcess ∧ s.pcb (s.heap a).slot = some a ∧
    s.bm.test (s.heap a).slot = true
  marked : ∀ i, i < maxProcess → s.bm.test i = true → ∃ a, s.pcb i = some a ∧ s.Live a
  running : ∀ t, (s.pt t).active = true → s.Live t ∧ s.processID t = (s.heap t).slot ∧
    (t ≠ 0 → (s.heap t).thread = some t)
  creating : ∀ t a slot, (s.pt t).creating = some (a, slot) → s.Live a ∧ (s.heap a).slot = slot ∧
    (s.heap a).creator = t ∧ s.pt a = .unborn ∧ a ≠ 0
  unborn : ∀ a, s.next ≤ a → s.pt a = .unborn

section SameTable

variable {s s' : Procs} (h : s'.table = s.table)

include h

theorem bm_of_table : s'.bm = s.bm := congrArg Table.bm h

theorem pcb_of_table : s'.pcb = s.pcb := congrArg Table.pcb h

theorem next_of_table : s'.next = s.next := congrArg Table.next h

theorem processID_of_table : s'.processID = s.processID := congrArg Table.processID h

theorem field_of_table {β : Type} (f : PCB → β)
    (hf : ∀ b, f { b with exitcode := 0, numwait := 0 } = f b) (a : ℕ) :
    f (s'.heap a) = f (s.heap a) := by
  have hinfo : s'.info a = s.info a := congrFun (congrArg Table.info h) a
  rw [← hf (s'.heap a), ← hf (s.heap a)]
  exact congrArg f hinfo

theorem deleted_of_table (a : ℕ) : (s'.heap a).deleted = (s.heap a).deleted :=
  field_of_table h PCB.deleted (fun _ => rfl) a

theorem slot_of_table (a : ℕ) : (s'.heap a).slot = (s.heap a).slot :=
  field_of_table h PCB.slot (fun _ => rfl) a

theorem creator_of_table (a : ℕ) : (s'.heap a).creator = (s.heap a).creator :=
  field_of_table h PCB.creator (fun _ => rfl) a

theorem parentID_of_table (a : ℕ) : (s'.heap a).parentID = (s.heap a).parentID :=
  field_of_table h PCB.parentID (fun _ => rfl) a

theorem thread_of_table (a : ℕ) : (s'.heap a).thread = (s.heap a).thread :=
  field_of_table h PCB.thread (fun _ => rfl) a

theorem live_of_table (a : ℕ) : s'.Live a ↔ s.Live a := by
  unfold Live; rw [next_of_table h, deleted_of_table h]

end SameTable

namespace TableInv

variable {s s' : Procs} {t : ℕ} (hi : s.TableInv)

include hi

/-- The slot of a process leads to its own `PCB`. -/
theorem pcbAt_own {a : ℕ} (ha : s.Live a) : s.pcbAt (s.heap a).slot = some a := by
  obtain ⟨hlt, hp, _⟩ := hi.own a ha
  unfold pcbAt
  rw [if_pos ⟨Int.natCast_nonneg _, by exact_mod_cast hlt⟩, Int.toNat_natCast, hp]

/-- Slot `0` is the one of the first process. -/
theorem pcbAt_zero : s.pcbAt 0 = some 0 := by
  have h := hi.pcbAt_own hi.root.1
  rwa [hi.root.2.1] at h

theorem pcbAt_self (ht : (s.pt t).active = true) : s.pcbAt (s.processID t) = some t := by
  obtain ⟨hl, hid, _⟩ := hi.running t ht
  rw [hid, hi.pcbAt_own hl]

/-- Two processes in use have different slots. -/
theorem slot_inj {a b : ℕ} (ha : s.Live a) (hb : s.Live b)
    (h : (s.heap a).slot = (s.heap b).slot) : a = b := by
  have h1 := (hi.own a ha).2.1
  rw [h, (hi.own b hb).2.1, Option.some.injEq] at h1
  exact h1.symm

theorem quiet (hact : (s.pt t).active = true) (hq : s.Quiet t s') : s'.TableInv := by
  have hl := live_of_table hq.table
  have hslot := slot_of_table hq.table
  have hpt : ∀ u, s'.pt u = .unborn ↔ s.pt u = .unborn := by
    intro u
    by_cases hu : u = t
    · subst hu
      constructor <;> intro h0
      · have := hq.move.active; rw [h0] at this; cases this
      · rw [h0] at hact; cases hact
    · rw [hq.others u hu]
  refine ⟨?_, ?_, ?_, ?_, ?_, ?_, ?_, ?_⟩
  · rw [bm_of_table hq.table, hi.size]
  · refine ⟨(hl 0).mpr hi.root.1, (hslot 0).trans hi.root.2.1, ?_⟩
    by_cases h0 : t = 0
    · subst h0
      rcases he : (s'.pt 0).exiting
      · rfl
      · obtain ⟨_, hid, _⟩ := hi.running 0 hact
        rcases hq.move.exiting he with h | h
        · rw [hi.root.2.2] at h; exact h.symm
        · rw [hid, hi.root.2.1] at h; exact absurd rfl h
    · rw [hq.others 0 (Ne.symm h0)]; exact hi.root.2.2
  · intro i a ha
    rw [pcb_of_table hq.table] at ha
    rw [next_of_table hq.table, hslot]
    exact hi.pointer i a ha
  · intro a ha
    rw [hslot, pcb_of_table hq.table, bm_of_table hq.table]
    exact hi.own a ((hl a).mp ha)
  · intro i hlt hm
    rw [bm_of_table hq.table] at hm
    obtain ⟨a, ha, hla⟩ := hi.marked i hlt hm
    exact ⟨a, by rw [pcb_of_table hq.table, ha], (hl a).mpr hla⟩
  · intro u hu
    rw [hl, processID_of_table hq.table, hslot, thread_of_table hq.table]
    by_cases hut : u = t
    · subst hut; exact hi.running u hact
    · rw [hq.others u hut] at hu; exact hi.running u hu
  · intro u a slot hu
    rw [hl, hslot, creator_of_table hq.table, hpt]
    by_cases hut : u = t
    · subst hut; exact hi.creating u a slot (hq.move.creating _ hu)
    · rw [hq.others u hut] at hu; exact hi.creating u a slot hu
  · intro a ha
    rw [hpt]
    exact hi.unborn a (by rwa [next_of_table hq.table] at ha)

theorem create {slot : ℕ} {name : Name} (hact : (s.pt t).active = true)
    (hfree : slot < s.bm.numBits) (hclear : s.bm.test slot = false)
    (h : s' = (({ s with bm := s.bm.mark slot }.newPCB t slot name).emit
      (.created t s.next slot)).goto t (.execMultexP s.next slot)) : s'.TableInv := by
  obtain ⟨⟨htn, _⟩, _⟩ := hi.running t hact
  have htn' : s.next ≠ t := by omega
  have hheap : ∀ a, a < s.next → s'.heap a = s.heap a := fun a ha => by
    rw [h]; exact Function.update_of_ne (Nat.ne_of_lt ha) _ _
  have hnew : (s'.heap s.next).slot = slot ∧ (s'.heap s.next).deleted = false ∧
      (s'.heap s.next).creator = t := by
    rw [h]; simp [goto, emit, newPCB]
  have hnext : s'.next = s.next + 1 := by rw [h]; rfl
  have hpcb : s'.pcb = Function.update s.pcb slot (some s.next) := by rw [h]; rfl
  have htest : ∀ i, s'.bm.test i = (decide (i = slot) || s.bm.test i) := fun i => by
    rw [h]; exact BitMap.test_mark _ _ _
  have hpt : s'.pt = Function.update s.pt t (.execMultexP s.next slot) := by rw [h]; rfl
  have hid : s'.processID = s.processID := by rw [h]; rfl
  have hlive : ∀ a, s.Live a → s'.Live a := fun a ha =>
    ⟨by rw [hnext]; have := ha.1; omega, by rw [hheap a ha.1]; exact ha.2⟩
  have hlive' : ∀ a, s'.Live a → s.Live a ∨ a = s.next := by
    rintro a ⟨h1, h2⟩
    rw [hnext] at h1
    by_cases ha : a = s.next
    · exact Or.inr ha
    · have hlt : a < s.next := by omega
      rw [hheap a hlt] at h2
      exact Or.inl ⟨hlt, h2⟩
  -- the slot was clear, so it is not the slot of a process in use
  have hne : ∀ a, s.Live a → (s.heap a).slot ≠ slot := fun a ha e => by
    have := (hi.own a ha).2.2
    rw [e, hclear] at this
    cases this
  have h0 : s'.heap 0 = s.heap 0 := hheap 0 hi.root.1.1
  refine ⟨?_, ?_, ?_, ?_, ?_, ?_, ?_, ?_⟩
  · rw [h]; exact hi.size
  · refine ⟨hlive 0 hi.root.1, by rw [h0]; exact hi.root.2.1, ?_⟩
    rw [hpt]
    by_cases ht0 : t = 0
    · rw [ht0, Function.update_self]; rfl
    · rw [Function.update_of_ne (Ne.symm ht0)]; exact hi.root.2.2
  · intro i a ha
    rw [hpcb] at ha
    by_cases his : i = slot
    · rw [his, Function.update_self, Option.some.injEq] at ha
      rw [← ha, hnext, his]
      exact ⟨by omega, hnew.1⟩
    · rw [Function.update_of_ne his] at ha
      obtain ⟨h1, h2⟩ := hi.pointer i a ha
      rw [hheap a h1, hnext]
      exact ⟨by omega, h2⟩
  · intro a ha
    rcases hlive' a ha with hl | rfl
    · obtain ⟨h1, h2, h3⟩ := hi.own a hl
      rw [hheap a hl.1, hpcb, htest, h3, Bool.or_true, Function.update_of_ne (hne a hl)]
      exact ⟨h1, h2, rfl⟩
    · rw [hnew.1, hpcb, htest, Function.update_self]
      exact ⟨hi.size ▸ hfree, rfl, by simp⟩
  · intro i hlt hm
    rw [hpcb]
    by_cases his : i = slot
    · refine ⟨s.next, by rw [his, Function.update_self], by rw [hnext]; omega, hnew.2.1⟩
    · rw [htest, decide_eq_false his, Bool.false_or] at hm
      obtain ⟨a, ha, hl⟩ := hi.marked i hlt hm
      exact ⟨a, by rw [Function.update_of_ne his, ha], hlive a hl⟩
  · intro u hu
    have hact' : (s.pt u).active = true := by
      by_cases hut : u = t
      · rw [hut]; exact hact
      · rwa [hpt, Function.update_of_ne hut] at hu
    obtain ⟨h1, h2, h3⟩ := hi.running u hact'
    rw [hid, hheap u h1.1]
    exact ⟨hlive u h1, h2, h3⟩
  · intro u a sl hu
    by_cases hut : u = t
    · rw [hpt, hut, Function.update_self, Pt.creating, Option.some.injEq, Prod.mk.injEq] at hu
      obtain ⟨rfl, rfl⟩ := hu
      have hroot := hi.root.1.1
      refine ⟨⟨by rw [hnext]; omega, hnew.2.1⟩, hnew.1, by rw [hnew.2.2, hut], ?_, by omega⟩
      rw [hpt, Function.update_of_ne htn']
      exact hi.unborn s.next (le_refl _)
    · rw [hpt, Function.update_of_ne hut] at hu
      obtain ⟨h1, h2, h3, h4, h5⟩ := hi.creating u a sl hu
      have hat : a ≠ t := by rintro rfl; rw [h4] at hact; cases hact
      rw [hheap a h1.1, hpt, Function.update_of_ne hat]
      exact ⟨hlive a h1, h2, h3, h4, h5⟩
  · intro a ha
    rw [hnext] at ha
    rw [hpt, Function.update_of_ne (by omega)]
    exact hi.unborn a (by omega)

theorem fork {a : ℕ} {slot : ℕ} (hp : s.pt t = .execFork a slot)
    (h : s' = s.execFork t a slot) : s'.TableInv := by
  obtain ⟨hla, hslot, hcr, hun, ha0⟩ := hi.creating t a slot (by rw [hp]; rfl)
  have hat : a ≠ t := by rintro rfl; rw [hp] at hun; cases hun
  have hheap : ∀ b, (s'.heap b).slot = (s.heap b).slot ∧ (s'.heap b).deleted = (s.heap b).deleted ∧
      (s'.heap b).creator = (s.heap b).creator ∧
      (s'.heap b).thread = if b = a then some a else (s.heap b).thread := by
    intro b
    rw [h]
    by_cases hb : b = a
    · subst hb; simp [execFork, goto, modify]
    · simp [execFork, goto, modify, hb]
  have hnext : s'.next = s.next := by rw [h]; rfl
  have hpcb : s'.pcb = s.pcb := by rw [h]; rfl
  have hbm : s'.bm = s.bm := by rw [h]; rfl
  have hpt : s'.pt = Function.update (Function.update s.pt a .user) t (.execUnlock a slot) := by
    rw [h]; rfl
  have hid : s'.processID = Function.update s.processID a slot := by rw [h]; rfl
  have hlive : ∀ b, s'.Live b ↔ s.Live b := fun b => by
    unfold Live; rw [hnext, (hheap b).2.1]
  have hpo : ∀ u, u ≠ t → u ≠ a → s'.pt u = s.pt u := fun u hut hua => by
    rw [hpt, Function.update_of_ne hut, Function.update_of_ne hua]
  have hpa : s'.pt a = .user := by rw [hpt, Function.update_of_ne hat, Function.update_self]
  have hptt : s'.pt t = .execUnlock a slot := by rw [hpt, Function.update_self]
  refine ⟨?_, ?_, ?_, ?_, ?_, ?_, ?_, ?_⟩
  · rw [hbm, hi.size]
  · refine ⟨(hlive 0).mpr hi.root.1, (hheap 0).1.trans hi.root.2.1, ?_⟩
    by_cases ht0 : 0 = t
    · rw [ht0, hptt]; rfl
    · rw [hpo 0 ht0 (Ne.symm ha0)]; exact hi.root.2.2
  · intro i b hb
    rw [hpcb] at hb
    rw [hnext, (hheap b).1]
    exact hi.pointer i b hb
  · intro b hb
    rw [(hheap b).1, hpcb, hbm]
    exact hi.own b ((hlive b).mp hb)
  · intro i hlt hm
    rw [hbm] at hm
    obtain ⟨b, hb, hl⟩ := hi.marked i hlt hm
    exact ⟨b, by rw [hpcb, hb], (hlive b).mpr hl⟩
  · intro u hu
    rw [hlive, hid, (hheap u).1, (hheap u).2.2.2]
    by_cases hua : u = a
    · rw [hua, Function.update_self]
      exact ⟨hla, hslot.symm, fun _ => if_pos rfl⟩
    · rw [Function.update_of_ne hua, if_neg hua]
      by_cases hut : u = t
      · rw [hut]; exact hi.running t (by rw [hp]; rfl)
      · rw [hpo u hut hua] at hu; exact hi.running u hu
  · intro u b sl hu
    have hut : u ≠ t := by rintro rfl; rw [hptt] at hu; cases hu
    have hua : u ≠ a := by rintro rfl; rw [hpa] at hu; cases hu
    rw [hpo u hut hua] at hu
    obtain ⟨h1, h2, h3, h4, h5⟩ := hi.creating u b sl hu
    -- `b` was created by `u`, `a` by `t`
    have hba : b ≠ a := by rintro rfl; exact hut (h3.symm.trans hcr)
    have hbt : b ≠ t := by rintro rfl; rw [hp] at h4; cases h4
    rw [hlive, (hheap b).1, (hheap b).2.2.1, hpo b hbt hba]
    exact ⟨h1, h2, h3, h4, h5⟩
  · intro b hb
    rw [hnext] at hb
    have hba : b ≠ a := by have := hla.1; omega
    have hbt : b ≠ t := by have := (hi.running t (by rw [hp]; rfl)).1.1; omega
    rw [hpo b hbt hba]
    exact hi.unborn b hb

/-- `Remove` clears the slot of the process, deletes its `PCB` and ends the thread. -/
theorem remove_eq (hp : s.pt t = .exitRemove) :
    t ≠ 0 ∧ s.remove t = (({ s with bm := s.bm.clear (s.processID t) }.emit
      (.removed t (s.sems (.joinsem t)).queue (s.sems (.exitsem t)).queue)).modify t
        fun b => { b with deleted := true }).goto t .dead := by
  have hact : (s.pt t).active = true := by rw [hp]; rfl
  obtain ⟨hl, _, hth⟩ := hi.running t hact
  have ht0 : t ≠ 0 := by
    rintro rfl
    have := hi.root.2.2
    rw [hp] at this
    cases this
  have hpc : ({ s with bm := s.bm.clear (s.processID t) } : Procs).pcbAt (s.processID t) = some t :=
    hi.pcbAt_self hact
  refine ⟨ht0, ?_⟩
  unfold remove
  simp only [hpc, hl.2, Bool.false_eq_true, if_false]
  simp [modify, emit, hth ht0]

theorem remove (hp : s.pt t = .exitRemove) (h : s' = s.remove t) : s'.TableInv := by
  have hact : (s.pt t).active = true := by rw [hp]; rfl
  obtain ⟨hl, hid, _⟩ := hi.running t hact
  obtain ⟨ht0, heq⟩ := hi.remove_eq hp
  rw [heq] at h
  have hheap : ∀ b, (s'.heap b).slot = (s.heap b).slot ∧
      (s'.heap b).deleted = (decide (b = t) || (s.heap b).deleted) ∧
      (s'.heap b).creator = (s.heap b).creator ∧ (s'.heap b).thread = (s.heap b).thread := by
    intro b
    rw [h]
    by_cases hb : b = t
    · subst hb; simp [goto, modify, emit]
    · simp [goto, modify, emit, hb]
  have hnext : s'.next = s.next := by rw [h]; rfl
  have hpcb : s'.pcb = s.pcb := by rw [h]; rfl
  have htest : ∀ i, s'.bm.test i = (decide (i ≠ (s.heap t).slot) && s.bm.test i) := fun i => by
    rw [h, ← hid]; exact BitMap.test_clear _ _ _
  have hpt : s'.pt = Function.update s.pt t .dead := by rw [h]; rfl
  have hpid : s'.processID = s.processID := by rw [h]; rfl
  have hlive : ∀ b, s'.Live b ↔ s.Live b ∧ b ≠ t := fun b => by
    unfold Live
    rw [hnext, (hheap b).2.1]
    by_cases hb : b = t <;> simp [hb]
  have hslot : ∀ b, s.Live b → b ≠ t → (s.heap b).slot ≠ (s.heap t).slot := fun b hb hbt e =>
    hbt (hi.slot_inj hb hl e)
  refine ⟨?_, ?_, ?_, ?_, ?_, ?_, ?_, ?_⟩
  · rw [h]; exact hi.size
  · refine ⟨(hlive 0).mpr ⟨hi.root.1, Ne.symm ht0⟩, (hheap 0).1.trans hi.root.2.1, ?_⟩
    rw [hpt, Function.update_of_ne (Ne.symm ht0)]
    exact hi.root.2.2
  · intro i b hb
    rw [hpcb] at hb
    rw [hnext, (hheap b).1]
    exact hi.pointer i b hb
  · intro b hb
    obtain ⟨hb, hbt⟩ := (hlive b).mp hb
    obtain ⟨h1, h2, h3⟩ := hi.own b hb
    rw [(hheap b).1, hpcb, htest, h3]
    exact ⟨h1, h2, by simp [hslot b hb hbt]⟩
  · intro i hlt hm
    rw [htest, Bool.and_eq_true, decide_eq_true_eq] at hm
    obtain ⟨b, hb, hbl⟩ := hi.marked i hlt hm.2
    refine ⟨b, by rw [hpcb, hb], (hlive b).mpr ⟨hbl, ?_⟩⟩
    rintro rfl
    exact hm.1 (hi.pointer i b hb).2.symm
  · intro u hu
    have hut : u ≠ t := by rintro rfl; rw [hpt, Function.update_self] at hu; cases hu
    rw [hpt, Function.update_of_ne hut] at hu
    obtain ⟨h1, h2, h3⟩ := hi.running u hu
    rw [hpid, (hheap u).1, (hheap u).2.2.2]
    exact ⟨(hlive u).mpr ⟨h1, hut⟩, h2, h3⟩
  · intro u b sl hu
    have hut : u ≠ t := by rintro rfl; rw [hpt, Function.update_self] at hu; cases hu
    rw [hpt, Function.update_of_ne hut] at hu
    obtain ⟨h1, h2, h3, h4, h5⟩ := hi.creating u b sl hu
    have hbt : b ≠ t := by rintro rfl; rw [hp] at h4; cases h4
    rw [(hheap b).1, (hheap b).2.2.1, hpt, Function.update_of_ne hbt]
    exact ⟨(hlive b).mpr ⟨h1, hbt⟩, h2, h3, h4, h5⟩
  · intro b hb
    rw [hnext] at hb
    have hbt : b ≠ t := by have := hl.1; omega
    rw [hpt, Function.update_of_ne hbt]
    exact hi.unborn b hb

theorem step {l : Label} (h : s.step l = some s') : s'.TableInv := by
  have hact := step_active h
  cases step_table h with
  | quiet hq => exact hi.quiet hact hq
  | create slot name hfree hclear he => exact hi.create hact hfree hclear he
  | fork a slot hp he => exact hi.fork hp he
  | remove hp he => exact hi.remove hp he

end TableInv

theorem tableInv_init {s : Procs} (h : s.Init) : s.TableInv := by
  obtain ⟨words, rfl⟩ := h
  have htest : ∀ i, i < maxProcess → (initial words).bm.test i = decide (i = 0) := fun i hi => by
    show ((BitMap.new words maxProcess).mark 0).test i = _
    rw [BitMap.test_mark, BitMap.test_new words hi, Bool.or_false]
  have hlive : (initial words).Live 0 := ⟨Nat.one_pos, rfl⟩
  have hpt : ∀ t, t ≠ 0 → (initial words).pt t = .unborn := fun t ht => if_neg ht
  have hpcb : ∀ i a, (initial words).pcb i = some a → i = 0 ∧ a = 0 := by
    intro i a ha
    unfold initial at ha
    dsimp only at ha
    split_ifs at ha with hi
    rw [Option.some.injEq] at ha
    exact ⟨hi, ha.symm⟩
  have hsize : (initial words).bm.numBits = maxProcess := by
    show ((BitMap.new words maxProcess).mark 0).numBits = _
    rw [BitMap.mark_numBits, BitMap.new_numBits]
  refine ⟨hsize, ⟨hlive, rfl, rfl⟩, ?_, ?_, ?_, ?_, ?_, ?_⟩
  · intro i a ha
    obtain ⟨rfl, rfl⟩ := hpcb i a ha
    exact ⟨hlive.1, rfl⟩
  · rintro a ⟨ha, _⟩
    have ha : a < 1 := ha
    obtain rfl : a = 0 := by omega
    refine ⟨show 0 < maxProcess by decide, rfl, ?_⟩
    show (initial words).bm.test 0 = true
    rw [htest 0 (by decide), decide_eq_true rfl]
  · intro i hi hm
    rw [htest i hi, decide_eq_true_eq] at hm
    subst hm
    exact ⟨0, rfl, hlive⟩
  · intro t ht
    have ht0 : t = 0 := by
      by_contra h0
      rw [hpt t h0] at ht
      cases ht
    subst ht0
    exact ⟨hlive, rfl, fun h => absurd rfl h⟩
  · intro t a slot ht
    by_cases h0 : t = 0
    · subst h0; cases ht
    · rw [hpt t h0] at ht; cases ht
  · intro a ha
    have ha : 1 ≤ a := ha
    exact hpt a (by omega)

theorem tableInv_reach {s : Procs} (h : Run.Reach step Init s) : s.TableInv :=
  h.inv TableInv (fun _ => tableInv_init) fun _ _ _ hi => hi.step

/-! ## Parents -/

/-- The parent link of every process in use leads to its creator, which is in use. -/
def ParentInv (s : Procs) : Prop :=
  ∀ a, s.Live a → a ≠ 0 → s.Live (s.heap a).creator ∧
    (s.heap a).parentID = (s.heap (s.heap a).creator).slot

/-- A process is only removed when none of the processes it created is in use. -/
def ChildrenGone (s : Procs) : Label → Prop
  | .run t _ => s.pt t = .exitRemove → ∀ a, s.Live a → (s.heap a).creator ≠ t
  | _ => True

theorem ParentInv.quiet {s s' : Procs} {t : ℕ} (hp : s.ParentInv) (hq : s.Quiet t s') :
    s'.ParentInv := by
  intro a ha ha0
  rw [live_of_table hq.table] at ha
  rw [creator_of_table hq.table, live_of_table hq.table, parentID_of_table hq.table,
    slot_of_table hq.table]
  exact hp a ha ha0

theorem ParentInv.create {s s' : Procs} {t slot : ℕ} {name : Name} (hi : s.TableInv)
    (hp : s.ParentInv) (hact : (s.pt t).active = true)
    (h : s' = (({ s with bm := s.bm.mark slot }.newPCB t slot name).emit
      (.created t s.next slot)).goto t (.execMultexP s.next slot)) : s'.ParentInv := by
  obtain ⟨hl, hid, _⟩ := hi.running t hact
  have hheap : ∀ a, a < s.next → s'.heap a = s.heap a := fun a ha => by
    rw [h]; exact Function.update_of_ne (Nat.ne_of_lt ha) _ _
  have hnew : (s'.heap s.next).parentID = s.processID t ∧ (s'.heap s.next).creator = t := by
    rw [h]; simp [goto, emit, newPCB]
  have hnext : s'.next = s.next + 1 := by rw [h]; rfl
  have hlive : ∀ a, s.Live a → s'.Live a := fun a ha =>
    ⟨by rw [hnext]; have := ha.1; omega, by rw [hheap a ha.1]; exact ha.2⟩
  rintro a ⟨h1, h2⟩ ha0
  rw [hnext] at h1
  by_cases ha : a = s.next
  · rw [ha, hnew.2, hnew.1, hheap t hl.1, hid]
    exact ⟨hlive t hl, rfl⟩
  · have hlt : a < s.next := by omega
    rw [hheap a hlt] at h2 ⊢
    obtain ⟨h3, h4⟩ := hp a ⟨hlt, h2⟩ ha0
    rw [hheap _ h3.1]
    exact ⟨hlive _ h3, h4⟩

theorem ParentInv.fork {s s' : Procs} {t a slot : ℕ} (hi : s.TableInv) (hp : s.ParentInv)
    (hpt : s.pt t = .execFork a slot) (h : s' = s.execFork t a slot) : s'.ParentInv := by
  obtain ⟨_, _, hcr, _, _⟩ := hi.creating t a slot (by rw [hpt]; rfl)
  obtain ⟨hlt, hid, _⟩ := hi.running t (by rw [hpt]; rfl)
  have hheap : ∀ b, (s'.heap b).slot = (s.heap b).slot ∧ (s'.heap b).deleted = (s.heap b).deleted ∧
      (s'.heap b).creator = (s.heap b).creator ∧
      (s'.heap b).parentID = if b = a then (s.processID t : ℤ) else (s.heap b).parentID := by
    intro b
    rw [h]
    by_cases hb : b = a
    · subst hb; simp [execFork, goto, modify]
    · simp [execFork, goto, modify, hb]
  have hlive : ∀ b, s'.Live b ↔ s.Live b := fun b => by
    unfold Live; rw [(hheap b).2.1, show s'.next = s.next by rw [h]; rfl]
  intro b hb hb0
  rw [hlive] at hb
  rw [hlive, (hheap b).2.2.1, (hheap b).2.2.2, (hheap _).1]
  by_cases hba : b = a
  · rw [if_pos hba, hba, hcr, hid]
    exact ⟨hlt, rfl⟩
  · rw [if_neg hba]; exact hp b hb hb0

theorem ParentInv.remove {s s' : Procs} {t : ℕ} (hi : s.TableInv) (hp : s.ParentInv)
    (hpt : s.pt t = .exitRemove) (hgone : ∀ a, s.Live a → (s.heap a).creator ≠ t)
    (h : s' = s.remove t) : s'.ParentInv := by
  rw [(hi.remove_eq hpt).2] at h
  have hheap : ∀ b, (s'.heap b).slot = (s.heap b).slot ∧
      (s'.heap b).deleted = (decide (b = t) || (s.heap b).deleted) ∧
      (s'.heap b).creator = (s.heap b).creator ∧ (s'.heap b).parentID = (s.heap b).parentID := by
    intro b
    rw [h]
    by_cases hb : b = t
    · subst hb; simp [goto, modify, emit]
    · simp [goto, modify, emit, hb]
  have hlive : ∀ b, s'.Live b ↔ s.Live b ∧ b ≠ t := fun b => by
    unfold Live
    rw [(hheap b).2.1, show s'.next = s.next by rw [h]; rfl]
    by_cases hb : b = t <;> simp [hb]
  intro b hb hb0
  obtain ⟨hb, _⟩ := (hlive b).mp hb
  rw [hlive, (hheap b).2.2.1, (hheap b).2.2.2, (hheap _).1]
  obtain ⟨h1, h2⟩ := hp b hb hb0
  exact ⟨⟨h1, hgone b hb⟩, h2⟩

theorem ParentInv.step {s s' : Procs} {l : Label} (hi : s.TableInv) (hp : s.ParentInv)
    (hok : s.ChildrenGone l) (h : s.step l = some s') : s'.ParentInv := by
  have hact := step_active h
  cases step_table h with
  | quiet hq => exact hp.quiet hq
  | create slot name _ _ he => exact .create hi hp hact he
  | fork a slot hpt he => exact .fork hi hp hpt he
  | remove hpt he =>
    have hl : l = .run l.thread (match l with | .run _ nm => nm | _ => []) := by
      cases l with
      | run t nm => rfl
      | exec t _ | join t _ | exit t _ =>
        unfold Procs.step at h
        have hpt : s.pt t = .exitRemove := hpt
        simp [hpt] at h
    rw [hl] at hok
    exact .remove hi hp hpt (hok hpt) he

/-- **Liveness of the process table.** As long as no process is removed before the processes it
created, a bit is set exactly when its pointer leads to a `PCB` in use, and the parent link of
every process in use other than the root leads to the `PCB` of its creator. The first part needs no
condition. -/
theorem process_table_liveness {s : Procs} (h : Run.ReachBy step ChildrenGone Init s) :
    (∀ i, i < maxProcess →
      (s.bm.test i = true ↔ ∃ a, s.pcb i = some a ∧ (s.heap a).deleted = false)) ∧
    ∀ i a, i ≠ 0 → s.pcb i = some a → (s.heap a).deleted = false →
      ∃ j : ℕ, (s.heap a).parentID = j ∧ j < maxProcess ∧ s.bm.test j = true ∧
        s.pcb j = some (s.heap a).creator ∧ (s.heap (s.heap a).creator).deleted = false := by
  obtain ⟨hi, hp⟩ := h.inv (fun s => s.TableInv ∧ s.ParentInv)
    (fun s h0 => ⟨tableInv_init h0, fun a ha ha0 => by
      obtain ⟨words, rfl⟩ := h0
      have ha : a < 1 := ha.1
      omega⟩)
    fun s l s' hi hok hs => ⟨hi.1.step hs, hi.2.step hi.1 hok hs⟩
  refine ⟨fun i hlt => ⟨fun hm => ?_, ?_⟩, fun i a hi0 ha hd => ?_⟩
  · obtain ⟨a, ha, hl⟩ := hi.marked i hlt hm
    exact ⟨a, ha, hl.2⟩
  · rintro ⟨a, ha, hd⟩
    obtain ⟨hlt, hslot⟩ := hi.pointer i a ha
    rw [← hslot]
    exact (hi.own a ⟨hlt, hd⟩).2.2
  · obtain ⟨hlt, hslot⟩ := hi.pointer i a ha
    have ha0 : a ≠ 0 := by
      rintro rfl
      exact hi0 (hslot.symm.trans hi.root.2.1)
    obtain ⟨hl, hpar⟩ := hp a ⟨hlt, hd⟩ ha0
    obtain ⟨h1, h2, h3⟩ := hi.own _ hl
    exact ⟨_, hpar, h1, h3, h2, hl.2⟩

/-- Thread `t` goes on `n` times. -/
def runs (t n : ℕ) : List Label := List.replicate n (.run t [])

/-- Process `t` executes a program. -/
def execRun (t : ℕ) (name : Byte) : List Label := .exec t (some [name]) :: runs t 6

/-- The root has created process 1. -/
theorem process_table_liveness_child :
    ∃ s, Run.ReachBy step ChildrenGone Init s ∧ s.pcb 1 = some 1 ∧ (s.heap 1).deleted = false ∧
      ∃ j : ℕ, (s.heap 1).parentID = j ∧ s.bm.test j = true ∧
        s.pcb j = some (s.heap 1).creator := by
  have h : (Run.exec step (initial fun _ => 0) (.exec 0 (some [65]) :: runs 0 2)).any fun s =>
      s.pcb 1 = some 1 ∧ (s.heap 1).deleted = false := by
    decide +kernel
  obtain ⟨s, hs, hp⟩ := (Option.any_eq_true _ _).mp h
  obtain ⟨h1, hd⟩ := of_decide_eq_true hp
  have hadm : Run.Admits step ChildrenGone (initial fun _ => 0)
      (.exec 0 (some [65]) :: runs 0 2) := by
    refine ⟨trivial, fun s₁ h₁ => ?_⟩
    obtain rfl := Option.some.inj h₁
    refine ⟨fun hpt => (nomatch hpt), fun s₂ h₂ => ?_⟩
    obtain rfl := Option.some.inj h₂
    exact ⟨fun hpt => (nomatch hpt), fun _ _ => trivial⟩
  have hr : Run.ReachBy step ChildrenGone Init s := ⟨_, _, ⟨_, rfl⟩, hadm, hs⟩
  obtain ⟨j, hj, _, hb, hc, _⟩ := (process_table_liveness hr).2 1 1 (by decide) h1 hd
  exact ⟨s, hr, h1, hd, j, hj, hb, hc⟩

/-- The root executes process 1, which executes process 2 and exits; the root joins process 1. -/
def orphanRun : List Label :=
  execRun 0 65 ++ execRun 1 66 ++ .exit 1 0 :: runs 1 5 ++ .join 0 1 :: runs 0 6 ++ runs 1 2

/-- In the end slot 2 is in use and its parent link leads to slot 1, which is free. -/
theorem orphan_keeps_stale_parent :
    ∃ s, Run.exec step (initial fun _ => 0) orphanRun = some s ∧ s.pcb 2 = some 2 ∧
      (s.heap 2).deleted = false ∧ (s.heap 2).parentID = 1 ∧ s.bm.test 1 = false := by
  have h : (Run.exec step (initial fun _ => 0) orphanRun).any fun s => s.pcb 2 = some 2 ∧
      (s.heap 2).deleted = false ∧ (s.heap 2).parentID = 1 ∧ s.bm.test 1 = false := by
    decide +kernel
  obtain ⟨s, hs, hp⟩ := (Option.any_eq_true _ _).mp h
  exact ⟨s, hs, of_decide_eq_true hp⟩

end Procs

end Nachos
