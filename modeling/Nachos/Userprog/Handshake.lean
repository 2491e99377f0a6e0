import Nachos.Lib.Rendezvous
import Nachos.Userprog.Multex

/-!
# `JoinUpdate` meets `ExitUpdate`

A process and the child it joins hand over the exit code with the two semaphores of the child's
`PCB`, as in `Lib.Rendezvous`. `Meets` relates a state of the table to a state of that protocol, and
`Meets.step` shows that every step of the table is a step of the protocol or none at all.

`JoinUpdate` checks the parent once and reads `pcb[id]` again after `IncNumWait` and after
`JoinWait`. A process that joins a child twice can pass the check while the child still has its
slot, and go on when the slot belongs to somebody else: it then takes part in a handshake that is
not its own. `NoJoiner` excludes this when the slot is given away.
-/

namespace Nachos

/-- In `JoinUpdate` for slot `id`. -/
def Pt.joinsAt (id : ℤ) : Pt → Bool
  | .joinIncP i _ | .joinInc i _ | .joinP i | .joinWait i _ | .joinRead i | .joinDone i _ =>
    decide (i = id)
  | _ => false

/-- In `JoinUpdate` for slot `id` before its last look at `pcb[id]`, or at the semaphore of `c`. -/
def Pt.intrudes (id : ℤ) (c : ℕ) : Pt → Bool
  | .joinIncP i _ | .joinInc i _ | .joinP i | .joinRead i => decide (i = id)
  | .joinWait _ a => decide (a = c)
  | _ => false

/-- The events of a join of slot `id` by `p` and of the exit of `c`. -/
def Event.concerns (p c : ℕ) (id : ℤ) : Event → Prop
  | .joinCalled t i | .joinRead t i _ | .joinReturned t i _ => t = p ∧ i = id
  | .exitCalled t _ => t = c
  | .removed a _ _ => a = c
  | _ => False

namespace Procs

/-! ## What the steps touch -/

/-- The event can come from the step `l` in `s`. -/
def Emits (s : Procs) (l : Label) : Event → Prop
  | .joinCalled t id => l = .join t id
  | .joinRead t id _ => t = l.thread ∧ s.pt t = .joinRead id
  | .joinReturned t id ec => l = .join t id ∨ t = l.thread ∧ s.pt t = .joinDone id ec
  | .exitCalled t ec => l = .exit t ec
  | .removed a _ _ => a = l.thread ∧ s.pt a = .exitRemove
  | .created t _ _ | .execReturned t _ => t = l.thread
  | _ => True

section Touch

variable {s s' : Procs} {l : Label} {c : ℕ}

theorem Act.events (h : s.Act l s') : ∃ es, s'.log = s.log ++ es ∧ ∀ e ∈ es, s.Emits l e := by
  cases h with
  | joinRejected hp hr =>
    rename_i t id m
    refine ⟨[.joinCalled t id, .printed m, .joinReturned t id (-1)], ?_, ?_⟩
    · simp [joinReturn]
    · simp [Emits]
  | @joinFault t id hp ha | @join t id a hp ha hpar =>
    exact ⟨[.joinCalled t id], rfl, by simp [Emits]⟩
  | @exitHalt t ec hp h0 | @exitFault t ec hp hb | @exit t ec b hp hb =>
    exact ⟨[.exitCalled t ec], rfl, by simp [Emits]⟩
  | execFailed hp =>
    rename_i t nm name m
    refine ⟨[.printed m, .execReturned t (-1)], ?_, ?_⟩
    · simp [execReturn]
    · simp [Emits, Label.thread]
  | create hp hlt hc =>
    rename_i t nm slot name
    exact ⟨[.created t s.next slot], rfl, by simp [Emits, Label.thread]⟩
  | execDone hp =>
    rename_i t nm slot
    refine ⟨[.execReturned t slot], ?_, ?_⟩
    · simp [execReturn]
    · simp [Emits, Label.thread]
  | joinRead hp ha =>
    rename_i t nm id a
    refine ⟨[.joinRead t id (s.heap a).exitcode], ?_, ?_⟩
    · simp
    · simp [Emits, Label.thread, hp]
  | joinDone hp =>
    rename_i t nm id ec
    refine ⟨[.joinReturned t id ec], rfl, ?_⟩
    simp [Emits, Label.thread, hp]
  | remove hp =>
    rename_i t nm
    refine ⟨[.removed t (s.sems (.joinsem t)).queue (s.sems (.exitsem t)).queue], rfl, ?_⟩
    simp [Emits, Label.thread, hp]
  | _ => exact ⟨[], by simp [execFork], by simp⟩

theorem Act.joinsem (h : s.Act l s') (hc : c < s.next) :
    s'.sems (.joinsem c) = s.sems (.joinsem c) ∨
      (s.pt l.thread).waitsFor = some (.joinsem c) ∨ l.thread = c ∧ s.pt c = .exitRelease := by
  have hV : ∀ (q : Procs) (r : SemRef), r ≠ .joinsem c → (q.V r).sems (.joinsem c) =
      q.sems (.joinsem c) := fun q r hr => V_sems_of_ne q r (Ne.symm hr)
  cases h with
  | sleep hw hq hf hv | take hw hq hf hv =>
    rename_i r next
    by_cases hr : r = .joinsem c
    · subst hr; exact Or.inr (Or.inl (Pt.waitsFor_of_waits hw))
    · refine Or.inl ?_
      simp [Ne.symm hr]
  | exitRelease hp =>
    rename_i t nm
    by_cases htc : t = c
    · subst htc; exact Or.inr (Or.inr ⟨rfl, hp⟩)
    · refine Or.inl ?_
      rw [goto_sems, hV _ _ (by simpa using htc)]
  | create hp hlt hcl =>
    refine Or.inl ?_
    simp [newPCB, Nat.ne_of_lt hc]
  | _ => exact Or.inl (by simp [joinReturn, execReturn, execFork, hV])

theorem Act.exitsem (h : s.Act l s') (hc : c < s.next) :
    s'.sems (.exitsem c) = s.sems (.exitsem c) ∨ (s.pt l.thread).waitsFor = some (.exitsem c) ∨
      ∃ id, s.pt l.thread = .joinRead id ∧ s.pcbAt id = some c := by
  have hV : ∀ (q : Procs) (r : SemRef), r ≠ .exitsem c → (q.V r).sems (.exitsem c) =
      q.sems (.exitsem c) := fun q r hr => V_sems_of_ne q r (Ne.symm hr)
  cases h with
  | sleep hw hq hf hv | take hw hq hf hv =>
    rename_i r next
    by_cases hr : r = .exitsem c
    · subst hr; exact Or.inr (Or.inl (Pt.waitsFor_of_waits hw))
    · refine Or.inl ?_
      simp [Ne.symm hr]
  | joinRead hp ha =>
    rename_i t nm id a
    by_cases hac : a = c
    · subst hac; exact Or.inr (Or.inr ⟨id, hp, ha⟩)
    · refine Or.inl ?_
      rw [goto_sems, hV _ _ (by simpa using hac), emit_sems]
  | create hp hlt hcl =>
    refine Or.inl ?_
    simp [newPCB, Nat.ne_of_lt hc]
  | _ => exact Or.inl (by simp [joinReturn, execReturn, execFork, hV])

theorem modify_exitcode (a : ℕ) {f : PCB → PCB} (hf : ∀ b, (f b).exitcode = b.exitcode) :
    ((s.modify a f).heap c).exitcode = (s.heap c).exitcode := by
  by_cases hca : c = a
  · subst hca; simp [modify, hf]
  · simp [modify, hca]

theorem Act.exitcode (h : s.Act l s') (hc : c < s.next) :
    (s'.heap c).exitcode = (s.heap c).exitcode ∨ ∃ ec, l = .exit c ec := by
  cases h with
  | @exitFault t ec hp hb | @exit t ec b hp hb =>
    by_cases htc : t = c
    · subst htc; exact Or.inr ⟨ec, rfl⟩
    · exact Or.inl (by simp [modify, Ne.symm htc])
  | create hp hlt hcl => exact Or.inl (by simp [newPCB, Nat.ne_of_lt hc])
  | fork hp | joinInc hp | exitDec hp | remove hp =>
    refine Or.inl ?_
    simp only [execFork, goto_heap, V_heap]
    exact modify_exitcode _ fun _ => rfl
  | _ => exact Or.inl (by simp [joinReturn, execReturn])

/-- What a thread in `P` can do. -/
theorem Act.at_wait (h : s.Act l s') {r : SemRef} {next : Pt}
    (hw : (s.pt l.thread).waits = some (r, next)) :
    s' = s.stop .undefined ∧ s.freed r = true ∨
    s' = s.setSem r { s.sems r with queue := (s.sems r).queue ++ [l.thread] } ∧
      (s.sems r).value = 0 ∧ l.thread ∉ (s.sems r).queue ∧ s.freed r = false ∨
    s' = (s.setSem r { s.sems r with value := intPred (s.sems r).value }).goto l.thread next ∧
      (s.sems r).value ≠ 0 ∧ l.thread ∉ (s.sems r).queue ∧ s.freed r = false := by
  cases h with
  | fault hw' hq hf =>
    simp only [Label.thread] at hw
    rw [hw', Option.some.injEq, Prod.mk.injEq] at hw
    obtain ⟨rfl, rfl⟩ := hw
    exact Or.inl ⟨rfl, hf⟩
  | sleep hw' hq hf hv =>
    simp only [Label.thread] at hw
    rw [hw', Option.some.injEq, Prod.mk.injEq] at hw
    obtain ⟨rfl, rfl⟩ := hw
    exact Or.inr (Or.inl ⟨rfl, hv, hq, hf⟩)
  | take hw' hq hf hv =>
    simp only [Label.thread] at hw
    rw [hw', Option.some.injEq, Prod.mk.injEq] at hw
    obtain ⟨rfl, rfl⟩ := hw
    exact Or.inr (Or.inr ⟨rfl, hv, hq, hf⟩)
  | _ => simp_all [Label.thread, Pt.waits]

/-- A thread inside the three functions and not in `P` can only go on from its point. -/
theorem step_at_block (h : s.step l = some s') (hu : s.pt l.thread ≠ .user)
    (hw : (s.pt l.thread).waits = none) : ∃ nm, s.block l.thread nm = some s' := by
  unfold step at h
  split_ifs at h
  cases l with
  | exec t name | join t id | exit t ec =>
    simp only [Label.thread] at h hu
    rw [if_neg hu] at h
    cases h
  | run t nm =>
    simp only [Label.thread] at h hw
    rw [hw] at h
    exact ⟨nm, h⟩

end Touch

/-! ## The table as a handshake -/

open Rendezvous (Joiner Leaver)

/-- Where the parent `p` stands in the join of its child `c` in slot `id`. -/
def JoinerAt (p c : ℕ) (id : ℤ) (q : Pt) : Joiner ℤ → Prop
  | .away => q.joinsAt id = false
  | .calling => q = .joinIncP id p ∨ q = .joinInc id p ∨ q = .joinP id
  | .waiting | .asleep => q = .joinWait id c
  | .reading => q = .joinRead id
  | .answered v => q = .joinDone id v ∨ q.joinsAt id = false

/-- Where the child `c` stands in its exit. -/
def LeaverAt (p c : ℕ) (q : Pt) : Leaver → Prop
  | .working => q.exiting = false ∧ q ≠ .dead
  | .leaving => q = .exitDecP p ∨ q = .exitDec p ∨ q = .exitRelease
  | .waiting => q = .exitP ∨ q = .exitWait c
  | .asleep => q = .exitWait c
  | .freeing => q = .exitRemove
  | .freed => q = .dead

/-- Who sleeps on `joinsem`. -/
def joinQueue (p : ℕ) : Joiner ℤ → List ℕ
  | .asleep => [p]
  | _ => []

/-- Who sleeps on `exitsem`. -/
def exitQueue (c : ℕ) : Leaver → List ℕ
  | .asleep => [c]
  | _ => []

/-- The `PCB` of `c` while it is in use: nobody but `p` takes part in its handshake. -/
structure Open (p c id : ℕ) (s : Procs) (m : Rendezvous.State ℤ) : Prop where
  live : s.Live c
  slot : (s.heap c).slot = id
  creator : (s.heap c).creator = p
  parentID : (s.heap c).parentID = s.processID p
  exitcode : (s.heap c).exitcode = m.value
  joinsem : s.sems (.joinsem c) = ⟨m.joinsem, joinQueue p m.joiner⟩
  exitsem : s.sems (.exitsem c) = ⟨m.exitsem, exitQueue c m.leaver⟩
  alone : ∀ u, u ≠ p → (s.pt u).intrudes id c = false

/-- What has to precede the events of the handshake. -/
def Orderly (p c : ℕ) (id : ℤ) (past : List Event) : Event → Prop
  | .joinReturned t i v =>
    t = p ∧ i = id → .exitCalled c v ∈ past ∧ .joinRead p id v ∈ past
  | .removed a joinq exitq =>
    a = c → joinq = [] ∧ exitq = [] ∧ ∃ v, .joinRead p id v ∈ past
  | _ => True

/-- The events since the creation of `c`. -/
structure Recorded (p c : ℕ) (id : ℤ) (new : List Event) (q : Pt) (m : Rendezvous.State ℤ) :
    Prop where
  called : .joinCalled p id ∈ new ↔ m.joiner ≠ .away
  read : ∀ v, .joinRead p id v ∈ new ↔ m.joiner = .answered v
  exited : ∀ v, .exitCalled c v ∈ new ↔ m.leaver ≠ .working ∧ m.value = v
  returned : ∀ v, m.joiner = .answered v → q.joinsAt id = false → .joinReturned p id v ∈ new
  history : Run.Justified (Orderly p c id) new

/-- The table is in the state `m` of the handshake between `p` and its child `c` in slot `id`. -/
structure Meets (p c id : ℕ) (new : List Event) (s : Procs) (m : Rendezvous.State ℤ) : Prop where
  lock : s.LockInv
  inv : Rendezvous.Inv m
  ne : c ≠ p
  nonzero : c ≠ 0
  parent : (s.pt p).active = true ∧ (s.pt p).exiting = false
  joiner : JoinerAt p c id (s.pt p) m.joiner
  leaver : LeaverAt p c (s.pt c) m.leaver
  opened : m.leaver ≠ .freed → Open p c id s m
  log : Recorded p c id new (s.pt p) m

section Frame

variable {p c id : ℕ} {s s' : Procs} {m : Rendezvous.State ℤ} {l : Label}

/-- The `PCB` of `c` stays what it is until `c` removes it. -/
theorem Open.kept (ho : Open p c id s m) (hi : s.TableInv) (hp : (s.pt p).active = true)
    (h : s.step l = some s') (hr : ¬ (l.thread = c ∧ s.pt c = .exitRemove)) :
    s'.Live c ∧ (s'.heap c).slot = id ∧ (s'.heap c).creator = p ∧
      (s'.heap c).parentID = s'.processID p := by
  obtain ⟨hlive, hslot, hcr, hpar⟩ := hi.kept h ho.live hr
  refine ⟨hlive, hslot.trans ho.slot, hcr.trans ho.creator, ?_⟩
  rw [hi.processID_kept h hp]
  rcases hpar with hpar | hpar
  · exact hpar.trans ho.parentID
  · rw [hpar, ho.creator]

/-- Only `p` passes the parent check for `c`. -/
theorem Open.parent_unique (ho : Open p c id s m) (hi : s.TableInv) (hp : (s.pt p).active = true)
    {u a : ℕ} (hu : (s.pt u).active = true) (ha : s.pcbAt id = some a)
    (hpar : (s.heap a).parentID = s.processID u) : u = p := by
  have hac : a = c := by
    have hown := hi.pcbAt_own ho.live
    rw [ho.slot, ha, Option.some.injEq] at hown
    exact hown
  rw [hac, ho.parentID, Nat.cast_inj] at hpar
  obtain ⟨hlp, hidp, _⟩ := hi.running p hp
  obtain ⟨hlu, hidu, _⟩ := hi.running u hu
  exact hi.slot_inj hlu hlp (by rw [← hidu, ← hidp, hpar])

theorem Open.pcbAt (ho : Open p c id s m) (hi : s.TableInv) {a : ℕ} :
    s.pcbAt id = some a ↔ a = c := by
  have hown := hi.pcbAt_own ho.live
  rw [ho.slot] at hown
  rw [hown, Option.some.injEq]
  exact eq_comm

/-- Nobody but `p` comes near the handshake. -/
theorem Open.alone_step (ho : Open p c id s m) (hl : s.LockInv) (hp : (s.pt p).active = true)
    (h : s.step l = some s') : ∀ u, u ≠ p → (s'.pt u).intrudes id c = false := by
  intro u hup
  have hact := (step_act hl.table h).2
  by_cases hut : u = l.thread
  swap
  · rcases hact.pt_others hut with hpt | ⟨_, _, hpt⟩
    · rw [hpt]; exact ho.alone u hup
    · rw [hpt]; rfl
  have hold := ho.alone u hup
  have hactive := step_active h
  have hpoint := hl.points u
  cases hact with
  | @join t i a hpt ha hpar =>
    obtain rfl : u = t := hut
    simp only [goto_pt, Function.update_self, Pt.intrudes, decide_eq_false_iff_not]
    rintro rfl
    exact hup (ho.parent_unique hl.table hp hactive ha hpar)
  | @take t nm r next hw hq hf hv =>
    obtain rfl : u = t := hut
    rw [goto_pt, Function.update_self]
    cases hpt : s.pt u <;> rw [hpt] at hw hold hpoint <;> simp only [Pt.waits, reduceCtorEq,
      Option.some.injEq, Prod.mk.injEq] at hw <;> obtain ⟨rfl, rfl⟩ := hw <;> try exact hold
    -- a thread that gets through `JoinWait` for slot `id` waited for `c`
    rename_i i a
    simp only [Pt.intrudes, decide_eq_false_iff_not] at hold ⊢
    rintro rfl
    have hla : s.Live a := ⟨hpoint.1, hf⟩
    have hslot : (s.heap a).slot = id := by exact_mod_cast hpoint.2
    exact hold (hl.table.slot_inj hla ho.live (by rw [hslot, ho.slot]))
  | @joinInc t nm i b hpt =>
    obtain rfl : u = t := hut
    rw [hpt] at hold
    simpa [Pt.intrudes] using hold
  | @joinP t nm i a hpt ha =>
    obtain rfl : u = t := hut
    rw [hpt] at hold
    simp only [goto_pt, Function.update_self, Pt.intrudes, decide_eq_false_iff_not] at hold ⊢
    rintro rfl
    obtain ⟨_, hslot⟩ := hl.table.pcbAt_eq ha
    exact hold (by rw [← hslot, ho.slot])
  | fork hpt =>
    simp only [Label.thread] at hut
    subst hut
    simp [execFork, Pt.intrudes]
  | joinFault | exitHalt | exitFault | fault | sleep | joinPFault | joinReadFault => exact hold
  | _ =>
    simp only [Label.thread] at hut
    subst hut
    simp [joinReturn, execReturn, Pt.intrudes]

end Frame

section Steps

variable {p c id : ℕ} {new : List Event} {s s' : Procs} {m m' : Rendezvous.State ℤ} {l : Label}

theorem mem_append_of_concerns {es : List Event} (hes : ∀ e ∈ es, ¬ e.concerns p c id) {e : Event}
    (he : e.concerns p c id) : e ∈ new ++ es ↔ e ∈ new := by
  rw [List.mem_append, or_iff_left fun h => hes e h he]

/-- Events of others change nothing. -/
theorem Recorded.append {q q' : Pt} {es : List Event} (hr : Recorded p c id new q m)
    (hes : ∀ e ∈ es, ¬ e.concerns p c id) (hq : q'.joinsAt id = false → q.joinsAt id = false) :
    Recorded p c id (new ++ es) q' m := by
  refine ⟨?_, fun v => ?_, fun v => ?_, fun v hv hn => ?_, hr.history.append fun e he past => ?_⟩
  · rw [mem_append_of_concerns hes (e := .joinCalled p id) ⟨rfl, rfl⟩]; exact hr.called
  · rw [mem_append_of_concerns hes (e := .joinRead p id v) ⟨rfl, rfl⟩]; exact hr.read v
  · rw [mem_append_of_concerns hes (e := .exitCalled c v) rfl]; exact hr.exited v
  · exact List.mem_append_left _ (hr.returned v hv (hq hn))
  · have hne := hes e he
    cases e with
    | joinReturned t i v => exact fun h => absurd h hne
    | removed a jq eq => exact fun h => absurd h hne
    | _ => trivial

/-- A step of the handshake without an event. -/
theorem Recorded.silent {q q' : Pt} (hr : Recorded p c id new q m)
    (haway : m'.joiner = .away ↔ m.joiner = .away)
    (hans : ∀ v, m'.joiner = .answered v ↔ m.joiner = .answered v)
    (hwork : m'.leaver = .working ↔ m.leaver = .working) (hv : m'.value = m.value)
    (hq : q'.joinsAt id = false → q.joinsAt id = false) : Recorded p c id new q' m' := by
  refine ⟨?_, fun v => ?_, fun v => ?_, fun v ha hn => ?_, hr.history⟩
  · rw [hr.called, ne_eq, ne_eq, haway]
  · rw [hr.read, hans]
  · rw [hr.exited, ne_eq, ne_eq, hwork, hv]
  · exact hr.returned v ((hans v).mp ha) (hq hn)

/-- A step that is none of the handshake. -/
theorem Meets.stutter (hm : Meets p c id new s m) (h : s.step l = some s') {es : List Event}
    (hes : ∀ e ∈ es, ¬ e.concerns p c id)
    (hparent : (s'.pt p).active = true ∧ (s'.pt p).exiting = false)
    (hj : JoinerAt p c id (s'.pt p) m.joiner)
    (hret : (s'.pt p).joinsAt id = false → (s.pt p).joinsAt id = false)
    (hl : LeaverAt p c (s'.pt c) m.leaver) (ho : m.leaver ≠ .freed → Open p c id s' m) :
    Meets p c id (new ++ es) s' m :=
  ⟨hm.lock.step h, hm.inv, hm.ne, hm.nonzero, hparent, hj, hl, ho, hm.log.append hes hret⟩

/-- A step of a thread other than `p` that leaves the semaphores of `c` and its exit code alone. -/
theorem Open.same (ho : Open p c id s m) (hl : s.LockInv) (hp : (s.pt p).active = true)
    (h : s.step l = some s') (hr : ¬ (l.thread = c ∧ s.pt c = .exitRemove))
    (hjs : s'.sems (.joinsem c) = s.sems (.joinsem c))
    (hes : s'.sems (.exitsem c) = s.sems (.exitsem c))
    (hec : (s'.heap c).exitcode = (s.heap c).exitcode) : Open p c id s' m := by
  obtain ⟨h1, h2, h3, h4⟩ := ho.kept hl.table hp h hr
  exact ⟨h1, h2, h3, h4, hec.trans ho.exitcode, hjs.trans ho.joinsem, hes.trans ho.exitsem,
    ho.alone_step hl hp h⟩

/-- A thread other than `p` leaves `joinsem` alone unless it is `c` in `JoinRelease`. -/
theorem Open.joinsem_other (ho : Open p c id s m) (hact : s.Act l s') (hu : l.thread ≠ p)
    (hr : ¬ (l.thread = c ∧ s.pt c = .exitRelease)) :
    s'.sems (.joinsem c) = s.sems (.joinsem c) := by
  rcases hact.joinsem ho.live.1 with h | h | h
  · exact h
  · have halone := ho.alone l.thread hu
    obtain ⟨next, hw⟩ := Pt.waits_of_waitsFor h
    cases hpt : s.pt l.thread <;> rw [hpt] at hw halone <;> simp [Pt.waits] at hw
    simp [Pt.intrudes, hw.1] at halone
  · exact absurd h hr

/-- A thread other than `p` leaves `exitsem` alone unless it is `c` in `ExitWait`. -/
theorem Open.exitsem_other (ho : Open p c id s m) (hl : s.LockInv) (hact : s.Act l s')
    (hu : l.thread ≠ p) (hr : ¬ (l.thread = c ∧ s.pt c = .exitWait c)) :
    s'.sems (.exitsem c) = s.sems (.exitsem c) := by
  rcases hact.exitsem ho.live.1 with h | h | ⟨i, hpt, hi⟩
  · exact h
  · have hpoint := hl.points l.thread
    obtain ⟨next, hw⟩ := Pt.waits_of_waitsFor h
    cases hpt : s.pt l.thread <;> rw [hpt] at hw hpoint <;> simp [Pt.waits] at hw
    rename_i a
    simp only [PointOk] at hpoint
    have hc : l.thread = c := by rw [← hpoint, hw.1]
    exact absurd ⟨hc, by rw [← hc, hpt, hpoint]⟩ hr
  · have halone := ho.alone l.thread hu
    obtain ⟨_, hslot⟩ := hl.table.pcbAt_eq hi
    rw [hpt, ← hslot, ho.slot] at halone
    simp [Pt.intrudes] at halone

/-- An event of the handshake comes from `p` in the join or from `c` in its exit. -/
theorem Emits.aside {e : Event} (he : s.Emits l e)
    (hp : l.thread = p → l ≠ .join p id ∧ (s.pt p).joinsAt id = false)
    (hc : l.thread = c → (∀ ec, l ≠ .exit c ec) ∧ s.pt c ≠ .exitRemove) :
    ¬ e.concerns p c id := by
  intro hcon
  cases e <;> simp only [Event.concerns] at hcon <;> simp only [Emits] at he
  case joinCalled t i =>
    obtain ⟨rfl, rfl⟩ := hcon
    exact (hp (by rw [he]; rfl)).1 he
  case joinRead t i ec =>
    obtain ⟨rfl, rfl⟩ := hcon
    have hj := (hp he.1.symm).2
    rw [he.2] at hj
    simp [Pt.joinsAt] at hj
  case joinReturned t i ec =>
    obtain ⟨rfl, rfl⟩ := hcon
    rcases he with he | ⟨ht, he⟩
    · exact (hp (by rw [he]; rfl)).1 he
    · have hj := (hp ht.symm).2
      rw [he] at hj
      simp [Pt.joinsAt] at hj
  case exitCalled t ec =>
    subst hcon
    exact (hc (by rw [he]; rfl)).1 ec he
  case removed a jq eq =>
    subst hcon
    exact (hc he.1.symm).2 he.2

/-- A thread that is not forked by the step and does not take it stays where it is. -/
theorem pt_kept (hi : s.TableInv) (hact : s.Act l s') {u : ℕ} (hu : u ≠ l.thread)
    (ha : (s.pt u).active = true) : s'.pt u = s.pt u := by
  rcases hact.pt_others hu with h | ⟨slot, hf, _⟩
  · exact h
  · obtain ⟨_, _, _, hun, _⟩ := hi.creating l.thread u slot (by rw [hf]; rfl)
    rw [hun] at ha
    cases ha

theorem Meets.leaver_other (hm : Meets p c id new s m) (hact : s.Act l s') (hu : l.thread ≠ c) :
    LeaverAt p c (s'.pt c) m.leaver := by
  rcases hact.pt_others (Ne.symm hu) with h | ⟨slot, hf, h⟩
  · rw [h]; exact hm.leaver
  · obtain ⟨_, _, _, hun, _⟩ := hm.lock.table.creating l.thread c slot (by rw [hf]; rfl)
    have hl := hm.leaver
    rw [hun] at hl
    rw [h]
    cases hlv : m.leaver <;> rw [hlv] at hl <;> simp [LeaverAt] at hl ⊢
    rfl

/-- A step of a third process. -/
theorem Meets.other (hm : Meets p c id new s m) (h : s.step l = some s') (hup : l.thread ≠ p)
    (huc : l.thread ≠ c) : ∃ es, s'.log = s.log ++ es ∧ Meets p c id (new ++ es) s' m := by
  have hact := (step_act hm.lock.table h).2
  obtain ⟨es, hlog, hes⟩ := hact.events
  have hpt : s'.pt p = s.pt p := pt_kept hm.lock.table hact (Ne.symm hup) hm.parent.1
  refine ⟨es, hlog, hm.stutter h (fun e he => (hes e he).aside (fun h => absurd h hup)
    (fun h => absurd h huc)) ?_ ?_ ?_ (hm.leaver_other hact huc) fun hf => ?_⟩
  · rw [hpt]; exact hm.parent
  · rw [hpt]; exact hm.joiner
  · rw [hpt]; exact fun h => h
  · have ho := hm.opened hf
    refine ho.same hm.lock hm.parent.1 h (fun h => huc h.1)
      (ho.joinsem_other hact hup fun h => huc h.1)
      (ho.exitsem_other hm.lock hact hup fun h => huc h.1) ?_
    rcases hact.exitcode ho.live.1 with h | ⟨ec, rfl⟩
    · exact h
    · exact absurd rfl huc

/-! ### The parent -/

/-- A thread outside the joins of a slot stays outside, unless it calls one. -/
theorem Act.elsewhere (hact : s.Act l s') {i : ℤ} (hj : (s.pt l.thread).joinsAt i = false)
    (hl : l ≠ .join l.thread i) : (s'.pt l.thread).joinsAt i = false := by
  cases hact with
  | @join t j a hp ha hpar =>
    have hne : j ≠ i := by rintro rfl; exact hl rfl
    simp [Label.thread, Pt.joinsAt, hne]
  | @take t nm r next hw hq hf hv =>
    simp only [Label.thread] at hj ⊢
    rw [goto_pt, Function.update_self]
    cases hpt : s.pt t <;> rw [hpt] at hw hj <;> simp only [Pt.waits, reduceCtorEq,
      Option.some.injEq, Prod.mk.injEq] at hw <;> obtain ⟨rfl, rfl⟩ := hw <;> exact hj
  | joinInc hp | joinP hp | joinRead hp =>
    simp only [Label.thread] at hj ⊢
    rw [hp] at hj
    rw [goto_pt, Function.update_self]
    exact hj
  | joinFault | exitHalt | exitFault | fault | sleep | joinPFault | joinReadFault => exact hj
  | _ => simp [Label.thread, joinReturn, execReturn, execFork, Pt.joinsAt]

/-- A thread that does not exit stays in use. -/
theorem Act.staying (hact : s.Act l s') (ha : (s.pt l.thread).active = true)
    (hx : (s.pt l.thread).exiting = false) (hl : ∀ ec, l ≠ .exit l.thread ec) :
    (s'.pt l.thread).active = true ∧ (s'.pt l.thread).exiting = false := by
  cases hact with
  | exitHalt | exit | exitFault => exact absurd rfl (hl _)
  | @take t nm r next hw hq hf hv =>
    simp only [Label.thread] at hx ⊢
    rw [goto_pt, Function.update_self]
    cases hpt : s.pt t <;> rw [hpt] at hw hx <;> simp only [Pt.waits, reduceCtorEq,
      Option.some.injEq, Prod.mk.injEq] at hw <;> obtain ⟨rfl, rfl⟩ := hw <;>
      first | exact ⟨rfl, rfl⟩ | cases hx
  | exitDec hp | exitRelease hp | exitP hp | remove hp =>
    simp only [Label.thread] at hx
    rw [hp] at hx
    cases hx
  | joinFault | fault | sleep | joinPFault | joinReadFault => exact ⟨ha, hx⟩
  | _ => simp [Label.thread, joinReturn, execReturn, execFork, Pt.active, Pt.exiting]

theorem Open.joinsem_parent (ho : Open p c id s m) (hl : s.LockInv) (hact : s.Act l s')
    (ht : l.thread = p) (hne : c ≠ p) (hpt : s.pt p ≠ .joinWait id c) :
    s'.sems (.joinsem c) = s.sems (.joinsem c) := by
  rcases hact.joinsem ho.live.1 with h | h | h
  · exact h
  · have hpoint := hl.points p
    rw [ht] at h
    obtain ⟨next, hw⟩ := Pt.waits_of_waitsFor h
    cases hpp : s.pt p <;> rw [hpp] at hw hpoint <;> simp [Pt.waits] at hw
    rename_i i a
    obtain ⟨rfl, _⟩ := hw
    refine absurd ?_ hpt
    rw [hpp, ← hpoint.2, ho.slot]
  · exact absurd (h.1.symm.trans ht) hne

theorem Open.exitsem_parent (ho : Open p c id s m) (hl : s.LockInv) (hact : s.Act l s')
    (ht : l.thread = p) (hx : (s.pt p).exiting = false) (hpt : s.pt p ≠ .joinRead id) :
    s'.sems (.exitsem c) = s.sems (.exitsem c) := by
  rcases hact.exitsem ho.live.1 with h | h | ⟨i, hr, hi⟩
  · exact h
  · rw [ht] at h
    obtain ⟨next, hw⟩ := Pt.waits_of_waitsFor h
    cases hpp : s.pt p <;> rw [hpp] at hw hx <;> simp [Pt.waits] at hw
    cases hx
  · rw [ht] at hr
    obtain ⟨_, hslot⟩ := hl.table.pcbAt_eq hi
    rw [← hslot, ho.slot] at hr
    exact absurd hr hpt

/-- A step of the parent that leaves both semaphores alone. -/
theorem Meets.open_parent (hm : Meets p c id new s m) (h : s.step l = some s')
    (ht : l.thread = p) (h1 : s.pt p ≠ .joinWait id c) (h2 : s.pt p ≠ .joinRead id)
    (hf : m.leaver ≠ .freed) : Open p c id s' m := by
  have hact := (step_act hm.lock.table h).2
  have ho := hm.opened hf
  have htc : l.thread ≠ c := fun e => hm.ne (e.symm.trans ht)
  refine ho.same hm.lock hm.parent.1 h (fun h => htc h.1)
    (ho.joinsem_parent hm.lock hact ht hm.ne h1) (ho.exitsem_parent hm.lock hact ht hm.parent.2 h2) ?_
  rcases hact.exitcode ho.live.1 with h | ⟨ec, rfl⟩
  · exact h
  · exact absurd rfl htc

/-- The parent does something else. -/
theorem Meets.parent_elsewhere (hm : Meets p c id new s m) (h : s.step l = some s')
    (ht : l.thread = p) (hx : ∀ ec, l ≠ .exit p ec) (hl : l ≠ .join p id)
    (hj : (s.pt p).joinsAt id = false) :
    ∃ es, s'.log = s.log ++ es ∧ Meets p c id (new ++ es) s' m := by
  have hact := (step_act hm.lock.table h).2
  obtain ⟨es, hlog, hes⟩ := hact.events
  have htc : l.thread ≠ c := fun e => hm.ne (e.symm.trans ht)
  have hj' : (s'.pt p).joinsAt id = false := by
    have := @Act.elsewhere _ _ _ hact id
    rw [ht] at this
    exact this hj hl
  have hstay : (s'.pt p).active = true ∧ (s'.pt p).exiting = false := by
    have := hact.staying
    rw [ht] at this
    exact this hm.parent.1 hm.parent.2 hx
  refine ⟨es, hlog, hm.stutter h (fun e he => (hes e he).aside (fun _ => ⟨hl, hj⟩)
    (fun h => absurd h htc)) hstay ?_ (fun _ => hj) (hm.leaver_other hact htc)
    (hm.open_parent h ht ?_ ?_)⟩
  · have := hm.joiner
    cases hm' : m.joiner <;> rw [hm'] at this <;> simp only [JoinerAt] at this ⊢
    · exact hj'
    · rcases this with e | e | e <;> rw [e] at hj <;> simp [Pt.joinsAt] at hj
    · rw [this] at hj; simp [Pt.joinsAt] at hj
    · rw [this] at hj; simp [Pt.joinsAt] at hj
    · rw [this] at hj; simp [Pt.joinsAt] at hj
    · exact Or.inr hj'
  · rintro e; rw [e] at hj; simp [Pt.joinsAt] at hj
  · rintro e; rw [e] at hj; simp [Pt.joinsAt] at hj

theorem Open.congr (ho : Open p c id s m) (hv : m'.value = m.value)
    (hjs : m'.joinsem = m.joinsem) (hes : m'.exitsem = m.exitsem)
    (hjq : joinQueue p m'.joiner = joinQueue p m.joiner)
    (heq : exitQueue c m'.leaver = exitQueue c m.leaver) : Open p c id s m' :=
  ⟨ho.live, ho.slot, ho.creator, ho.parentID, ho.exitcode.trans hv.symm,
    by rw [ho.joinsem, hjs, hjq], by rw [ho.exitsem, hes, heq], ho.alone⟩

/-- The parent calls `JoinUpdate`. -/
theorem Meets.parent_call (hm : Meets p c id new s m) (h : s.step (.join p id) = some s')
    (ha : m.joiner = .away) :
    ∃ es m', s'.log = s.log ++ es ∧ Meets p c id (new ++ es) s' m' := by
  have hf : m.leaver ≠ .freed := hm.inv.not_freed (by rw [ha]; exact nofun)
  have ho := hm.opened hf
  have hpc : s.pcbAt id = some c := (ho.pcbAt hm.lock.table).mpr rfl
  have hj := hm.joiner
  rw [ha] at hj
  have ho' : Open p c id s' m := by
    refine hm.open_parent h rfl ?_ ?_ hf <;> rintro e <;> rw [e] at hj <;>
      simp [JoinerAt, Pt.joinsAt] at hj
  have hact := (step_act hm.lock.table h).2
  have hleaver := hm.leaver_other hact (Ne.symm hm.ne)
  have hlock := hm.lock.step h
  cases hact with
  | joinRejected hp hr => exact absurd ⟨c, hpc, ho.parentID⟩ hr
  | joinFault hp ha => rw [hpc] at ha; cases ha
  | @join t i a hp hpa hpar =>
    have hpt : ((s.emit (.joinCalled p id)).goto p (.joinIncP id p)).pt p = .joinIncP id p := by
      rw [goto_pt, Function.update_self]
    refine ⟨[.joinCalled p id], { m with joiner := .calling }, rfl, hlock, hm.inv.step (.call ha),
      hm.ne, hm.nonzero, by rw [hpt]; exact ⟨rfl, rfl⟩, by rw [hpt]; exact Or.inl rfl, hleaver,
      fun _ => ho'.congr rfl rfl rfl (by rw [ha]; rfl) rfl, ?_⟩
    refine ⟨by simp, fun v => ?_, fun v => ?_, fun v hv => ?_, hm.log.history.concat trivial⟩
    · have := hm.log.read v
      rw [ha] at this
      simpa using this
    · simpa using hm.log.exited v
    · cases hv

/-- The parent between the check and `JoinWait`. -/
theorem Meets.parent_calling (hm : Meets p c id new s m) (h : s.step l = some s')
    (ht : l.thread = p) (ha : m.joiner = .calling) :
    ∃ es m', s'.log = s.log ++ es ∧ Meets p c id (new ++ es) s' m' := by
  have hf : m.leaver ≠ .freed := hm.inv.not_freed (by rw [ha]; exact nofun)
  have ho := hm.opened hf
  have hact := (step_act hm.lock.table h).2
  have htc : l.thread ≠ c := fun e => hm.ne (e.symm.trans ht)
  have hleaver := hm.leaver_other hact htc
  have hj := hm.joiner
  rw [ha] at hj
  have ho' : Open p c id s' m := by
    refine hm.open_parent h ht ?_ ?_ hf <;> rintro e <;> rw [e] at hj <;>
      simp [JoinerAt] at hj
  have hstay : s'.log = s.log → JoinerAt p c id (s'.pt p) .calling →
      ∃ es m', s'.log = s.log ++ es ∧ Meets p c id (new ++ es) s' m' := by
    intro hlog hj'
    refine ⟨[], m, by rw [hlog, List.append_nil], hm.stutter h nofun ?_ (by rw [ha]; exact hj') ?_
      hleaver fun _ => ho'⟩
    · rcases hj' with e | e | e <;> rw [e] <;> exact ⟨rfl, rfl⟩
    · intro hn
      rcases hj' with e | e | e <;> rw [e] at hn <;> simp [Pt.joinsAt] at hn
  rcases hj with hpt | hpt | hpt
  · rcases hact.at_wait (by rw [ht, hpt]; rfl) with ⟨rfl, _⟩ | ⟨rfl, _⟩ | ⟨rfl, _⟩
    · exact hstay rfl (Or.inl hpt)
    · exact hstay rfl (Or.inl hpt)
    · exact hstay rfl (Or.inr (Or.inl (by rw [ht, goto_pt, Function.update_self])))
  · obtain ⟨nm, hb⟩ := step_at_block h (by rw [ht, hpt]; exact nofun) (by rw [ht, hpt]; rfl)
    unfold block at hb
    rw [ht, hpt, Option.some.injEq] at hb
    refine hstay ?_ (Or.inr (Or.inr ?_))
    · rw [← hb]; simp
    · rw [← hb, goto_pt, Function.update_self]
  · obtain ⟨nm, hb⟩ := step_at_block h (by rw [ht, hpt]; exact nofun) (by rw [ht, hpt]; rfl)
    unfold block at hb
    rw [ht, hpt, Option.some.injEq] at hb
    simp only [(ho.pcbAt hm.lock.table).mpr rfl] at hb
    have hpt' : s'.pt p = .joinWait id c := by rw [← hb, goto_pt, Function.update_self]
    refine ⟨[], { m with joiner := .waiting }, by rw [← hb, List.append_nil]; rfl,
      hm.lock.step h, hm.inv.step (.arrive ha), hm.ne, hm.nonzero, by rw [hpt']; exact ⟨rfl, rfl⟩,
      hpt', hleaver, fun _ => ho'.congr rfl rfl rfl (by rw [ha]; rfl) rfl, ?_⟩
    rw [List.append_nil]
    refine hm.log.silent (by simp [ha]) (by simp [ha]) Iff.rfl rfl ?_
    rw [hpt']
    simp [Pt.joinsAt]

/-- The parent in `JoinWait`. -/
theorem Meets.parent_waiting (hm : Meets p c id new s m) (h : s.step l = some s')
    (ht : l.thread = p) (ha : m.joiner = .waiting ∨ m.joiner = .asleep) :
    ∃ es m', s'.log = s.log ++ es ∧ Meets p c id (new ++ es) s' m' := by
  have hf : m.leaver ≠ .freed := hm.inv.not_freed (by
    rcases ha with ha | ha <;> rw [ha] <;> exact nofun)
  have ho := hm.opened hf
  have hact := (step_act hm.lock.table h).2
  have htc : l.thread ≠ c := fun e => hm.ne (e.symm.trans ht)
  have hleaver := hm.leaver_other hact htc
  have hpt : s.pt p = .joinWait id c := by
    have hj := hm.joiner
    rcases ha with ha | ha <;> rw [ha] at hj <;> exact hj
  obtain ⟨hlive, hslot, hcr, hpar⟩ := ho.kept hm.lock.table hm.parent.1 h fun e => htc e.1
  have halone := ho.alone_step hm.lock hm.parent.1 h
  have hcode : (s'.heap c).exitcode = m.value := by
    rcases hact.exitcode ho.live.1 with e | ⟨ec, rfl⟩
    · rw [e, ho.exitcode]
    · exact absurd rfl htc
  have hexit : s'.sems (.exitsem c) = ⟨m.exitsem, exitQueue c m.leaver⟩ := by
    rw [ho.exitsem_parent hm.lock hact ht hm.parent.2 (by rw [hpt]; exact nofun), ho.exitsem]
  have hwake : p ∉ (s.sems (.joinsem c)).queue → m.joiner = .waiting := by
    intro hq
    rcases ha with ha | ha
    · exact ha
    · rw [ho.joinsem, ha] at hq
      exact absurd List.mem_cons_self hq
  rcases hact.at_wait (by rw [ht, hpt]; rfl) with ⟨_, hfr⟩ | ⟨he, hv, hq, _⟩ | ⟨he, hv, hq, _⟩
  · rw [show s.freed (.joinsem c) = false from ho.live.2] at hfr
    cases hfr
  · rw [ht] at hq he
    have hw := hwake hq
    rw [ho.joinsem] at hv he
    have hpt' : s'.pt p = .joinWait id c := by rw [he, setSem_pt, hpt]
    refine ⟨[], { m with joiner := .asleep }, by rw [he, List.append_nil]; rfl, hm.lock.step h,
      hm.inv.step (.joinSleep hw hv), hm.ne, hm.nonzero, by rw [hpt']; exact ⟨rfl, rfl⟩, hpt',
      hleaver, fun _ => ⟨hlive, hslot, hcr, hpar, hcode, ?_, hexit, halone⟩, ?_⟩
    · rw [he, setSem_sems, Function.update_self, hw]
      rfl
    · rw [List.append_nil]
      refine hm.log.silent (by simp [hw]) (by simp [hw]) Iff.rfl rfl ?_
      rw [hpt', hpt]
      exact fun h => h
  · rw [ht] at hq he
    have hw := hwake hq
    rw [ho.joinsem] at hv he
    have hpt' : s'.pt p = .joinRead id := by rw [he, goto_pt, Function.update_self]
    refine ⟨[], { m with joiner := .reading, joinsem := m.joinsem - 1 },
      by rw [he, List.append_nil]; rfl, hm.lock.step h,
      hm.inv.step (.joinTake hw hv), hm.ne, hm.nonzero, by rw [hpt']; exact ⟨rfl, rfl⟩, hpt',
      hleaver, fun _ => ⟨hlive, hslot, hcr, hpar, hcode, ?_, hexit, halone⟩, ?_⟩
    · rw [he, goto_sems, setSem_sems, Function.update_self, hw, intPred_of_nonneg hm.inv.values.1]
      rfl
    · rw [List.append_nil]
      refine hm.log.silent (by simp [hw]) (by simp [hw]) Iff.rfl rfl ?_
      rw [hpt']
      simp [Pt.joinsAt]

/-- The parent reads the exit code and releases the child. -/
theorem Meets.parent_reading (hm : Meets p c id new s m) (h : s.step l = some s')
    (ht : l.thread = p) (ha : m.joiner = .reading) :
    ∃ es m', s'.log = s.log ++ es ∧ Meets p c id (new ++ es) s' m' := by
  have hf : m.leaver ≠ .freed := hm.inv.not_freed (by rw [ha]; exact nofun)
  have ho := hm.opened hf
  have hact := (step_act hm.lock.table h).2
  have htc : l.thread ≠ c := fun e => hm.ne (e.symm.trans ht)
  have hpt : s.pt p = .joinRead id := by
    have hj := hm.joiner
    rw [ha] at hj
    exact hj
  obtain ⟨hlive, hslot, hcr, hpar⟩ := ho.kept hm.lock.table hm.parent.1 h fun e => htc e.1
  have halone := ho.alone_step hm.lock hm.parent.1 h
  obtain ⟨nm, hb⟩ := step_at_block h (by rw [ht, hpt]; exact nofun) (by rw [ht, hpt]; rfl)
  unfold block at hb
  rw [ht, hpt, Option.some.injEq] at hb
  unfold Procs.joinRead at hb
  rw [(ho.pcbAt hm.lock.table).mpr rfl] at hb
  simp only [ho.exitcode] at hb
  have hfr : (s.emit (.joinRead p id m.value)).freed (.exitsem c) = false := ho.live.2
  rw [V_eq hfr, emit_sems, ho.exitsem] at hb
  have hpt' : s'.pt p = .joinDone id m.value := by rw [← hb, goto_pt, Function.update_self]
  have hptc : s'.pt c = s.pt c := by
    rw [← hb, goto_pt, Function.update_of_ne hm.ne]
    rfl
  have hinv := hm.inv.step (.read ha)
  have hzero : m.exitsem = 0 := hm.inv.values.2.2.1 ha
  refine ⟨[.joinRead p id m.value], _, by rw [← hb]; rfl, hm.lock.step h, hinv, hm.ne, hm.nonzero,
    by rw [hpt']; exact ⟨rfl, rfl⟩, by rw [hpt']; exact Or.inl rfl, ?_,
    fun _ => ⟨hlive, hslot, hcr, hpar, ?_, ?_, ?_, halone⟩, ?_⟩
  · rw [hptc]
    have hl := hm.leaver
    cases hlv : m.leaver <;> rw [hlv] at hl <;> first | exact hl | exact Or.inr hl
  · rw [← hb]
    exact ho.exitcode
  · rw [← hb, goto_sems, setSem_sems, Function.update_of_ne (by exact nofun), emit_sems, ho.joinsem,
      ha]
    rfl
  · rw [← hb, goto_sems, setSem_sems, Function.update_self, Semaphore.V, hzero]
    cases hlv : m.leaver <;> simp [exitQueue, Rendezvous.Leaver.wake, intSucc]
  · have hr := hm.log
    refine ⟨by simpa [ha] using hr.called, fun v => ?_, fun v => ?_, fun v _ hn => ?_,
      hr.history.concat trivial⟩
    · have := hr.read v
      rw [ha] at this
      simp [this, eq_comm]
    · have := hr.exited v
      have hw : m.leaver.wake = .working ↔ m.leaver = .working := by
        cases m.leaver <;> simp [Rendezvous.Leaver.wake]
      simp [this, hw]
    · rw [hpt'] at hn
      simp [Pt.joinsAt] at hn

/-- `JoinUpdate` returns. -/
theorem Meets.parent_done (hm : Meets p c id new s m) (h : s.step l = some s')
    (ht : l.thread = p) {v : ℤ} (ha : m.joiner = .answered v) (hpt : s.pt p = .joinDone id v) :
    ∃ es m', s'.log = s.log ++ es ∧ Meets p c id (new ++ es) s' m' := by
  have hact := (step_act hm.lock.table h).2
  have htc : l.thread ≠ c := fun e => hm.ne (e.symm.trans ht)
  have ho := hm.open_parent h ht (by rw [hpt]; rintro ⟨⟩) (by rw [hpt]; rintro ⟨⟩)
  have hleaver := hm.leaver_other hact htc
  obtain ⟨nm, hb⟩ := step_at_block h (by rw [ht, hpt]; rintro ⟨⟩) (by rw [ht, hpt]; rfl)
  unfold block at hb
  rw [ht, hpt, Option.some.injEq] at hb
  have hpt' : s'.pt p = .user := by rw [← hb, joinReturn, goto_pt, Function.update_self]
  have hr := hm.log
  have hread : Event.joinRead p id v ∈ new := (hr.read v).mpr ha
  have hcode : m.leaver ≠ .working ∧ m.value = v := by
    have hi := hm.inv
    cases hlv : m.leaver <;> simp [Rendezvous.Inv, ha, hlv] at hi <;>
      exact ⟨by rintro ⟨⟩, hi.2.2.symm⟩
  refine ⟨[.joinReturned p id v], m, by rw [← hb]; rfl, hm.lock.step h, hm.inv, hm.ne, hm.nonzero,
    by rw [hpt']; exact ⟨rfl, rfl⟩, ?_, hleaver, ho, ?_⟩
  · rw [hpt', ha]; exact Or.inr rfl
  · refine ⟨by simpa using hr.called, fun w => by simpa using hr.read w,
      fun w => by simpa using hr.exited w, fun w hw _ => ?_, hr.history.concat fun _ => ?_⟩
    · rw [ha, Joiner.answered.injEq] at hw
      simp [hw]
    · exact ⟨(hr.exited v).mpr hcode, hread⟩

/-- A step of the parent. -/
theorem Meets.parent_step (hm : Meets p c id new s m) (h : s.step l = some s')
    (ht : l.thread = p) (hx : ∀ ec, l ≠ .exit p ec)
    (hl : l = .join p id → Event.joinCalled p id ∉ new) :
    ∃ es m', s'.log = s.log ++ es ∧ Meets p c id (new ++ es) s' m' := by
  by_cases hj : (s.pt p).joinsAt id = false
  · by_cases hjl : l = .join p id
    · subst hjl
      have hn := hl rfl
      rw [hm.log.called, ne_eq, not_not] at hn
      exact hm.parent_call h hn
    · obtain ⟨es, hlog, hm'⟩ := hm.parent_elsewhere h ht hx hjl hj
      exact ⟨es, m, hlog, hm'⟩
  · have hat := hm.joiner
    cases hjo : m.joiner with
    | away => rw [hjo] at hat; exact absurd hat hj
    | calling => exact hm.parent_calling h ht hjo
    | waiting => exact hm.parent_waiting h ht (Or.inl hjo)
    | asleep => exact hm.parent_waiting h ht (Or.inr hjo)
    | reading => exact hm.parent_reading h ht hjo
    | answered v =>
      rw [hjo] at hat
      exact hm.parent_done h ht hjo (hat.resolve_right hj)

/-! ### The child -/

/-- A step of the child that leaves the parent where it is. -/
theorem Meets.parent_kept (hm : Meets p c id new s m) (hact : s.Act l s') (ht : l.thread = c) :
    s'.pt p = s.pt p :=
  pt_kept hm.lock.table hact (fun e => hm.ne (ht.symm.trans e.symm)) hm.parent.1

/-- The child does something else, or waits for `multex`. -/
theorem Meets.child_quiet (hm : Meets p c id new s m) (h : s.step l = some s')
    (ht : l.thread = c) (hx : ∀ ec, l ≠ .exit c ec) (h1 : s.pt c ≠ .exitRelease)
    (h2 : s.pt c ≠ .exitWait c) (h3 : s.pt c ≠ .exitRemove)
    (hl : LeaverAt p c (s'.pt c) m.leaver) :
    ∃ es m', s'.log = s.log ++ es ∧ Meets p c id (new ++ es) s' m' := by
  have hact := (step_act hm.lock.table h).2
  have htp : l.thread ≠ p := fun e => hm.ne (ht.symm.trans e)
  have hpt := hm.parent_kept hact ht
  obtain ⟨es, hlog, hes⟩ := hact.events
  refine ⟨es, m, hlog, hm.stutter h (fun e he => (hes e he).aside (fun e => absurd e htp)
    fun _ => ⟨hx, h3⟩) (by rw [hpt]; exact hm.parent) (by rw [hpt]; exact hm.joiner)
    (by rw [hpt]; exact fun h => h) hl fun hf => ?_⟩
  have ho := hm.opened hf
  refine ho.same hm.lock hm.parent.1 h (fun e => h3 e.2) (ho.joinsem_other hact htp fun e => h1 e.2)
    (ho.exitsem_other hm.lock hact htp fun e => h2 e.2) ?_
  rcases hact.exitcode ho.live.1 with e | ⟨ec, rfl⟩
  · exact e
  · exact absurd rfl (hx ec)

/-- The child calls `ExitUpdate`. -/
theorem Meets.child_exit (hm : Meets p c id new s m) {ec : ℤ} (h : s.step (.exit c ec) = some s')
    (ha : m.leaver = .working) :
    ∃ es m', s'.log = s.log ++ es ∧ Meets p c id (new ++ es) s' m' := by
  have ho := hm.opened (by rw [ha]; exact nofun)
  have hact := (step_act hm.lock.table h).2
  have hpt := hm.parent_kept hact rfl
  have hx : (s.pt c).exiting = false := by
    have hl := hm.leaver
    rw [ha] at hl
    exact hl.1
  have hjs := ho.joinsem_other hact hm.ne fun e => by rw [e.2] at hx; cases hx
  have hes := ho.exitsem_other hm.lock hact hm.ne fun e => by rw [e.2] at hx; cases hx
  obtain ⟨hlive, hslot, hcr, hpar⟩ := ho.kept hm.lock.table hm.parent.1 h fun e => by
    rw [e.2] at hx; cases hx
  have halone := ho.alone_step hm.lock hm.parent.1 h
  have hlock := hm.lock.step h
  have hself : s.pcbAt (s.heap c).parentID = some p := by
    rw [ho.parentID]; exact hm.lock.table.pcbAt_self hm.parent.1
  have hactive := step_active h
  cases hact with
  | exitHalt hp h0 =>
    -- slot 0 belongs to the root process
    obtain ⟨hl, hid, _⟩ := hm.lock.table.running c hactive
    rw [h0] at hid
    have hroot := hm.lock.table.root
    exact absurd (hm.lock.table.slot_inj hl hroot.1 (by rw [← hid, hroot.2.1])) hm.nonzero
  | exitFault hp hb => rw [hself] at hb; cases hb
  | @exit t ec b hp hb =>
    rw [hself, Option.some.injEq] at hb
    subst hb
    refine ⟨[.exitCalled c ec], { m with leaver := .leaving, value := ec }, rfl, hlock,
      hm.inv.step (.leave ha ec), hm.ne, hm.nonzero, by rw [hpt]; exact hm.parent,
      by rw [hpt]; exact hm.joiner, ?_, fun _ => ⟨hlive, hslot, hcr, hpar, ?_, ?_, ?_, halone⟩, ?_⟩
    · rw [goto_pt, Function.update_self]; exact Or.inl rfl
    · simp [modify]
    · rw [hjs, ho.joinsem]
    · rw [hes, ho.exitsem, ha]; rfl
    · have hr := hm.log
      rw [hpt]
      refine ⟨by simpa using hr.called, fun v => by simpa using hr.read v, fun v => ?_,
        fun v hv hn => List.mem_append_left _ (hr.returned v hv hn), hr.history.concat trivial⟩
      have := hr.exited v
      rw [ha] at this
      simp [this, eq_comm]

/-- A thread in `ExitUpdate` makes no call. -/
theorem not_exit (h : s.step l = some s') (ht : l.thread = c) (hx : s.pt c ≠ .user) (ec : ℤ) :
    l ≠ .exit c ec := by
  rintro rfl
  unfold step at h
  split_ifs at h
  simp only at h
  rw [if_neg hx] at h
  cases h

/-- The child up to `JoinRelease`. -/
theorem Meets.child_leaving (hm : Meets p c id new s m) (h : s.step l = some s')
    (ht : l.thread = c) (ha : m.leaver = .leaving) :
    ∃ es m', s'.log = s.log ++ es ∧ Meets p c id (new ++ es) s' m' := by
  have ho := hm.opened (by rw [ha]; rintro ⟨⟩)
  have hact := (step_act hm.lock.table h).2
  have htp : l.thread ≠ p := fun e => hm.ne (ht.symm.trans e)
  have hpt := hm.parent_kept hact ht
  have hl := hm.leaver
  rw [ha] at hl
  rcases hl with hc | hc | hc
  · refine hm.child_quiet h ht (not_exit h ht (by rw [hc]; rintro ⟨⟩)) (by rw [hc]; rintro ⟨⟩)
      (by rw [hc]; rintro ⟨⟩) (by rw [hc]; rintro ⟨⟩) ?_
    rw [ha]
    rcases hact.at_wait (by rw [ht, hc]; rfl) with ⟨rfl, _⟩ | ⟨rfl, _⟩ | ⟨rfl, _⟩
    · exact Or.inl hc
    · exact Or.inl hc
    · exact Or.inr (Or.inl (by rw [ht, goto_pt, Function.update_self]))
  · refine hm.child_quiet h ht (not_exit h ht (by rw [hc]; rintro ⟨⟩)) (by rw [hc]; rintro ⟨⟩)
      (by rw [hc]; rintro ⟨⟩) (by rw [hc]; rintro ⟨⟩) ?_
    rw [ha]
    obtain ⟨nm, hb⟩ := step_at_block h (by rw [ht, hc]; rintro ⟨⟩) (by rw [ht, hc]; rfl)
    unfold block at hb
    rw [ht, hc, Option.some.injEq] at hb
    exact Or.inr (Or.inr (by rw [← hb, goto_pt, Function.update_self]))
  · obtain ⟨nm, hb⟩ := step_at_block h (by rw [ht, hc]; rintro ⟨⟩) (by rw [ht, hc]; rfl)
    unfold block at hb
    rw [ht, hc, Option.some.injEq] at hb
    rw [hm.lock.table.pcbAt_self (by rw [hc]; rfl)] at hb
    simp only at hb
    rw [V_eq (show s.freed (.joinsem c) = false from ho.live.2), ho.joinsem] at hb
    obtain ⟨hlive, hslot, hcr, hpar⟩ := ho.kept hm.lock.table hm.parent.1 h fun e => by
      rw [hc] at e; cases e.2
    refine ⟨[], _, by rw [← hb, List.append_nil]; rfl, hm.lock.step h, hm.inv.step (.release ha),
      hm.ne, hm.nonzero, by rw [hpt]; exact hm.parent, ?_, ?_,
      fun _ => ⟨hlive, hslot, hcr, hpar, ?_, ?_, ?_, ho.alone_step hm.lock hm.parent.1 h⟩, ?_⟩
    · rw [hpt]
      have hj := hm.joiner
      cases hjo : m.joiner <;> rw [hjo] at hj <;> exact hj
    · rw [← hb, goto_pt, Function.update_self]; exact Or.inl rfl
    · rw [← hb]; exact ho.exitcode
    · rw [← hb, goto_sems, setSem_sems, Function.update_self, Semaphore.V,
        hm.inv.values.2.2.2 ha]
      cases hjo : m.joiner <;> simp [joinQueue, Rendezvous.Joiner.wake, intSucc]
    · rw [← hb, goto_sems, setSem_sems, Function.update_of_ne (by rintro ⟨⟩), ho.exitsem, ha]
      rfl
    · rw [List.append_nil, hpt]
      have hw : ∀ j : Joiner ℤ, (j.wake = .away ↔ j = .away) ∧
          ∀ v, j.wake = .answered v ↔ j = .answered v := by
        intro j
        cases j <;> simp [Rendezvous.Joiner.wake]
      exact hm.log.silent (hw m.joiner).1 (hw m.joiner).2 (by simp [ha]) rfl fun h => h

/-- The child in `ExitWait`. -/
theorem Meets.child_waiting (hm : Meets p c id new s m) (h : s.step l = some s')
    (ht : l.thread = c) (ha : m.leaver = .waiting ∨ m.leaver = .asleep) :
    ∃ es m', s'.log = s.log ++ es ∧ Meets p c id (new ++ es) s' m' := by
  have ho := hm.opened (by rcases ha with ha | ha <;> rw [ha] <;> exact nofun)
  have hact := (step_act hm.lock.table h).2
  have htp : l.thread ≠ p := fun e => hm.ne (ht.symm.trans e)
  have hpt := hm.parent_kept hact ht
  by_cases hc : s.pt c = .exitP
  · refine hm.child_quiet h ht (not_exit h ht (by rw [hc]; exact nofun)) (by rw [hc]; exact nofun)
      (by rw [hc]; exact nofun) (by rw [hc]; exact nofun) ?_
    obtain ⟨nm, hb⟩ := step_at_block h (by rw [ht, hc]; exact nofun) (by rw [ht, hc]; rfl)
    unfold block at hb
    rw [ht, hc, Option.some.injEq] at hb
    rw [hm.lock.table.pcbAt_self (by rw [hc]; rfl)] at hb
    have hc' : s'.pt c = .exitWait c := by rw [← hb, goto_pt, Function.update_self]
    rcases ha with ha | ha <;> rw [ha, hc']
    · exact Or.inr rfl
    · rfl
  have hc : s.pt c = .exitWait c := by
    have hl := hm.leaver
    rcases ha with ha | ha <;> rw [ha] at hl
    · exact hl.resolve_left hc
    · exact hl
  obtain ⟨hlive, hslot, hcr, hpar⟩ := ho.kept hm.lock.table hm.parent.1 h fun e => by
    rw [hc] at e; cases e.2
  have halone := ho.alone_step hm.lock hm.parent.1 h
  have hcode : (s'.heap c).exitcode = m.value := by
    rcases hact.exitcode ho.live.1 with e | ⟨ec, rfl⟩
    · rw [e, ho.exitcode]
    · exact absurd rfl (not_exit h ht (by rw [hc]; exact nofun) ec)
  have hjoin : s'.sems (.joinsem c) = ⟨m.joinsem, joinQueue p m.joiner⟩ := by
    rw [ho.joinsem_other hact htp (fun e => by rw [hc] at e; cases e.2), ho.joinsem]
  have hwake : c ∉ (s.sems (.exitsem c)).queue → m.leaver = .waiting := by
    intro hq
    rcases ha with ha | ha
    · exact ha
    · rw [ho.exitsem, ha] at hq
      exact absurd List.mem_cons_self hq
  rcases hact.at_wait (by rw [ht, hc]; rfl) with ⟨_, hfr⟩ | ⟨he, hv, hq, _⟩ | ⟨he, hv, hq, _⟩
  · rw [show s.freed (.exitsem c) = false from ho.live.2] at hfr
    cases hfr
  · rw [ht] at hq he
    have hw := hwake hq
    rw [ho.exitsem] at hv he
    have hc' : s'.pt c = .exitWait c := by rw [he, setSem_pt, hc]
    refine ⟨[], { m with leaver := .asleep }, by rw [he, List.append_nil]; rfl, hm.lock.step h,
      hm.inv.step (.exitSleep hw hv), hm.ne, hm.nonzero, by rw [hpt]; exact hm.parent,
      by rw [hpt]; exact hm.joiner, hc', fun _ => ⟨hlive, hslot, hcr, hpar, hcode, hjoin, ?_,
      halone⟩, ?_⟩
    · rw [he, setSem_sems, Function.update_self, hw]
      rfl
    · rw [List.append_nil, hpt]
      exact hm.log.silent Iff.rfl (fun _ => Iff.rfl) (by simp [hw]) rfl fun h => h
  · rw [ht] at hq he
    have hw := hwake hq
    rw [ho.exitsem] at hv he
    have hc' : s'.pt c = .exitRemove := by rw [he, goto_pt, Function.update_self]
    refine ⟨[], { m with leaver := .freeing, exitsem := m.exitsem - 1 },
      by rw [he, List.append_nil]; rfl, hm.lock.step h,
      hm.inv.step (.exitTake hw hv), hm.ne, hm.nonzero, by rw [hpt]; exact hm.parent,
      by rw [hpt]; exact hm.joiner, hc', fun _ => ⟨hlive, hslot, hcr, hpar, hcode, hjoin, ?_,
      halone⟩, ?_⟩
    · rw [he, goto_sems, setSem_sems, Function.update_self, hw,
        intPred_of_nonneg hm.inv.values.2.1]
      rfl
    · rw [List.append_nil, hpt]
      exact hm.log.silent Iff.rfl (fun _ => Iff.rfl) (by simp [hw]) rfl fun h => h

/-- The child removes itself. -/
theorem Meets.child_removing (hm : Meets p c id new s m) (h : s.step l = some s')
    (ht : l.thread = c) (ha : m.leaver = .freeing) :
    ∃ es m', s'.log = s.log ++ es ∧ Meets p c id (new ++ es) s' m' := by
  have ho := hm.opened (by rw [ha]; exact nofun)
  have hact := (step_act hm.lock.table h).2
  have hpt := hm.parent_kept hact ht
  have hc : s.pt c = .exitRemove := by
    have hl := hm.leaver
    rw [ha] at hl
    exact hl
  obtain ⟨nm, hb⟩ := step_at_block h (by rw [ht, hc]; exact nofun) (by rw [ht, hc]; rfl)
  unfold block at hb
  rw [ht, hc, Option.some.injEq, (hm.lock.table.remove_eq hc).2, ho.joinsem, ho.exitsem, ha] at hb
  obtain ⟨v, hj⟩ : ∃ v, m.joiner = .answered v := by
    have hi := hm.inv
    cases hjo : m.joiner <;> simp [Rendezvous.Inv, hjo, ha] at hi
    exact ⟨_, rfl⟩
  rw [hj] at hb
  have hr := hm.log
  refine ⟨[.removed c [] []], { m with leaver := .freed }, by rw [← hb]; rfl, hm.lock.step h,
    hm.inv.step (.free ha), hm.ne, hm.nonzero, by rw [hpt]; exact hm.parent,
    by rw [hpt]; exact hm.joiner, ?_, fun hf => absurd rfl hf, ?_⟩
  · rw [← hb, goto_pt, Function.update_self]
    rfl
  · rw [hpt]
    refine ⟨by simpa using hr.called, fun w => by simpa using hr.read w, fun w => ?_,
      fun w hw hn => List.mem_append_left _ (hr.returned w hw hn), hr.history.concat fun _ => ?_⟩
    · have := hr.exited w
      rw [ha] at this
      simpa using this
    · exact ⟨rfl, rfl, v, (hr.read v).mpr hj⟩

/-- A step of the child. -/
theorem Meets.child_step (hm : Meets p c id new s m) (h : s.step l = some s')
    (ht : l.thread = c) : ∃ es m', s'.log = s.log ++ es ∧ Meets p c id (new ++ es) s' m' := by
  have hactive := step_active h
  rw [ht] at hactive
  have hl := hm.leaver
  cases hlv : m.leaver with
  | working =>
    by_cases hx : ∃ ec, l = .exit c ec
    · obtain ⟨ec, rfl⟩ := hx
      exact hm.child_exit h hlv
    · rw [hlv] at hl
      have hx : ∀ ec, l ≠ .exit c ec := fun ec e => hx ⟨ec, e⟩
      have hstay := (step_act hm.lock.table h).2.staying
      rw [ht] at hstay
      obtain ⟨ha', hx'⟩ := hstay hactive hl.1 hx
      refine hm.child_quiet h ht hx ?_ ?_ ?_ ?_
      · intro e; rw [e] at hl; cases hl.1
      · intro e; rw [e] at hl; cases hl.1
      · intro e; rw [e] at hl; cases hl.1
      · rw [hlv]
        refine ⟨hx', ?_⟩
        intro e
        rw [e] at ha'
        cases ha'
  | leaving => exact hm.child_leaving h ht hlv
  | waiting => exact hm.child_waiting h ht (Or.inl hlv)
  | asleep => exact hm.child_waiting h ht (Or.inr hlv)
  | freeing => exact hm.child_removing h ht hlv
  | freed =>
    rw [hlv] at hl
    rw [hl] at hactive
    cases hactive

/-- Every step of the table is a step of the handshake, or none of it: as long as the parent does
not exit and calls `JoinUpdate` for the slot once. -/
theorem Meets.step (hm : Meets p c id new s m) (h : s.step l = some s')
    (hx : ∀ ec, l ≠ .exit p ec) (hl : l = .join p id → Event.joinCalled p id ∉ new) :
    ∃ es m', s'.log = s.log ++ es ∧ Meets p c id (new ++ es) s' m' := by
  by_cases hp : l.thread = p
  · exact hm.parent_step h hp hx hl
  · by_cases hc : l.thread = c
    · exact hm.child_step h hc
    · obtain ⟨es, hlog, hm'⟩ := hm.other h hp hc
      exact ⟨es, m, hlog, hm'⟩

end Steps

/-! ## Whole runs -/

section Runs

variable {p c id : ℕ} {new : List Event} {s s' : Procs} {m : Rendezvous.State ℤ} {v : ℤ}

/-- The parent does not exit and calls `JoinUpdate` for slot `id` at most once after the first `n`
events. -/
def SingleJoin (p id n : ℕ) (s : Procs) : Label → Prop
  | .exit t _ => t ≠ p
  | .join t i => t = p ∧ i = id → .joinCalled p id ∉ s.log.drop n
  | _ => True

instance (p id n : ℕ) (s : Procs) (l : Label) : Decidable (SingleJoin p id n s l) :=
  match l with
  | .exec _ _ | .run _ _ => isTrue trivial
  | .exit t _ => inferInstanceAs (Decidable (t ≠ p))
  | .join t i => inferInstanceAs (Decidable (t = p ∧ i = id → .joinCalled p id ∉ s.log.drop n))

theorem Meets.run {old : List Event} {ls : List Label} (hm : Meets p c id new s m)
    (hlog : s.log = old ++ new) (ha : Run.Admits Procs.step (SingleJoin p id old.length) s ls)
    (h : Run.exec Procs.step s ls = some s') :
    ∃ new' m', s'.log = old ++ new' ∧ (∀ e ∈ new, e ∈ new') ∧ Meets p c id new' s' m' := by
  induction ls generalizing s new m with
  | nil =>
    rw [Run.exec_nil, Option.some.injEq] at h
    subst h
    exact ⟨new, m, hlog, fun _ he => he, hm⟩
  | cons l ls ih =>
    obtain ⟨s₁, h₁, h₂⟩ := Run.exec_cons_eq_some.mp h
    have hdrop : s.log.drop old.length = new := by rw [hlog, List.drop_left]
    obtain ⟨es, m₁, hlog₁, hm₁⟩ := hm.step h₁ (fun ec e => by
      subst e; exact ha.1 rfl) (fun e => by
      subst e
      have := ha.1 ⟨rfl, rfl⟩
      rwa [hdrop] at this)
    obtain ⟨new', m', h₃, hsub, hm'⟩ := ih hm₁ (by rw [hlog₁, hlog, List.append_assoc])
      (ha.2 s₁ h₁) h₂
    exact ⟨new', m', h₃, fun e he => hsub e (List.mem_append_left _ he), hm'⟩

/-! ### The join returns -/

theorem Meets.leads (hm : Meets p c id new s m) (h : s.Leads s') :
    ∃ new' m', (∃ es, s'.log = s.log ++ es ∧ new' = new ++ es) ∧ Meets p c id new' s' m' := by
  obtain ⟨ls, hrun, he, _⟩ := h
  induction ls generalizing s new m with
  | nil =>
    rw [Run.exec_nil, Option.some.injEq] at he
    subst he
    exact ⟨new, m, ⟨[], by simp, by simp⟩, hm⟩
  | cons l ls ih =>
    obtain ⟨s₁, h₁, h₂⟩ := Run.exec_cons_eq_some.mp he
    obtain ⟨t, nm, rfl⟩ := hrun l List.mem_cons_self
    obtain ⟨es, m₁, hlog₁, hm₁⟩ := hm.step h₁ (fun ec => nofun) nofun
    obtain ⟨new', m', ⟨es', h₃, h₄⟩, hm'⟩ := ih hm₁
      (fun l hl => hrun l (List.mem_cons_of_mem _ hl)) h₂
    exact ⟨new', m', ⟨es ++ es', by rw [h₃, hlog₁, List.append_assoc],
      by rw [h₄, List.append_assoc]⟩, hm'⟩

/-- The scheduler can let the join return `v`. -/
def Answers (p id : ℕ) (v : ℤ) (new : List Event) (s : Procs) : Prop :=
  ∃ s' es, s.Leads s' ∧ s'.log = s.log ++ es ∧ .joinReturned p id v ∈ new ++ es

/-- It is enough to get to a state from where the join returns. -/
theorem Meets.answers_of_leads (hm : Meets p c id new s m) (hv : .exitCalled c v ∈ new)
    (h : s.Leads s') (ha : ∀ new' m', Meets p c id new' s' m' → .exitCalled c v ∈ new' →
      Answers p id v new' s') : Answers p id v new s := by
  obtain ⟨new', m', ⟨es, hlog, rfl⟩, hm'⟩ := hm.leads h
  obtain ⟨s₂, es₂, h₂, hlog₂, hmem⟩ := ha _ m' hm' (List.mem_append_left _ hv)
  exact ⟨s₂, es ++ es₂, h.trans h₂, by rw [hlog₂, hlog, List.append_assoc],
    by rwa [← List.append_assoc]⟩

/-- A block that changes the wait count of `a` and ends with `multex->V()`. -/
theorem step_unlock {t a : ℕ} {f : PCB → PCB} {p : Pt} (hd : s.down = none) (ha : s.Live a)
    (hf : ∀ b, (f b).deleted = b.deleted) (hw : (s.pt t).waits = none)
    (hb : s.block t [] = some (((s.modify a f).V (.multex a)).goto t p)) :
    ∃ q, s.step (.run t []) = some q ∧ q.down = none ∧ q.pt = Function.update s.pt t p := by
  have hfr : (s.modify a f).freed (.multex a) = false := by
    show ((s.modify a f).heap a).deleted = false
    simp [modify, hf, ha.2]
  refine ⟨_, (step_block hd hw).trans hb, ?_, ?_⟩
  · show (Procs.V _ _).down = none
    rw [V_down hfr]
    exact hd
  · rw [goto_pt, V_pt, modify_pt]

theorem Meets.answers_done (hm : Meets p c id new s m) (hv : .exitCalled c v ∈ new)
    (hd : s.down = none) {w : ℤ} (hpt : s.pt p = .joinDone id w) : Answers p id v new s := by
  have hw : w = v := by
    have hval := ((hm.log.exited v).mp hv).2
    have hj := hm.joiner
    have hi := hm.inv
    rw [hpt] at hj
    cases hjo : m.joiner <;> rw [hjo] at hj <;> simp [JoinerAt, Pt.joinsAt] at hj
    rw [← hj] at hjo
    cases hlv : m.leaver <;> simp [Rendezvous.Inv, hjo, hlv] at hi <;> rw [← hval, hi.2.2]
  subst hw
  have hs : s.step (.run p []) = some (s.joinReturn p id w) := by
    rw [step_block hd (by rw [hpt]; rfl)]; unfold block; rw [hpt]
  exact ⟨_, [.joinReturned p id w], .of_step hs hd, rfl, by simp⟩

theorem Meets.answers_reading (hm : Meets p c id new s m) (hv : .exitCalled c v ∈ new)
    (hd : s.down = none) (hpt : s.pt p = .joinRead id) : Answers p id v new s := by
  have hf : m.leaver ≠ .freed := by
    refine hm.inv.not_freed fun w hw => ?_
    have hj := hm.joiner
    rw [hpt, hw] at hj
    simp [JoinerAt, Pt.joinsAt] at hj
  have ho := hm.opened hf
  have hs : s.step (.run p []) = some (s.joinRead p id) := by
    rw [step_block hd (by rw [hpt]; rfl)]; unfold block; rw [hpt]
  have hj : s.joinRead p id = ((s.emit (.joinRead p id (s.heap c).exitcode)).V (.exitsem c)).goto p
      (.joinDone id (s.heap c).exitcode) := by
    unfold Procs.joinRead
    rw [(ho.pcbAt hm.lock.table).mpr rfl]
  have hfr : (s.emit (.joinRead p id (s.heap c).exitcode)).freed (.exitsem c) = false := ho.live.2
  have hd' : (s.joinRead p id).down = none := by
    rw [hj]
    show (Procs.V _ _).down = none
    rw [V_down hfr]
    exact hd
  refine hm.answers_of_leads hv (.of_step hs hd') fun new' m' hm' hv' => ?_
  exact hm'.answers_done hv' hd' (by rw [hj, goto_pt, Function.update_self])

/-- In `JoinWait` after the child's `JoinRelease`. -/
theorem Meets.answers_released (hm : Meets p c id new s m) (hv : .exitCalled c v ∈ new)
    (hd : s.down = none) (hpt : s.pt p = .joinWait id c)
    (hl : m.leaver = .waiting ∨ m.leaver = .asleep) : Answers p id v new s := by
  have ho := hm.opened (by rcases hl with h | h <;> rw [h] <;> exact nofun)
  have hj := hm.joiner
  have hi := hm.inv
  rw [hpt] at hj
  have hopen : m.joiner = .waiting ∧ m.joinsem = 1 := by
    cases hjo : m.joiner <;> rw [hjo] at hj <;> simp [JoinerAt, Pt.joinsAt] at hj <;>
      rcases hl with h | h <;> simp [Rendezvous.Inv, hjo, h] at hi <;> exact ⟨rfl, hi.1⟩
  have hsem := ho.joinsem
  rw [hopen.1, hopen.2] at hsem
  have hs := step_wait hd (by rw [hpt]; rfl) (by rw [hsem]; exact List.not_mem_nil)
    (show s.freed (.joinsem c) = false from ho.live.2) (by rw [hsem]; exact one_ne_zero)
  refine hm.answers_of_leads hv (.of_step hs hd) fun new' m' hm' hv' => ?_
  exact hm'.answers_reading hv' hd (by rw [goto_pt, Function.update_self])

/-- In `JoinWait` with the child right before `JoinRelease`. -/
theorem Meets.answers_release (hm : Meets p c id new s m) (hv : .exitCalled c v ∈ new)
    (hd : s.down = none) (hpt : s.pt p = .joinWait id c) (hc : s.pt c = .exitRelease) :
    Answers p id v new s := by
  have hl := hm.leaver
  rw [hc] at hl
  have hf : m.leaver ≠ .freed := by intro h; rw [h] at hl; cases hl
  have ho := hm.opened hf
  have hs : s.step (.run c []) = some ((s.V (.joinsem c)).goto c .exitP) := by
    rw [step_block hd (by rw [hc]; rfl)]
    unfold block
    rw [hc]
    simp only [hm.lock.table.pcbAt_self (show (s.pt c).active = true by rw [hc]; rfl)]
  have hd' : ((s.V (.joinsem c)).goto c .exitP).down = none := by
    show (s.V _).down = none
    rw [V_down (show s.freed (.joinsem c) = false from ho.live.2), hd]
  refine hm.answers_of_leads hv (.of_step hs hd') fun new' m' hm' hv' => ?_
  refine hm'.answers_released hv' hd' ?_ ?_
  · rw [goto_pt, Function.update_of_ne (Ne.symm hm.ne), V_pt, hpt]
  · have hl' := hm'.leaver
    rw [goto_pt, Function.update_self] at hl'
    cases hlv : m'.leaver <;> rw [hlv] at hl' <;> simp [LeaverAt, Pt.exiting] at hl'
    exact Or.inl rfl

/-- In `JoinWait` with the child in `DecNumWait`. -/
theorem Meets.answers_dec (hm : Meets p c id new s m) (hv : .exitCalled c v ∈ new)
    (hd : s.down = none) (hpt : s.pt p = .joinWait id c) (hc : s.pt c = .exitDec p) :
    Answers p id v new s := by
  have hlive : s.Live p := (hm.lock.table.running p hm.parent.1).1
  obtain ⟨q, hs, hq⟩ := step_unlock hd hlive (f := fun p =>
    { p with numwait := if p.numwait > 0 then p.numwait - 1 else p.numwait }) (fun _ => rfl)
    (show (s.pt c).waits = none by rw [hc]; rfl) (p := .exitRelease) (by unfold block; rw [hc])
  refine hm.answers_of_leads hv (.of_step hs hq.1) fun new' m' hm' hv' => ?_
  refine hm'.answers_release hv' hq.1 ?_ ?_
  · rw [hq.2, Function.update_of_ne (Ne.symm hm.ne), hpt]
  · rw [hq.2, Function.update_self]

/-- In `JoinWait` after the child's call of `ExitUpdate`. -/
theorem Meets.answers_waiting (hm : Meets p c id new s m) (hv : .exitCalled c v ∈ new)
    (hd : s.down = none) (hpt : s.pt p = .joinWait id c) : Answers p id v new s := by
  have hlive : s.Live p := (hm.lock.table.running p hm.parent.1).1
  have hwork := ((hm.log.exited v).mp hv).1
  have hl := hm.leaver
  have hj := hm.joiner
  have hi := hm.inv
  rw [hpt] at hj
  cases hlv : m.leaver with
  | working => exact absurd hlv hwork
  | waiting => exact hm.answers_released hv hd hpt (Or.inl hlv)
  | asleep => exact hm.answers_released hv hd hpt (Or.inr hlv)
  | freeing | freed =>
    -- the parent would have its answer
    cases hjo : m.joiner <;> rw [hjo] at hj <;> simp [JoinerAt, Pt.joinsAt] at hj <;>
      simp [Rendezvous.Inv, hjo, hlv] at hi
  | leaving =>
    rw [hlv] at hl
    rcases hl with hc | hc | hc
    · obtain ⟨s₁, h₁, hc₁, hap⟩ := hm.lock.acquire hd hlive
        (show (s.pt c).waits = some (.multex p, .exitDec p) by rw [hc]; rfl)
      have hpt₁ : s₁.pt p = .joinWait id c := by
        rw [hap p ⟨by rw [hpt]; rfl, by rw [hpt]; rintro ⟨⟩, by rw [hpt]; rintro ⟨⟩⟩, hpt]
      exact hm.answers_of_leads hv h₁ fun new' m' hm' hv' =>
        hm'.answers_dec hv' h₁.down hpt₁ hc₁
    · exact hm.answers_dec hv hd hpt hc
    · exact hm.answers_release hv hd hpt hc

/-- From every place in `JoinUpdate`. -/
theorem Meets.answers (hm : Meets p c id new s m) (hv : .exitCalled c v ∈ new)
    (hd : s.down = none) (hcalled : .joinCalled p id ∈ new) : Answers p id v new s := by
  have hlive : s.Live p := (hm.lock.table.running p hm.parent.1).1
  have hP : ∀ new s m, Meets p c id new s m → .exitCalled c v ∈ new → s.down = none →
      s.pt p = .joinP id → Answers p id v new s := by
    intro new s m hm hv hd hpt
    have ho := hm.opened (hm.inv.not_freed fun w hw => by
      have hj := hm.joiner
      rw [hpt, hw] at hj
      simp [JoinerAt, Pt.joinsAt] at hj)
    have hs : s.step (.run p []) = some (s.goto p (.joinWait id c)) := by
      rw [step_block hd (by rw [hpt]; rfl)]
      unfold block
      rw [hpt]
      simp only [(ho.pcbAt hm.lock.table).mpr rfl]
    refine hm.answers_of_leads hv (.of_step hs hd) fun new' m' hm' hv' => ?_
    exact hm'.answers_waiting hv' hd (by rw [goto_pt, Function.update_self])
  have hInc : ∀ new s m, Meets p c id new s m → .exitCalled c v ∈ new → s.down = none →
      s.pt p = .joinInc id p → Answers p id v new s := by
    intro new s m hm hv hd hpt
    obtain ⟨q, hs, hq⟩ := step_unlock hd (hm.lock.table.running p hm.parent.1).1
      (f := fun p => { p with numwait := p.numwait + 1 }) (fun _ => rfl)
      (show (s.pt p).waits = none by rw [hpt]; rfl) (p := .joinP id) (by unfold block; rw [hpt])
    refine hm.answers_of_leads hv (.of_step hs hq.1) fun new' m' hm' hv' => ?_
    exact hP new' q m' hm' hv' hq.1 (by rw [hq.2, Function.update_self])
  have hj := hm.joiner
  cases hjo : m.joiner with
  | away => exact absurd hjo (hm.log.called.mp hcalled)
  | calling =>
    rw [hjo] at hj
    rcases hj with hpt | hpt | hpt
    · obtain ⟨s₁, h₁, hpt₁, -⟩ := hm.lock.acquire hd hlive
        (show (s.pt p).waits = some (.multex p, .joinInc id p) by rw [hpt]; rfl)
      exact hm.answers_of_leads hv h₁ fun new' m' hm' hv' => hInc new' s₁ m' hm' hv' h₁.down hpt₁
    · exact hInc new s m hm hv hd hpt
    · exact hP new s m hm hv hd hpt
  | waiting | asleep => rw [hjo] at hj; exact hm.answers_waiting hv hd hj
  | reading => rw [hjo] at hj; exact hm.answers_reading hv hd hj
  | answered w =>
    rw [hjo] at hj
    rcases hj with hpt | hout
    · exact hm.answers_done hv hd hpt
    · -- it has returned already
      have hval := ((hm.log.exited v).mp hv).2
      have hi := hm.inv
      have hw : w = v := by
        cases hlv : m.leaver <;> simp [Rendezvous.Inv, hjo, hlv] at hi <;> rw [← hval, hi.2.2]
      subst hw
      exact ⟨s, [], .refl hd, by simp, by simpa using hm.log.returned w hjo hout⟩

/-- Nobody in `JoinUpdate` for slot `id` has a look at `pcb[id]` ahead, other than in `JoinWait`. -/
def NoJoiner (s : Procs) (id : ℤ) : Prop :=
  ∀ u, (∀ b, s.pt u ≠ .joinIncP id b) ∧ (∀ b, s.pt u ≠ .joinInc id b) ∧ s.pt u ≠ .joinP id ∧
    s.pt u ≠ .joinRead id

theorem Act.created {l : Label} (h : s.Act l s')
    (hlog : s'.log = s.log ++ [Event.created p c id]) : l.thread = p ∧ c = s.next ∧
      ∃ name, s' = (({ s with bm := s.bm.mark id }.newPCB p id name).emit (.created p c id)).goto p
        (.execMultexP c id) := by
  cases h with
  | @create t nm slot name hp hlt hc =>
    have he : Event.created t s.next slot = .created p c id := by
      simpa using List.append_cancel_left hlog
    cases he
    exact ⟨rfl, rfl, name, rfl⟩
  | _ => simp [joinReturn, execReturn, execFork] at hlog

/-- `ExecUpdate` has created the child. -/
theorem meets_created {l : Label} (hi : s.LockInv) (h : s.step l = some s')
    (hlog : s'.log = s.log ++ [Event.created p c id]) (hn : s.NoJoiner id) :
    Meets p c id [] s' (Rendezvous.start 0) := by
  obtain ⟨ht, hc, name, he⟩ := (step_act hi.table h).2.created hlog
  have hactive := step_active h
  rw [ht] at hactive
  have hlt : p < s.next := (hi.table.running p hactive).1.1
  have hroot := hi.table.root.1.1
  have hne : c ≠ p := by omega
  have hpt : s'.pt = Function.update s.pt p (.execMultexP c id) := by rw [he]; rfl
  have hun : s'.pt c = .unborn := by
    rw [hpt, Function.update_of_ne hne, hc]
    exact hi.table.unborn s.next (le_refl _)
  have hheap : s'.heap c = { exitcode := 0, numwait := 0, filename := name, thread := none
                             parentID := s.processID p, deleted := false, creator := p
                             slot := id } := by
    rw [he, hc]; simp [newPCB]
  have hpid : s'.processID = s.processID := by rw [he]; rfl
  refine ⟨hi.step h, Rendezvous.inv_start 0, hne, by omega, ?_, ?_, ?_,
    fun _ => ⟨⟨?_, ?_⟩, ?_, ?_, ?_, ?_, ?_, ?_, fun u hu => ?_⟩, ?_⟩
  · rw [hpt, Function.update_self]; exact ⟨rfl, rfl⟩
  · rw [hpt, Function.update_self]; rfl
  · rw [hun]; exact ⟨rfl, by rintro ⟨⟩⟩
  · rw [he, hc]; exact Nat.lt_succ_self _
  · rw [hheap]
  · rw [hheap]
  · rw [hheap]
  · rw [hheap, hpid]
  · rw [hheap]; rfl
  · rw [he, hc]; simp [newPCB]; rfl
  · rw [he, hc]; simp [newPCB]; rfl
  · obtain ⟨h1, h2, h3, h4⟩ := hn u
    have hpoint := hi.points u
    rw [hpt, Function.update_of_ne hu]
    cases hu : s.pt u <;> rw [hu] at h1 h2 h3 h4 hpoint <;> simp [Pt.intrudes] at *
    · exact h1
    · exact h2
    · exact h3
    · have := hpoint.1; omega
    · exact h4
  · refine ⟨by simp [Rendezvous.start], by simp [Rendezvous.start], by simp [Rendezvous.start],
      by rintro _ ⟨⟩, Run.justified_nil _⟩

/-- The child's exit code reaches the parent, with the events `new` since the child was created. -/
structure Handshake (p c id : ℕ) (new : List Event) (s : Procs) : Prop where
  /-- `JoinUpdate` returns what the child has passed to `ExitUpdate` before, and the child is
  removed, with nobody on its semaphores, after the parent has read it. -/
  ordered : Run.Justified (Orderly p c id) new
  /-- Until then the slot is the child's. -/
  kept : (∀ v, .joinRead p id v ∉ new) →
    s.bm.test id = true ∧ s.pcb id = some c ∧ (s.heap c).deleted = false
  /-- After both calls `JoinUpdate` can return, and only with the child's exit code. -/
  returns : ∀ ec, .exitCalled c ec ∈ new → (∀ v, .joinReturned p id v ∈ new → v = ec) ∧
    (.joinCalled p id ∈ new → s.down = none → Answers p id ec new s)

/-- **The handshake of join and exit.** If nobody is left in a join of the slot when `ExecUpdate`
gives it to the child `c`, then in every run in which the parent `p` does not exit and joins the
slot once, the child's exit code reaches the parent. -/
theorem join_exit_handshake {s₁ s₀ : Procs} {l : Label} {ls : List Label}
    (hr : Run.Reach step Init s₁) (hstep : s₁.step l = some s₀)
    (hcr : s₀.log = s₁.log ++ [.created p c id]) (hn : s₁.NoJoiner id)
    (ha : Run.Admits step (SingleJoin p id s₀.log.length) s₀ ls)
    (h : Run.exec step s₀ ls = some s) :
    ∃ new, s.log = s₀.log ++ new ∧ Handshake p c id new s := by
  have hm₀ := meets_created (lockInv_reach hr) hstep hcr hn
  obtain ⟨new, m, hlog, -, hm⟩ := hm₀.run (List.append_nil _).symm ha h
  refine ⟨new, hlog, hm.log.history, fun hnr => ?_, fun ec hec => ⟨fun v hv => ?_, fun hc hd => ?_⟩⟩
  · have hf : m.leaver ≠ .freed := hm.inv.not_freed fun v hv => hnr v ((hm.log.read v).mpr hv)
    have ho := hm.opened hf
    obtain ⟨_, h1, h2⟩ := hm.lock.table.own c ho.live
    rw [ho.slot] at h1 h2
    exact ⟨h2, h1, ho.live.2⟩
  · obtain ⟨past, hsub, hq⟩ := hm.log.history.of_mem hv
    have hv' := hsub _ (hq ⟨rfl, rfl⟩).1
    rw [← ((hm.log.exited v).mp hv').2, ((hm.log.exited ec).mp hec).2]
  · exact hm.answers hec hd hc

end Runs

/-- The root executes processes 1 and 2. Process 2 exits; the root joins it, and joins it once more
before it is removed. Process 1 is about to get the slot for a process of its own. -/
def thiefRun : List Label :=
  execRun 0 65 ++ execRun 0 66 ++ .exit 2 0 :: runs 2 5 ++ .join 0 2 :: runs 0 6 ++
    .join 0 2 :: runs 0 1 ++ runs 2 2 ++ .exec 1 (some [67]) :: runs 1 1

/-- The root comes to `JoinWait` first, then process 1 with its own join. Process 3 exits with 7. -/
def stolenRun : List Label :=
  runs 1 4 ++ runs 0 3 ++ .join 1 2 :: runs 1 4 ++ .exit 3 7 :: runs 3 5 ++ runs 0 2 ++ runs 3 2

/-- The root gets the exit code of process 3, which is removed while its parent sleeps on
`joinsem`. -/
theorem join_stolen_by_old_joiner :
    ∃ s₁ s₀ s : Procs, Run.Reach step Init s₁ ∧ s₁.step (.run 1 []) = some s₀ ∧
      s₀.log = s₁.log ++ [.created 1 3 2] ∧
      Run.Admits step (SingleJoin 1 2 s₀.log.length) s₀ stolenRun ∧
      Run.exec step s₀ stolenRun = some s ∧
      ¬ ∃ new, s.log = s₀.log ++ new ∧ Handshake 1 3 2 new s := by
  have h : (Run.exec step (initial fun _ => 0) thiefRun).any fun s₁ =>
      (s₁.step (.run 1 [])).any fun s₀ => decide (s₀.log = s₁.log ++ [.created 1 3 2]) &&
        Run.admitted step (SingleJoin 1 2 s₀.log.length) s₀ stolenRun &&
        (Run.exec step s₀ stolenRun).any fun s =>
          decide (.removed 3 [1] [] ∈ s.log.drop s₀.log.length) := by
    decide +kernel
  obtain ⟨s₁, h₁, h⟩ := (Option.any_eq_true _ _).mp h
  obtain ⟨s₀, h₀, h⟩ := (Option.any_eq_true _ _).mp h
  obtain ⟨h, he⟩ := Bool.and_eq_true_iff.mp h
  obtain ⟨hlog, hadm⟩ := Bool.and_eq_true_iff.mp h
  obtain ⟨s, hs, hrem⟩ := (Option.any_eq_true _ _).mp he
  refine ⟨s₁, s₀, s, ⟨_, _, ⟨_, rfl⟩, h₁⟩, h₀, of_decide_eq_true hlog,
    Run.admits_of_admitted hadm, hs, ?_⟩
  rintro ⟨new, hnew, hok⟩
  have hrem := of_decide_eq_true hrem
  rw [hnew, List.drop_left] at hrem
  obtain ⟨past, -, hpast⟩ := hok.ordered.of_mem hrem
  cases (hpast rfl).1

/-- The root creates process 1, joins it, and gets its exit code. -/
theorem join_exit_handshake_child :
    ∃ s₁ s₀ s : Procs, s₁.step (.run 0 []) = some s₀ ∧ Run.exec step s₀
        (runs 0 4 ++ .join 0 1 :: runs 0 4 ++ .exit 1 7 :: runs 1 5 ++ runs 0 3 ++ runs 1 2) =
          some s ∧
      Handshake 0 1 1 (s.log.drop s₀.log.length) s ∧
        .joinReturned 0 1 7 ∈ s.log.drop s₀.log.length := by
  have h : (Run.exec step (initial fun _ => 0) (.exec 0 (some [65]) :: runs 0 1)).any fun s₁ =>
      (s₁.step (.run 0 [])).any fun s₀ => decide (s₀.log = s₁.log ++ [.created 0 1 1]) &&
        decide (s₁.pt 0 = .execBody (some [65]) ∧ s₁.next = 1) &&
        Run.admitted step (SingleJoin 0 1 s₀.log.length) s₀ (runs 0 4 ++ .join 0 1 :: runs 0 4 ++
          .exit 1 7 :: runs 1 5 ++ runs 0 3 ++ runs 1 2) &&
        (Run.exec step s₀ (runs 0 4 ++ .join 0 1 :: runs 0 4 ++ .exit 1 7 :: runs 1 5 ++
          runs 0 3 ++ runs 1 2)).any fun s =>
            decide (.joinReturned 0 1 7 ∈ s.log.drop s₀.log.length) := by
    decide +kernel
  obtain ⟨s₁, h₁, h⟩ := (Option.any_eq_true _ _).mp h
  obtain ⟨s₀, h₀, h⟩ := (Option.any_eq_true _ _).mp h
  obtain ⟨h, he⟩ := Bool.and_eq_true_iff.mp h
  obtain ⟨h, hadm⟩ := Bool.and_eq_true_iff.mp h
  obtain ⟨hlog, h⟩ := Bool.and_eq_true_iff.mp h
  obtain ⟨hpt, hnext⟩ := of_decide_eq_true h
  obtain ⟨s, hs, hret⟩ := (Option.any_eq_true _ _).mp he
  have hr : Run.Reach step Init s₁ := ⟨_, _, ⟨_, rfl⟩, h₁⟩
  have hn : s₁.NoJoiner 1 := by
    intro u
    rcases Nat.eq_zero_or_pos u with rfl | hu
    · rw [hpt]; exact ⟨nofun, nofun, nofun, nofun⟩
    · rw [(lockInv_reach hr).table.unborn u (by omega)]; exact ⟨nofun, nofun, nofun, nofun⟩
  obtain ⟨new, hnew, hok⟩ := join_exit_handshake hr h₀ (of_decide_eq_true hlog) hn
    (Run.admits_of_admitted hadm) hs
  have hdrop : s.log.drop s₀.log.length = new := by rw [hnew, List.drop_left]
  exact ⟨s₁, s₀, s, h₀, hs, hdrop ▸ hok, of_decide_eq_true hret⟩

end Procs

end Nachos
