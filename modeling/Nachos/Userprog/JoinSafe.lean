import Nachos.Userprog.Handshake

/-!
# What `JoinUpdate` reads

`JoinUpdate` checks the range of `id`, one index too far, and then reads `pcb[id]->parentID` whatever
the slot holds: nothing, the stale pointer of a removed process, or a process whose parent link
leads to the slot of the caller without being its child. `JoinOk` is what has to hold of the caller
and `id` for the checks to be safe and to do what they are for (`joinSafe_iff`).

After the checks `JoinUpdate` waits, and reads `pcb[id]` twice more. In runs in which every join is
of such an `id`, and of a child that has not been released by an earlier join, what it finds there
is the child, in use (`looksAtLive_of_reachBy`).
-/

namespace Nachos

/-- The slot of a thread in `JoinUpdate` that has passed the checks and has not read the exit
code. -/
def Pt.looks : Pt → Option ℤ
  | .joinIncP id _ | .joinInc id _ | .joinP id | .joinWait id _ | .joinRead id => some id
  | _ => none

namespace Procs

/-! ## The checks -/

/-- The indices of `pcb` that the checks of `JoinUpdate` read; the `PCB` there is dereferenced. -/
def joinReads (s : Procs) (t : ℕ) (id : ℤ) : List ℤ :=
  if id < 0 ∨ id > maxProcess then []
  else id ::
    match s.pcbAt id with
    | none => []
    | some a =>
      if (s.processID t : ℤ) ≠ (s.heap a).parentID then [] else [(s.heap a).parentID]

/-- The index is one of the array, and the `PCB` there is in use. -/
def ReadsLive (s : Procs) (i : ℤ) : Prop := ∃ a, s.pcbAt i = some a ∧ s.Live a

/-- `id` is the identifier of a process in use that `t` has created. -/
def LiveChild (s : Procs) (t : ℕ) (id : ℤ) : Prop :=
  ∃ a, s.pcbAt id = some a ∧ s.Live a ∧ a ≠ 0 ∧ (s.heap a).creator = t

/-- `JoinUpdate` has returned -1 to `t` and changed nothing. -/
structure Rejected (s : Procs) (t : ℕ) (id : ℤ) (s' : Procs) : Prop where
  down : s'.down = s.down
  back : s'.pt = Function.update s.pt t .user
  returned : ∃ es, s'.log = s.log ++ es ++ [.joinReturned t id (-1)]
  sems : s'.sems = s.sems
  heap : s'.heap = s.heap
  pcb : s'.pcb = s.pcb
  bm : s'.bm = s.bm

/-- The call is safe, and refused unless it is for a child. -/
def JoinSafe (s : Procs) (t : ℕ) (id : ℤ) : Prop :=
  (∀ i ∈ s.joinReads t id, s.ReadsLive i) ∧
    (¬ s.LiveChild t id → s.Rejected t id (s.joinUpdate t id))

/-- `id` is out of range, or names a process in use that is a child of the caller if its parent
link leads to the caller's slot. -/
def JoinOk (s : Procs) (t : ℕ) (id : ℤ) : Prop :=
  id < 0 ∨ id > maxProcess ∨ ∃ a, s.pcbAt id = some a ∧ s.Live a ∧
    ((s.heap a).parentID = s.processID t → a ≠ 0 ∧ (s.heap a).creator = t)

section Checks

variable {s : Procs} {t : ℕ} {id : ℤ}

theorem rejected_joinReturn (s : Procs) (t : ℕ) (id : ℤ) (m : Report) :
    s.Rejected t id (((s.emit (.joinCalled t id)).emit (.printed m)).joinReturn t id (-1)) :=
  ⟨rfl, rfl, ⟨[.joinCalled t id, .printed m], by simp [joinReturn]⟩, rfl, rfl, rfl, rfl⟩

theorem joinUpdate_out_of_range (h : id < 0 ∨ id > maxProcess) :
    s.Rejected t id (s.joinUpdate t id) := by
  unfold joinUpdate
  rw [if_pos h]
  exact rejected_joinReturn s t id _

theorem joinUpdate_not_parent (h : ¬ (id < 0 ∨ id > maxProcess)) {a : ℕ} (ha : s.pcbAt id = some a)
    (hne : (s.processID t : ℤ) ≠ (s.heap a).parentID) : s.Rejected t id (s.joinUpdate t id) := by
  have ha' : (s.emit (.joinCalled t id)).pcbAt id = some a := ha
  have hne' : ((s.emit (.joinCalled t id)).processID t : ℤ) ≠
      ((s.emit (.joinCalled t id)).heap a).parentID := hne
  unfold joinUpdate
  simp only [if_neg h, ha', if_pos hne']
  exact rejected_joinReturn s t id _

/-- A caller that passes the check goes on to `IncNumWait`, in its own `PCB`. -/
theorem joinUpdate_parent (hi : s.TableInv) (ht : s.pt t = .user)
    (h : ¬ (id < 0 ∨ id > maxProcess)) {a : ℕ} (ha : s.pcbAt id = some a)
    (heq : (s.heap a).parentID = s.processID t) :
    s.joinUpdate t id = (s.emit (.joinCalled t id)).goto t (.joinIncP id t) := by
  have ha' : (s.emit (.joinCalled t id)).pcbAt id = some a := ha
  have heq' : ((s.emit (.joinCalled t id)).heap a).parentID =
      (s.emit (.joinCalled t id)).processID t := heq
  have hself : (s.emit (.joinCalled t id)).pcbAt ((s.emit (.joinCalled t id)).processID t) =
      some t := hi.pcbAt_self (by rw [ht]; rfl)
  unfold joinUpdate
  simp only [if_neg h, ha', heq', ne_eq, not_true_eq_false, if_false, hself]

theorem joinSafe_iff (hi : s.TableInv) (ht : s.pt t = .user) :
    s.JoinSafe t id ↔ s.JoinOk t id := by
  have hself : s.pcbAt (s.processID t) = some t := hi.pcbAt_self (by rw [ht]; rfl)
  have hlive : s.Live t := (hi.running t (by rw [ht]; rfl)).1
  unfold JoinSafe JoinOk joinReads
  by_cases hr : id < 0 ∨ id > maxProcess
  · rw [if_pos hr]
    refine ⟨fun _ => hr.imp_right Or.inl, fun _ => ⟨fun i hi => absurd hi List.not_mem_nil, ?_⟩⟩
    exact fun _ => joinUpdate_out_of_range hr
  · rw [if_neg hr]
    constructor
    · rintro ⟨hreads, hreject⟩
      obtain ⟨a, ha, hla⟩ := hreads id List.mem_cons_self
      refine Or.inr (Or.inr ⟨a, ha, hla, fun heq => ?_⟩)
      by_contra hno
      have hnot : ¬ s.LiveChild t id := by
        rintro ⟨a', ha', -, hchild⟩
        rw [ha, Option.some.injEq] at ha'
        exact hno (ha' ▸ hchild)
      have hback := (hreject hnot).back
      rw [joinUpdate_parent hi ht hr ha heq] at hback
      have := congrFun hback t
      rw [goto_pt, emit_pt, Function.update_self, Function.update_self] at this
      cases this
    · rintro (h | h | ⟨a, ha, hla, hchild⟩)
      · exact absurd (Or.inl h) hr
      · exact absurd (Or.inr h) hr
      simp only [ha]
      by_cases heq : (s.heap a).parentID = s.processID t
      · rw [heq, if_neg (not_not.mpr rfl)]
        refine ⟨fun i hmem => ?_, fun hno => absurd ⟨a, ha, hla, hchild heq⟩ hno⟩
        rcases List.mem_cons.mp hmem with rfl | hmem
        · exact ⟨a, ha, hla⟩
        · rw [List.mem_singleton.mp hmem]
          exact ⟨t, hself, hlive⟩
      · rw [if_pos (Ne.symm heq)]
        refine ⟨fun i hmem => ?_, fun _ => joinUpdate_not_parent hr ha (Ne.symm heq)⟩
        rw [List.mem_singleton.mp hmem]
        exact ⟨a, ha, hla⟩

end Checks

/-! ## After the checks -/

/-- No join has let the process go on to `Remove`. -/
def Unreleased (s : Procs) (a : ℕ) : Prop :=
  (s.sems (.exitsem a)).value = 0 ∧ s.pt a ≠ .exitRemove

/-- Every join is safe, and of a child that has not been released. -/
def JoinsOk (s : Procs) : Label → Prop
  | .join t id => s.JoinOk t id ∧
      ∀ a, s.pcbAt id = some a → (s.heap a).parentID = s.processID t → s.Unreleased a
  | _ => True

/-- What the thread reads next in `JoinUpdate` is in use. -/
def LooksAtLive (s : Procs) : Pt → Prop
  | .joinIncP _ b | .joinInc _ b => s.Live b
  | .joinP id | .joinRead id => s.ReadsLive id
  | .joinWait _ a => s.Live a
  | _ => True

/-- `a` is the child of `t` in slot `id`, and has not been released. -/
structure Child (s : Procs) (t : ℕ) (id : ℤ) (a : ℕ) : Prop where
  pcb : s.pcbAt id = some a
  live : s.Live a
  creator : (s.heap a).creator = t
  unreleased : s.Unreleased a

/-- A thread that looks at a slot joins its child there. -/
def JoinInv (s : Procs) : Prop := ∀ t id, (s.pt t).looks = some id →
  ∃ a, s.Child t id a ∧ ∀ b, s.pt t = .joinWait id b → b = a

section Steps

variable {s s' : Procs} {l : Label} {a : ℕ}

/-- The way to `Remove` is through `exitsem`. -/
theorem Act.to_remove (h : s.Act l s') (hp : s'.pt l.thread = .exitRemove)
    (hne : s.pt l.thread ≠ .exitRemove) :
    ∃ b, s.pt l.thread = .exitWait b ∧ (s.sems (.exitsem b)).value ≠ 0 := by
  cases h with
  | @take t nm r next hw hq hf hv =>
    simp only [Label.thread] at hp hne ⊢
    rw [goto_pt, Function.update_self] at hp
    cases hpt : s.pt t <;> rw [hpt] at hw <;> simp only [Pt.waits, reduceCtorEq,
      Option.some.injEq, Prod.mk.injEq] at hw <;> obtain ⟨rfl, rfl⟩ := hw <;> try cases hp
    exact ⟨_, rfl, hv⟩
  | joinFault | exitHalt | exitFault | fault | sleep | joinPFault | joinReadFault =>
    exact absurd hp hne
  | _ => simp [Label.thread, joinReturn, execReturn, execFork] at hp

/-- After `GetExitCode` a thread has left the part of `JoinUpdate` that looks at the child. -/
theorem Act.read (h : s.Act l s') {id : ℤ} (hp : s.pt l.thread = .joinRead id)
    (ha : s.pcbAt id = some a) : (s'.pt l.thread).looks = none := by
  cases h with
  | fault hw | sleep hw | take hw =>
    simp only [Label.thread] at hp
    rw [hp] at hw
    cases hw
  | @joinRead t nm j b hpt hb =>
    simp [Label.thread, Pt.looks]
  | @joinReadFault t nm j hpt hb =>
    simp only [Label.thread] at hp
    rw [hp] at hpt
    cases hpt
    rw [ha] at hb
    cases hb
  | _ => simp_all [Label.thread]

/-- A thread that looks at a slot after its step looked at it before, or passes the checks. -/
theorem Act.looks (h : s.Act l s') {id : ℤ} (hp : (s'.pt l.thread).looks = some id) :
    (s.pt l.thread).looks = some id ∨
      l = .join l.thread id ∧ ∃ a, s.pcbAt id = some a ∧
        (s.heap a).parentID = s.processID l.thread ∧ s'.pt l.thread = .joinIncP id l.thread := by
  cases h with
  | @join t j a hpt ha hpar =>
    simp only [Label.thread] at hp ⊢
    rw [goto_pt, Function.update_self] at hp ⊢
    obtain rfl := Option.some.inj hp
    exact Or.inr ⟨rfl, a, ha, hpar, rfl⟩
  | @take t nm r next hw hq hf hv =>
    refine Or.inl ?_
    simp only [Label.thread] at hp ⊢
    rw [goto_pt, Function.update_self] at hp
    cases hpt : s.pt t <;> rw [hpt] at hw <;> simp only [Pt.waits, reduceCtorEq,
      Option.some.injEq, Prod.mk.injEq] at hw <;> obtain ⟨rfl, rfl⟩ := hw <;> exact hp
  | joinInc hpt | joinP hpt =>
    refine Or.inl ?_
    simp only [Label.thread] at hp ⊢
    rw [goto_pt, Function.update_self] at hp
    rw [hpt]
    exact hp
  | joinFault | exitHalt | exitFault | fault | sleep | joinPFault | joinReadFault =>
    exact Or.inl hp
  | _ => simp [Label.thread, joinReturn, execReturn, execFork, Pt.looks] at hp

/-- A thread comes to `JoinWait` for what it finds in the slot. -/
theorem Act.to_wait (h : s.Act l s') {id : ℤ} {b : ℕ} (hp : s'.pt l.thread = .joinWait id b) :
    s.pt l.thread = .joinWait id b ∨ s.pcbAt id = some b := by
  cases h with
  | @take t nm r next hw hq hf hv =>
    simp only [Label.thread] at hp ⊢
    rw [goto_pt, Function.update_self] at hp
    cases hpt : s.pt t <;> rw [hpt] at hw <;> simp only [Pt.waits, reduceCtorEq,
      Option.some.injEq, Prod.mk.injEq] at hw <;> obtain ⟨rfl, rfl⟩ := hw <;> cases hp
  | @joinP t nm j a hpt ha =>
    simp only [Label.thread] at hp ⊢
    rw [goto_pt, Function.update_self] at hp
    cases hp
    exact Or.inr ha
  | joinFault | exitHalt | exitFault | fault | sleep | joinPFault | joinReadFault =>
    exact Or.inl hp
  | _ => simp [Label.thread, joinReturn, execReturn, execFork] at hp

/-- Only a join releases a process. -/
theorem Unreleased.kept (hi : s.LockInv) (h : s.Act l s') (ha : s.Live a) (hu : s.Unreleased a)
    (hno : ∀ id, s.pt l.thread = .joinRead id → s.pcbAt id ≠ some a) : s'.Unreleased a := by
  obtain ⟨hzero, hne⟩ := hu
  constructor
  · rcases h.exitsem ha.1 with hsem | hwait | ⟨id, hread, hpcb⟩
    · rw [hsem, hzero]
    · obtain ⟨next, hw⟩ := Pt.waits_of_waitsFor hwait
      rcases h.at_wait hw with ⟨rfl, -⟩ | ⟨rfl, -⟩ | ⟨-, hpos, -⟩
      · exact hzero
      · rw [setSem_sems, Function.update_self]
        exact hzero
      · exact absurd hzero hpos
    · exact absurd hpcb (hno id hread)
  · intro hrem
    by_cases hal : a = l.thread
    · subst hal
      obtain ⟨b, hwait, hpos⟩ := h.to_remove hrem hne
      have hpoint := hi.points l.thread
      rw [hwait] at hpoint
      obtain rfl : b = l.thread := hpoint
      exact hpos hzero
    · rcases h.pt_others hal with hpt | ⟨-, -, hpt⟩
      · exact hne (hpt ▸ hrem)
      · rw [hpt] at hrem
        cases hrem

theorem Child.kept {t : ℕ} {id : ℤ} (hc : s.Child t id a) (hi : s.LockInv)
    (h : s.step l = some s') (hno : ∀ i, s.pt l.thread = .joinRead i → s.pcbAt i ≠ some a) :
    s'.Child t id a := by
  obtain ⟨hlive, hslot, hcreator, -⟩ := hi.table.kept h hc.live fun hr => hc.unreleased.2 hr.2
  refine ⟨?_, hlive, hcreator.trans hc.creator,
    hc.unreleased.kept hi (step_act hi.table h).2 hc.live hno⟩
  have hown := (hi.table.step h).pcbAt_own hlive
  rwa [hslot, (hi.table.pcbAt_eq hc.pcb).2] at hown

theorem JoinInv.step (hj : s.JoinInv) (hi : s.LockInv) (hok : s.JoinsOk l)
    (h : s.step l = some s') : s'.JoinInv := by
  have hact := (step_act hi.table h).2
  intro t id hlooks
  by_cases ht : t = l.thread
  · subst ht
    -- the step itself does not release the child: after `GetExitCode` the thread looks no more
    have hno : ∀ a i, s.pt l.thread = .joinRead i → s.pcbAt i ≠ some a := by
      intro a i hread hpcb
      rw [hact.read hread hpcb] at hlooks
      cases hlooks
    rcases hact.looks hlooks with hbefore | ⟨hl, a, ha, hpar, hpt⟩
    · obtain ⟨a, hc, hwaits⟩ := hj l.thread id hbefore
      refine ⟨a, hc.kept hi h (hno a), fun b hb => ?_⟩
      rcases hact.to_wait hb with hold | hb'
      · exact hwaits b hold
      · exact Option.some.inj (hb'.symm.trans hc.pcb)
    · rw [hl] at hok
      obtain ⟨hjoin, hrel⟩ := hok
      have hlive : s.Live a ∧ (s.heap a).creator = l.thread := by
        rcases hjoin with hneg | hbig | ⟨a', ha', hlive, hchild⟩
        · unfold pcbAt at ha
          rw [if_neg (by omega)] at ha
          cases ha
        · unfold pcbAt at ha
          rw [if_neg (by omega)] at ha
          cases ha
        · obtain rfl : a' = a := Option.some.inj (ha'.symm.trans ha)
          exact ⟨hlive, (hchild hpar).2⟩
      have hc : s.Child l.thread id a := ⟨ha, hlive.1, hlive.2, hrel a ha hpar⟩
      refine ⟨a, hc.kept hi h (hno a), fun b hb => ?_⟩
      rw [hpt] at hb
      cases hb
  · rcases hact.pt_others ht with hpt | ⟨-, -, hpt⟩
    · rw [hpt] at hlooks ⊢
      obtain ⟨a, hc, hwaits⟩ := hj t id hlooks
      refine ⟨a, hc.kept hi h fun i hread hpcb => ?_, hwaits⟩
      -- whoever reads the exit code of the child is its creator
      obtain ⟨a', hc', -⟩ := hj l.thread i (by rw [hread]; rfl)
      obtain rfl : a' = a := Option.some.inj (hc'.pcb.symm.trans hpcb)
      exact ht (hc.creator.symm.trans hc'.creator)
    · rw [hpt] at hlooks
      cases hlooks

end Steps

theorem joinInv_init {s : Procs} (h : s.Init) : s.JoinInv := by
  obtain ⟨words, rfl⟩ := h
  intro t id hlooks
  have hpt : (initial words).pt t = if t = 0 then .user else .unborn := rfl
  rw [hpt] at hlooks
  split_ifs at hlooks <;> cases hlooks

theorem looksAtLive_of_reachBy {s : Procs} (h : Run.ReachBy step JoinsOk Init s) (t : ℕ) :
    s.LooksAtLive (s.pt t) := by
  obtain ⟨hi, hj⟩ := h.inv (fun s => s.LockInv ∧ s.JoinInv)
    (fun _ h₀ => ⟨lockInv_init h₀, joinInv_init h₀⟩)
    fun _ _ _ hi hok hs => ⟨hi.1.step hs, hi.2.step hi.1 hok hs⟩
  have hpoint := hi.points t
  have hlive : (s.pt t).active = true → s.Live t := fun ha => (hi.table.running t ha).1
  have hlooks := hj t
  cases hpt : s.pt t <;> rw [hpt] at hpoint hlive hlooks <;> try trivial
  case joinIncP id b | joinInc id b =>
    obtain rfl : b = t := hpoint
    exact hlive rfl
  case joinP id | joinRead id =>
    obtain ⟨a, hc, -⟩ := hlooks id rfl
    exact ⟨a, hc.pcb, hc.live⟩
  case joinWait id b =>
    obtain ⟨a, hc, hwaits⟩ := hlooks id rfl
    obtain rfl := hwaits b rfl
    exact hc.live

/-- **What `JoinUpdate` reads.** In every reachable state the checks are safe, and refuse everything
but a child, exactly for the `id` of `JoinOk`; in runs whose joins are of such an `id`, and of no
child that has been released, all later reads are of a process in use. -/
theorem join_update_safe (s : Procs) :
    (Run.Reach step Init s → ∀ t, s.pt t = .user → ∀ id, (s.JoinSafe t id ↔ s.JoinOk t id)) ∧
    (Run.ReachBy step JoinsOk Init s → ∀ t, s.LooksAtLive (s.pt t)) :=
  ⟨fun hs _ ht _ => joinSafe_iff (lockInv_reach hs).table ht,
    fun hs t => looksAtLive_of_reachBy hs t⟩

theorem reach_initial (words : ℕ → Word) : Run.Reach step Init (initial words) :=
  ⟨initial words, [], ⟨words, rfl⟩, rfl⟩

/-- From the join of process 1 to the point where the root reads its exit code. -/
def joinRun : List Label := runs 0 4 ++ .exit 1 0 :: runs 1 5 ++ runs 0 1

/-- The root executes process 1 and joins it: the checks read the slots 1 and 0, and when process 1
has exited, slot 1 is read again. -/
theorem join_update_safe_child : ∃ s s' : Procs, s.joinReads 0 1 = [1, 0] ∧ s.JoinSafe 0 1 ∧
    Run.exec step s (.join 0 1 :: joinRun) = some s' ∧ s'.pt 0 = .joinRead 1 ∧ s'.ReadsLive 1 := by
  have h : (Run.exec step (initial fun _ => 0) (execRun 0 65)).any fun s =>
      decide (s.pt 0 = .user ∧ s.joinReads 0 1 = [1, 0]) &&
        decide (s.pcbAt 1 = some 1 ∧ (1 < s.next ∧ (s.heap 1).deleted = false) ∧
          (s.heap 1).creator = 0 ∧ (s.sems (.exitsem 1)).value = 0 ∧ s.pt 1 ≠ .exitRemove) &&
        (Run.exec step s (.join 0 1 :: joinRun)).any fun s' => decide (s'.pt 0 = .joinRead 1) := by
    decide +kernel
  obtain ⟨s, hs, h⟩ := (Option.any_eq_true _ _).mp h
  obtain ⟨h, he⟩ := Bool.and_eq_true_iff.mp h
  obtain ⟨h, hchild⟩ := Bool.and_eq_true_iff.mp h
  obtain ⟨huser, hreads⟩ := of_decide_eq_true h
  obtain ⟨hpcb, hlive, hcreator, hsem, hpt⟩ := of_decide_eq_true hchild
  obtain ⟨s', hs', hread⟩ := (Option.any_eq_true _ _).mp he
  have hread := of_decide_eq_true hread
  have hok : s.JoinOk 0 1 := Or.inr (Or.inr ⟨1, hpcb, hlive, fun _ => ⟨one_ne_zero, hcreator⟩⟩)
  have hrel : ∀ a, s.pcbAt 1 = some a → (s.heap a).parentID = s.processID 0 → s.Unreleased a := by
    intro a ha _
    obtain rfl := Option.some.inj (hpcb.symm.trans ha)
    exact ⟨hsem, hpt⟩
  -- only a join has to be admitted
  have hother : ∀ s, ∀ ls : List Label, (∀ l ∈ ls, ∀ t id, l ≠ .join t id) →
      Run.Admits step JoinsOk s ls := fun s ls hls =>
    Run.admits_of_mem (fun l hl s => by
      cases l with
      | join t id => exact absurd rfl (hls _ hl t id)
      | exec | exit | run => trivial) s
  have hreach : Run.ReachBy step JoinsOk Init s := by
    refine ⟨_, execRun 0 65, ⟨_, rfl⟩, hother _ _ ?_, hs⟩
    simp [execRun, runs]
  have hjoin : Run.Admits step JoinsOk s (.join 0 1 :: joinRun) := by
    refine ⟨⟨hok, hrel⟩, fun s₁ _ => hother _ _ ?_⟩
    simp [joinRun, runs]
  have hlooks := (join_update_safe s').2 (hreach.exec hjoin hs') 0
  rw [hread] at hlooks
  exact ⟨s, s', hreads, ((join_update_safe s).1 ⟨_, _, ⟨_, rfl⟩, hs⟩ 0 huser 1).mpr hok, hs', hread,
    hlooks⟩

/-- The root at its first system call joins 10, which is not an index of the array, or 5, a slot
that was never used. -/
theorem join_reads_past_table : ∃ s, Run.Reach step Init s ∧ s.pt 0 = .user ∧
    ¬ s.JoinSafe 0 10 ∧ ¬ s.JoinSafe 0 5 := by
  refine ⟨initial fun _ => 0, reach_initial _, rfl, fun h => ?_, fun h => ?_⟩
  · obtain ⟨a, ha, -⟩ := h.1 10 (by decide)
    cases ha
  · obtain ⟨a, ha, -⟩ := h.1 5 (by decide)
    cases ha

end Procs

end Nachos
