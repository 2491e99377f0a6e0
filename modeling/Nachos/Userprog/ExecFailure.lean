import Nachos.Userprog.ProcessExit

/-!
# `Exec` when memory is short

`ExecUpdate` answers before the program is looked at. How many frames it needs is found out by
`AddrSpace::AddrSpace(char*)` in the new thread, which gives a program that is too large an address
space without pages; `StartProcessWithID` runs the program all the same, and its first fetch halts
the machine.

So the failure is contained exactly when `ExecUpdate` refuses the program for a reason of its own
(`Refused`).
-/

namespace Nachos

namespace Procs

variable {s : Procs} {t slot : ℕ} {name nm : Name}

/-! ## The two ways through `ExecUpdate` -/

/-- `ExecUpdate` refuses the program: it is the one of the root or of the caller, or no slot is
free. -/
def Refused (s : Procs) (name nm : Name) : Prop :=
  name = (s.heap 0).filename ∨ name = nm ∨ ∀ i < maxProcess, s.bm.test i = true

theorem step_execBody (hd : s.down = none) (hp : s.pt t = .execBody (some name)) (nm : Name) :
    s.step (.run t nm) = some (s.execBody t (some name) nm) := by
  unfold step
  simp only [hd, hp, Pt.waits, Option.isSome_none, Bool.false_eq_true, if_false]
  unfold block
  rw [hp]

theorem execBody_refused (hi : s.TableInv) (h : s.Refused name nm) :
    ∃ m, s.execBody t (some name) nm = ((s.emit (.printed m)).V .bmsem).execReturn t (-1) := by
  unfold execBody
  simp only [hi.pcbAt_zero]
  split_ifs with hsame hneg
  · exact ⟨_, rfl⟩
  · exact ⟨_, rfl⟩
  · exfalso
    rcases s.bm.find_cases with ⟨-, hf⟩ | ⟨slot, hlt, hclear, -⟩
    · exact hneg (by rw [hf]; exact neg_one_lt_zero)
    · rcases h with h | h | h
      · exact hsame (Or.inl h)
      · exact hsame (Or.inr h)
      · rw [h slot (hi.size ▸ hlt)] at hclear
        cases hclear

/-- The new `PCB` is in its slot. -/
def created (s : Procs) (t slot : ℕ) (name : Name) : Procs :=
  (({ s with bm := s.bm.mark slot }.newPCB t slot name).emit (.created t s.next slot)).goto t
    (.execMultexP s.next slot)

theorem execBody_created (hi : s.TableInv) (h : ¬ s.Refused name nm) :
    ∃ slot, s.bm.test slot = false ∧ s.execBody t (some name) nm = s.created t slot name := by
  rcases s.bm.find_cases with ⟨hfull, -⟩ | ⟨slot, -, hclear, hf⟩
  · refine absurd (Or.inr (Or.inr fun i hlt => ?_)) h
    by_contra hclear
    have hmem := BitMap.mem_clearBits.mpr ⟨hi.size ▸ hlt, Bool.not_eq_true _ ▸ hclear⟩
    rw [hfull] at hmem
    cases hmem
  · refine ⟨slot, hclear, ?_⟩
    unfold execBody
    simp only [hi.pcbAt_zero, hf]
    rw [if_neg fun hsame => h (hsame.imp_right Or.inl), if_neg (by omega)]
    rfl

/-- `PCB::Exec` after `multex->P()`: the new thread is forked, and `ExecUpdate` returns. -/
theorem execFork_returns {q : Procs} {a : ℕ} (hd : q.down = none) (hp : q.pt t = .execFork a slot)
    (hf : (q.heap a).deleted = false) (ha : a ≠ t) :
    ∃ p, Run.exec step q (List.replicate 3 (.run t [])) = some p ∧
      Run.Admits step (fun q l => (q.pt l.thread).exiting = false) q
        (List.replicate 3 (.run t [])) ∧
      p.log = q.log ++ [Event.execReturned t slot] ∧ p.down = none ∧ p.pt a = .user ∧
      p.bm = q.bm := by
  have h₁ : q.step (.run t []) = some (q.execFork t a slot) := by
    rw [step_block hd (by rw [hp]; rfl), block, hp]
  have hf₁ : (q.execFork t a slot).freed (.multex a) = false := by
    show ((q.execFork t a slot).heap a).deleted = false
    rw [← hf]
    simp [execFork, modify]
  have hp₁ : (q.execFork t a slot).pt t = .execUnlock a slot := by
    rw [execFork, goto_pt, Function.update_self]
  have hchild : (q.execFork t a slot).pt a = .user := by
    rw [execFork, goto_pt, Function.update_of_ne ha, goto_pt, Function.update_self]
  have hd₁ : (q.execFork t a slot).down = none := hd
  have hbm : (q.execFork t a slot).bm = q.bm := rfl
  have hlog : (q.execFork t a slot).log = q.log := rfl
  generalize q.execFork t a slot = q₁ at *
  have h₂ : q₁.step (.run t []) = some ((q₁.V (.multex a)).goto t (.execDone slot)) := by
    rw [step_block hd₁ (by rw [hp₁]; rfl), block, hp₁]
  have hd₂ : ((q₁.V (.multex a)).goto t (.execDone slot)).down = none := (V_down hf₁).trans hd₁
  have hp₂ : ((q₁.V (.multex a)).goto t (.execDone slot)).pt t = .execDone slot := by
    rw [goto_pt, Function.update_self]
  have h₃ := step_block hd₂ (by rw [hp₂]; rfl)
  rw [block, hp₂] at h₃
  refine ⟨_, Run.exec_cons_eq_some.mpr ⟨_, h₁, Run.exec_cons_eq_some.mpr ⟨_, h₂,
    Run.exec_cons_eq_some.mpr ⟨_, h₃, rfl⟩⟩⟩, ?_, ?_, ?_, ?_, ?_⟩
  · refine ⟨(congrArg Pt.exiting hp).trans rfl, fun q' hq' => ?_⟩
    obtain rfl := Option.some.inj (h₁.symm.trans hq')
    refine ⟨(congrArg Pt.exiting hp₁).trans rfl, fun q' hq' => ?_⟩
    obtain rfl := Option.some.inj (h₂.symm.trans hq')
    exact ⟨(congrArg Pt.exiting hp₂).trans rfl, fun _ _ => trivial⟩
  · simp [execReturn, hlog]
  · exact (V_down rfl).trans hd₂
  · simp [execReturn, ha, hchild]
  · have htable : (((q₁.V (.multex a)).goto t (.execDone slot)).V .bmsem).table = q₁.table := by
      rw [V_table, goto_table, V_table]
    exact (bm_of_table htable).trans hbm

/-- From the new `PCB` on. -/
theorem created_returns (hd : s.down = none) (ht : t < s.next) (slot : ℕ) (name : Name) :
    ∃ p, Run.exec step (s.created t slot name) (List.replicate 4 (.run t [])) = some p ∧
      Run.Admits step (fun q l => (q.pt l.thread).exiting = false) (s.created t slot name)
        (List.replicate 4 (.run t [])) ∧
      p.log = s.log ++ [Event.created t s.next slot, .execReturned t slot] ∧ p.down = none ∧
      p.pt s.next = .user ∧ p.bm = s.bm.mark slot := by
  have hp : (s.created t slot name).pt t = .execMultexP s.next slot := by
    rw [created, goto_pt, Function.update_self]
  have hsem : (s.created t slot name).sems (.multex s.next) = Semaphore.new 1 := by
    simp [created, newPCB]
  have hf : ((s.created t slot name).heap s.next).deleted = false := by simp [created, newPCB]
  have hd₁ : (s.created t slot name).down = none := hd
  have hbm : (s.created t slot name).bm = s.bm.mark slot := rfl
  have hlog : (s.created t slot name).log = s.log ++ [Event.created t s.next slot] := rfl
  generalize s.created t slot name = q at *
  have h₁ := step_wait hd₁ (by rw [hp]; rfl) (by rw [hsem]; exact List.not_mem_nil)
    (show q.freed (.multex s.next) = false from hf)
    (by rw [hsem]; exact one_ne_zero)
  obtain ⟨p, he, ha, hlog', hd', hp', hbm'⟩ :=
    execFork_returns (q := (q.setSem (.multex s.next) { q.sems (.multex s.next) with
        value := intPred (q.sems (.multex s.next)).value }).goto t (.execFork s.next slot))
      hd₁ (by rw [goto_pt, Function.update_self]) hf (Nat.ne_of_gt ht)
  refine ⟨p, Run.exec_cons_eq_some.mpr ⟨_, h₁, he⟩, ⟨?_, fun q' hq' => ?_⟩, ?_, hd', hp', ?_⟩
  · exact (congrArg Pt.exiting hp).trans rfl
  · obtain rfl := Option.some.inj (h₁.symm.trans hq')
    exact ha
  · rw [hlog', goto_log, setSem_log, hlog, List.append_assoc]
    rfl
  · exact hbm'.trans hbm

end Procs

namespace Processes

variable {s s' : Processes} {t c : ℕ} {name nm : Name}

/-! ## In the whole system -/

/-- Outside `ExitUpdate` a thread in the kernel only changes the process table. -/
theorem step_setProcs {p : Procs} (h : s.procs.step (.run t nm) = some p)
    (hx : (s.procs.pt t).exiting = false) : s.step (.run t nm) = some (s.setProcs p) := by
  have hd : s.procs.down = none := by
    rw [Procs.step] at h
    split_ifs at h with hd
    simpa using hd
  unfold step
  simp only [hd, h, hx, Option.isSome_none, Bool.false_eq_true, if_false, Option.map_some]

theorem exec_setProcs (n : ℕ) : ∀ {s : Processes} {p : Procs},
    Run.exec Procs.step s.procs (List.replicate n (.run t [])) = some p →
    Run.Admits Procs.step (fun q l => (q.pt l.thread).exiting = false) s.procs
      (List.replicate n (.run t [])) →
    Run.exec step s (List.replicate n (.run t [])) = some (s.setProcs p) := by
  induction n with
  | zero =>
    intro s p h _
    obtain rfl := Option.some.inj h
    rfl
  | succ n ih =>
    intro s p h ha
    obtain ⟨q, h₁, h₂⟩ := Run.exec_cons_eq_some.mp h
    exact Run.exec_cons_eq_some.mpr ⟨_, step_setProcs h₁ ha.1, ih h₂ (ha.2 q h₁)⟩

/-- A thread without pages cannot fetch an instruction. -/
theorem fetch_no_pages {sp : AddrSpace} (h : sp.pageTable = []) (pc : Word) :
    s.fetch sp pc = some .halted := by
  have ht : translate [] pc 4 false = .exception .addressErrorException := by
    unfold translate
    split_ifs
    · rfl
    · rfl
  unfold fetch readMem
  rw [h, ht]

/-- A thread that has not been forked has no address space. -/
theorem Inv.spaceOf_unborn (hi : s.Inv) (h : s.procs.pt c = .unborn) : s.spaceOf c = none := by
  refine spaceOf_eq_none.mpr fun sp hmem => ?_
  have ha := hi.active c sp hmem
  rw [h] at ha
  cases ha

/-- The new thread gets an address space without pages, and its first instruction halts the
machine. -/
theorem start_short (hd : s.procs.down = none) (hp : s.procs.pt c = .user)
    (hn : s.spaceOf c = none) (h0 : c ≠ 0) {stack : ℕ → Byte} {file : List Byte}
    (hm : (readHeader stack file).noffMagic = noffMagic)
    (hr : s.bits.numClear < (readHeader stack file).numPages) :
    ∃ s', s.step (.start c stack file) = some s' ∧ s'.bits = s.bits ∧
      ∀ pc i, s'.step (.instruction c pc i) = some (s'.stop .halted) := by
  have hb := ofFileName_refused rfl hm hr
  have hstep : s.step (.start c stack file) = some (s.startProcess c stack file) := by
    unfold step
    simp only [hd, hp, hn, Option.isSome_none, Bool.false_eq_true, if_false, and_self, if_true]
  have hs' : s.startProcess c stack file = { s with
      loader := (s.loader.lockP.deleteExecutable.lockV.lockV.load file []).deleteExecutable
      live := s.live ++ [(c, { pageTable := [], numPages := 0 })] } := by
    unfold startProcess AddrSpace.build
    rw [if_neg h0]
    simp only [hb]
  refine ⟨_, hstep, by rw [hs']; rfl, fun pc i => ?_⟩
  have hspace : (s.startProcess c stack file).spaceOf c =
      some { pageTable := [], numPages := 0 } := by
    rw [hs']
    unfold spaceOf
    rw [List.find?_append, List.find?_eq_none.mpr fun e he => ?_]
    · simp
    · have hne := spaceOf_eq_none.mp hn e.2
      simp only [decide_eq_true_eq]
      rintro rfl
      exact hne he
  have hd' : (s.startProcess c stack file).procs.down = none := by rw [hs']; exact hd
  have hp' : (s.startProcess c stack file).procs.pt c = .user := by rw [hs']; exact hp
  unfold step
  simp only [hd', hp', hspace, Option.isSome_none, Bool.false_eq_true, if_false, if_true,
    Option.bind_some, fetch_no_pages]

/-! ## What the caller is promised -/

/-- A step that the call of `t` brings about: `t` goes on in the kernel, or the new thread `c` does
something. -/
def CausedBy (t c : ℕ) : Label → Prop
  | .run u _ => u = t ∨ u = c
  | .start u _ _ => u = c
  | .instruction u _ _ => u = c

/-- A thread that starts has a program with the magic number that needs more frames than are
free. -/
def ShortOfMemory (s : Processes) : Label → Prop
  | .start _ stack file => (readHeader stack file).noffMagic = noffMagic ∧
      s.bits.numClear < (readHeader stack file).numPages
  | _ => True

instance (t c : ℕ) : (l : Label) → Decidable (CausedBy t c l)
  | .run u _ => inferInstanceAs (Decidable (u = t ∨ u = c))
  | .start u _ _ | .instruction u _ _ => inferInstanceAs (Decidable (u = c))

instance (s : Processes) : (l : Label) → Decidable (ShortOfMemory s l)
  | .start _ _ _ => inferInstanceAs (Decidable (_ ∧ _))
  | .run _ _ | .instruction _ _ _ => isTrue trivial

/-- After the call of `t` in the state `s` the system is in the state `s'`. The answer is -1 and
leaves the table and the frames as they were, the machine runs, and the other processes are where
they were. -/
structure Unharmed (s : Processes) (t : ℕ) (s' : Processes) : Prop where
  answer : ∀ pid, .execReturned t pid ∈ s'.procs.log.drop s.procs.log.length →
    pid = -1 ∧ s'.procs.table = s.procs.table ∧ s'.bits = s.bits
  up : s'.procs.down = none
  others : ∀ u, u ≠ t → (s.procs.pt u).active = true →
    s'.procs.pt u = s.procs.pt u ∧ s'.spaceOf u = s.spaceOf u
  memory : s'.loader.mainMemory = s.loader.mainMemory

/-- `t`, in `ExecUpdate` and with the name `nm`, can get the answer, and whatever the call brings
about does no harm. -/
structure ExecContained (s : Processes) (t : ℕ) (nm : Name) : Prop where
  reports : ∃ ls s', Run.exec step s (.run t nm :: ls) = some s' ∧
    (∀ l ∈ ls, ∃ nm', l = .run t nm') ∧
    .execReturned t (-1) ∈ s'.procs.log.drop s.procs.log.length
  unharmed : ∀ ls s', Run.exec step s (.run t nm :: ls) = some s' →
    Run.Admits step (fun s' l => CausedBy t s.procs.next l ∧ ShortOfMemory s' l) s
      (.run t nm :: ls) → s.Unharmed t s'

/-- A refused call is over with its first step, and there is no new thread. -/
theorem contained_of_refused (hi : s.Inv) (hd : s.procs.down = none)
    (hp : s.procs.pt t = .execBody (some name)) (h : s.procs.Refused name nm) :
    s.ExecContained t nm := by
  obtain ⟨m, hm⟩ := Procs.execBody_refused hi.lock.table h
  have hs := Procs.step_execBody hd hp nm
  rw [hm] at hs
  have hstep := step_setProcs hs (by rw [hp]; rfl)
  set p := ((s.procs.emit (.printed m)).V .bmsem).execReturn t (-1) with hpq
  have hlog : p.log.drop s.procs.log.length = [Event.printed m, .execReturned t (-1)] := by
    have hlog : p.log = s.procs.log ++ [Event.printed m, .execReturned t (-1)] := by
      simp [hpq, Procs.execReturn]
    rw [hlog, List.drop_left]
  have hpd : p.down = none := (Procs.V_down rfl).trans hd
  have hpt : p.pt t = .user := by rw [hpq, Procs.execReturn, Procs.goto_pt, Function.update_self]
  have hothers : ∀ u, u ≠ t → p.pt u = s.procs.pt u := fun u hu => by
    simp [hpq, Procs.execReturn, hu]
  have hunborn : s.procs.pt s.procs.next = .unborn := hi.lock.table.unborn _ le_rfl
  have htable : p.table = s.procs.table := by
    rw [hpq, Procs.execReturn, Procs.goto_table, Procs.emit_table, Procs.V_table, Procs.emit_table]
  have hne : s.procs.next ≠ t := by
    intro e
    rw [e, hp] at hunborn
    cases hunborn
  refine ⟨⟨[], _, Run.exec_cons_eq_some.mpr ⟨_, hstep, rfl⟩, by simp, ?_⟩, fun ls s' he ha => ?_⟩
  · rw [show (s.setProcs p).procs.log = p.log from rfl, hlog]
    exact List.mem_cons_of_mem _ List.mem_cons_self
  obtain ⟨s₁, h₁, he⟩ := Run.exec_cons_eq_some.mp he
  have ha := ha.2 s₁ h₁
  obtain rfl := Option.some.inj (hstep.symm.trans h₁)
  cases ls with
  | nil =>
    obtain rfl := Option.some.inj he
    refine ⟨fun pid hmem => ?_, hpd, fun u hu _ => ⟨hothers u hu, rfl⟩, rfl⟩
    have hmem : Event.execReturned t pid ∈ p.log.drop s.procs.log.length := hmem
    rw [hlog] at hmem
    refine ⟨?_, htable, rfl⟩
    simpa using hmem
  | cons l ls =>
    -- neither `t` nor the thread that would be the next one can go on
    exfalso
    obtain ⟨s₂, h₂, -⟩ := Run.exec_cons_eq_some.mp he
    have hnext : p.pt s.procs.next = .unborn := (hothers _ hne).trans hunborn
    have hcause := ha.1.1
    unfold step at h₂
    cases l with
    | run u nm' =>
      rcases hcause with rfl | rfl
      · simp [setProcs, hpd, Procs.step, hpt, Pt.waits, Procs.block] at h₂
      · simp [setProcs, hpd, Procs.step, hnext, Pt.waits, Procs.block] at h₂
    | start u stack file =>
      obtain rfl : u = s.procs.next := hcause
      simp [setProcs, hpd, hnext] at h₂
    | instruction u pc i =>
      obtain rfl : u = s.procs.next := hcause
      simp [setProcs, hpd, hnext] at h₂

/-- What happens to a call that is not refused: it answers with a slot, in which there is a new
process now. With any program that needs more frames than are free, the first instruction of this
process halts the machine. -/
def Doomed (s : Processes) (t : ℕ) (nm : Name) : Prop :=
  ∃ s₁ slot, Run.exec step s (.run t nm :: List.replicate 4 (.run t [])) = some s₁ ∧
    s₁.procs.log = s.procs.log ++ [.created t s.procs.next slot, .execReturned t (slot : ℕ)] ∧
    s.procs.bm.test slot = false ∧ s₁.procs.bm = s.procs.bm.mark slot ∧ s₁.bits = s.bits ∧
    ∀ stack file, (readHeader stack file).noffMagic = noffMagic →
      s.bits.numClear < (readHeader stack file).numPages →
      ∃ s₂, s₁.step (.start s.procs.next stack file) = some s₂ ∧ s₂.bits = s.bits ∧
        ∀ pc i, s₂.step (.instruction s.procs.next pc i) = some (s₂.stop .halted)

theorem doomed_of_accepted (hi : s.Inv) (hd : s.procs.down = none)
    (hp : s.procs.pt t = .execBody (some name)) (h : ¬ s.procs.Refused name nm) :
    s.Doomed t nm := by
  have hlive := (hi.lock.table.running t (by rw [hp]; rfl)).1
  obtain ⟨slot, hfree, hbody⟩ := Procs.execBody_created hi.lock.table h
  have hs := Procs.step_execBody hd hp nm
  rw [hbody] at hs
  have hstep := step_setProcs hs (by rw [hp]; rfl)
  obtain ⟨p, he, ha, hlog, hpd, hchild, hbm⟩ :=
    Procs.created_returns hd hlive.1 slot name
  have hrun := exec_setProcs 4 (s := s.setProcs (s.procs.created t slot name)) he ha
  refine ⟨s.setProcs p, slot, Run.exec_cons_eq_some.mpr ⟨_, hstep, hrun⟩, hlog, hfree, hbm, rfl,
    fun stack file hm hr => ?_⟩
  have hspace := hi.spaceOf_unborn (hi.lock.table.unborn _ le_rfl)
  exact start_short (s := s.setProcs p) hpd hchild hspace (Nat.ne_of_gt (Nat.zero_lt_of_lt hlive.1))
    hm hr

theorem Doomed.not_contained (h : s.Doomed t nm) : ¬ s.ExecContained t nm := by
  obtain ⟨s₁, slot, he, hlog, -⟩ := h
  intro hc
  have ha : Run.Admits step (fun s' l => CausedBy t s.procs.next l ∧ ShortOfMemory s' l) s
      (.run t nm :: List.replicate 4 (.run t [])) := by
    refine Run.admits_of_mem (fun l hl _ => ?_) s
    rcases List.mem_cons.mp hl with rfl | hl
    · exact ⟨Or.inl rfl, trivial⟩
    · obtain rfl := List.eq_of_mem_replicate hl
      exact ⟨Or.inl rfl, trivial⟩
  have hmem : .execReturned t (slot : ℤ) ∈ s₁.procs.log.drop s.procs.log.length := by
    rw [hlog, List.drop_left]
    exact List.mem_cons_of_mem _ List.mem_cons_self
  have hneg := ((hc.unharmed _ s₁ he ha).answer _ hmem).1
  omega

/-- **`Exec` when memory is short.** Whatever the free frames are, the failure of a program that
needs more of them is contained exactly when `ExecUpdate` refuses the program for a reason of its
own; otherwise the caller is told that the program runs, and the machine halts. -/
theorem exec_failure_contained (hr : Run.Reach step Init s) (hd : s.procs.down = none)
    (hp : s.procs.pt t = .execBody (some name)) :
    (s.ExecContained t nm ↔ s.procs.Refused name nm) ∧
      (¬ s.procs.Refused name nm → s.Doomed t nm) := by
  have hi := inv_reach hr
  refine ⟨⟨fun hc => ?_, contained_of_refused hi hd hp⟩, doomed_of_accepted hi hd hp⟩
  by_contra h
  exact (doomed_of_accepted hi hd hp h).not_contained hc

/-- The root, with three frames, is about to create process 1. -/
theorem exec_failure_contained_root : ∃ s : Processes, Run.exec step boot launch = some s ∧
    s.bits.numClear = 253 ∧ ¬ s.ExecContained 0 [] ∧ s.Doomed 0 [] := by
  have h : (Run.exec step boot launch).any fun s =>
      decide (s.procs.down = none ∧ s.procs.pt 0 = .execBody (some [66]) ∧
        (s.procs.heap 0).filename ≠ [66] ∧ s.procs.bm.test 1 = false ∧ s.bits.numClear = 253) := by
    decide +kernel
  obtain ⟨s, hs, h⟩ := (Option.any_eq_true _ _).mp h
  obtain ⟨hd, hp, hroot, hfree, hclear⟩ := of_decide_eq_true h
  have hr : Run.Reach step Init s := ⟨boot, launch, boot_init, hs⟩
  have hok : ¬ s.procs.Refused [66] [] := by
    rintro (h | h | h)
    · exact hroot h.symm
    · cases h
    · rw [h 1 (by decide)] at hfree
      cases hfree
  exact ⟨s, hs, hclear, fun hc => hok ((exec_failure_contained hr hd hp).1.mp hc),
    (exec_failure_contained hr hd hp).2 hok⟩

/-- A program of 259 pages. -/
abbrev hugeFile : List Byte := tinyFile 0x20000

/-- The root is told 1, and the first instruction of process 1 halts the machine. -/
theorem exec_halts_machine : ∃ s s' : Processes, Run.Reach step Init s ∧
    s.procs.pt 0 = .execBody (some [66]) ∧
    s.bits.numClear < (readHeader (fun _ => 0) hugeFile).numPages ∧
    Run.exec step s (Label.run 0 [] :: List.replicate 4 (Label.run 0 []) ++
      [Label.start 1 (fun _ => 0) hugeFile, .instruction 1 0 .other]) = some s' ∧
    Event.execReturned 0 1 ∈ s'.procs.log ∧ s'.procs.down = some .halted ∧
    ¬ s.ExecContained 0 [] := by
  have h : (Run.exec step boot launch).any fun s =>
      decide (s.procs.pt 0 = .execBody (some [66]) ∧ s.procs.next = 1 ∧
        s.bits.numClear < (readHeader (fun _ => 0) hugeFile).numPages) &&
      Run.admitted step (fun s' l => CausedBy 0 1 l ∧ ShortOfMemory s' l) s
        (Label.run 0 [] :: List.replicate 4 (Label.run 0 []) ++
          [Label.start 1 (fun _ => 0) hugeFile, .instruction 1 0 .other]) &&
      (Run.exec step s (Label.run 0 [] :: List.replicate 4 (Label.run 0 []) ++
        [Label.start 1 (fun _ => 0) hugeFile, .instruction 1 0 .other])).any fun s' =>
          decide (Event.execReturned 0 1 ∈ s'.procs.log ∧ s'.procs.down = some .halted) := by
    decide +kernel
  obtain ⟨s, hs, h⟩ := (Option.any_eq_true _ _).mp h
  obtain ⟨h, he⟩ := Bool.and_eq_true_iff.mp h
  obtain ⟨h, hadm⟩ := Bool.and_eq_true_iff.mp h
  obtain ⟨hp, hnext, hshort⟩ := of_decide_eq_true h
  obtain ⟨s', hs', h⟩ := (Option.any_eq_true _ _).mp he
  obtain ⟨hmem, hdown⟩ := of_decide_eq_true h
  refine ⟨s, s', ⟨boot, launch, boot_init, hs⟩, hp, hshort, hs', hmem, hdown, fun hc => ?_⟩
  have hup := (hc.unharmed _ s' hs' (by rw [hnext]; exact Run.admits_of_admitted hadm)).up
  rw [hdown] at hup
  cases hup

end Processes

end Nachos
