import Nachos.Userprog.Exception
import Nachos.Userprog.Frames
import Nachos.Userprog.Handshake

/-!
# Processes with their address spaces

The process table of `PTable` and the address spaces of `Frames` in one system. A thread gets its
address space when it runs for the first time, executes user instructions one by one, and loses the
space in `SC_Exit`: `Remove` deletes the `PCB` of the process, and the destructor calls
`Thread::FreeSpace` and `Thread::Finish`.

Where `ExitUpdate` returns, `SC_Exit` itself calls the two. `step_act` shows that in a reachable
state this never happens, so the steps of the table are those of `PTable`, and `FreeSpace` is called
once for every process.

An address space is constructed in one step: the code holds `addrLock` without losing the processor,
and copies into its own frames afterwards. The use bits that an instruction fetch sets are left out.
-/

namespace Nachos

structure Processes where
  procs : Procs
  loader : Loader
  /-- The address spaces, each with its thread. -/
  live : List (ℕ × AddrSpace)
  /-- History: the threads whose space was deleted, with its frames. -/
  freed : List (ℕ × List ℤ)

namespace Processes

/-- The address spaces alone. -/
def spaces (s : Processes) : Spaces where
  loader := s.loader
  live := s.live.map Prod.snd

/-- `gPhysPageBitMap`. -/
abbrev bits (s : Processes) : BitMap := s.loader.gPhysPageBitMap

def setProcs (s : Processes) (p : Procs) : Processes := { s with procs := p }

def stop (s : Processes) (d : Down) : Processes := s.setProcs (s.procs.stop d)

/-- `Thread::space`. -/
def spaceOf (s : Processes) (t : ℕ) : Option AddrSpace :=
  (s.live.find? fun e => e.1 = t).map Prod.snd

/-! ## Steps -/

/-- `StartProcess` and `StartProcessWithID` up to `machine->Run()`. -/
def startProcess (s : Processes) (t : ℕ) (stack : ℕ → Byte) (file : List Byte) : Processes :=
  match AddrSpace.build (if t = 0 then .openFile else .fileName) stack (some file) s.loader with
  | (.returned sp, l) => { s with loader := l, live := s.live ++ [(t, sp)] }
  | _ => s.stop .aborted

/-- `Thread::FreeSpace`. -/
def freeSpace (s : Processes) (t : ℕ) : Processes :=
  match s.spaceOf t with
  | none => s
  | some sp =>
    match sp.destroy s.bits with
    | none => s.stop .aborted
    | some bm =>
      { s with loader := s.loader.setBitMap bm, live := s.live.filter fun e => e.1 ≠ t,
               freed := s.freed ++ [(t, sp.frames)] }

/-- What goes with a step of the thread `t` in `ExitUpdate`: the rest of `~PCB` where it deletes the
`PCB`, the rest of `SC_Exit` where it returns. -/
def leaveExit (s : Processes) (t : ℕ) : Processes :=
  if s.procs.down.isSome then s
  else
    match s.procs.pt t with
    | .dead => s.freeSpace t
    | .user => let s := s.freeSpace t; s.setProcs (s.procs.goto t .dead)
    | _ => s

/-- `SC_Exit` up to the first place where the thread can lose the processor. The root process frees
its space and halts the machine. -/
def scExit (s : Processes) (t : ℕ) (exitState : Word) : Option Processes :=
  if exitState ≠ 0 then some s
  else (s.procs.step (.exit t exitState.toInt)).map fun p =>
    if s.procs.processID t = 0 then (s.setProcs p).freeSpace t else (s.setProcs p).leaveExit t

/-- A user instruction, as far as the other processes are concerned. -/
inductive Instr where
  | other
  | exec (name : Name)
  | join (id : ℤ)
  | exit (status : Word)
  deriving DecidableEq

def execute (s : Processes) (t : ℕ) : Instr → Option Processes
  | .other => some s
  | .exec name => (s.procs.step (.exec t (some name))).map s.setProcs
  | .join id => (s.procs.step (.join t id)).map s.setProcs
  | .exit status => s.scExit t status

/-- The fetch of the instruction at `pc`: an exception halts the machine, a failed `ASSERT` aborts
it. -/
def fetch (s : Processes) (sp : AddrSpace) (pc : Word) : Option Down :=
  match readMem s.loader.mainMemory sp.pageTable pc 4 with
  | .ok _ => none
  | .exception _ => some .halted
  | .assertFailed => some .aborted

/-- A thread starts its program, executes the user instruction at `pc`, or goes on in the kernel. -/
inductive Label where
  | start (t : ℕ) (stack : ℕ → Byte) (file : List Byte)
  | instruction (t : ℕ) (pc : Word) (i : Instr)
  | run (t : ℕ) (threadName : Name)

def step (s : Processes) (l : Label) : Option Processes :=
  if s.procs.down.isSome then none
  else
    match l with
    | .start t stack file =>
      if s.procs.pt t = .user ∧ s.spaceOf t = none then some (s.startProcess t stack file) else none
    | .instruction t pc i =>
      if s.procs.pt t = .user then
        (s.spaceOf t).bind fun sp =>
          match s.fetch sp pc with
          | some d => some (s.stop d)
          | none => s.execute t i
      else none
    | .run t threadName => (s.procs.step (.run t threadName)).map fun p =>
      if (s.procs.pt t).exiting then (s.setProcs p).leaveExit t else s.setProcs p

/-- The state after `Initialize` and the creation of the process table. -/
def Init (s : Processes) : Prop := s.procs.Init ∧ s.spaces.Init ∧ s.freed = []

end Processes

/-- Every exception but a system call halts the machine. -/
theorem exceptionHandler_halts {which : ExceptionType} (h₁ : which ≠ .noException)
    (h₂ : which ≠ .syscallException) (k : Kernel) :
    (exceptionHandler which).run k = .stop (.down .halted) := by
  cases which <;> first | rfl | exact absurd rfl h₁ | exact absurd rfl h₂

/-- `SC_Exit` returns to the user program at once, with the registers as they were, or calls
`ExitUpdate`. -/
theorem scExit_run (k : Kernel) :
    (k.registers 4 ≠ 0 → scExit.run k = .done .brk k) ∧
      (k.registers 4 = 0 → ∃ resume, scExit.run k = .wait (.exitUpdate 0) k resume) := by
  have hr : scExit.run k = if k.registers 4 ≠ 0 then .done .brk k
      else ((wait (.exitUpdate (k.registers 4).toInt)) >>= exitRest).run k := by
    unfold scExit
    simp only [Prog.run_bind, readRegister, Prog.run_look, Prog.Res.bind_done, Prog.run_ite]
    rfl
  rw [hr]
  refine ⟨fun h => if_pos h, fun h => ?_⟩
  rw [if_neg (not_not.mpr h), h]
  exact ⟨_, rfl⟩

/-! ## What becomes of a thread -/

namespace Procs

variable {s s' : Procs} {l : Label} {t : ℕ}

theorem LockInv.stop (hi : s.LockInv) (d : Down) : (s.stop d).LockInv := by
  obtain ⟨⟨h1, h2, h3, h4, h5, h6, h7, h8⟩, hp, hm⟩ := hi
  refine ⟨⟨h1, h2, h3, h4, h5, h6, h7, h8⟩, hp, fun a ha => ?_⟩
  obtain ⟨k1, k2, k3, k4⟩ := hm a ha
  exact ⟨k1, k2, k3, k4⟩

/-- A dead thread stays dead. -/
theorem dead_kept (hi : s.TableInv) (h : s.step l = some s') (hd : s.pt t = .dead) :
    s'.pt t = .dead := by
  have hact := step_active h
  have hne : t ≠ l.thread := by
    rintro rfl
    rw [hd] at hact
    cases hact
  rcases (step_act hi h).2.pt_others hne with hpt | ⟨slot, hf, -⟩
  · rw [hpt, hd]
  · obtain ⟨-, -, -, hun, -⟩ := hi.creating l.thread t slot (by rw [hf]; rfl)
    rw [hd] at hun
    cases hun

/-- A thread stays in use until `Remove`. -/
theorem active_kept (hi : s.TableInv) (h : s.step l = some s') (ha : (s.pt t).active = true)
    (hr : ¬ (t = l.thread ∧ s.pt t = .exitRemove)) : (s'.pt t).active = true := by
  by_cases ht : t = l.thread
  swap
  · rwa [pt_kept hi (step_act hi h).2 ht ha]
  subst ht
  cases step_table h with
  | quiet hq => exact hq.move.active
  | create slot name _ _ he => rw [he]; simp [Pt.active]
  | fork a slot hpt he => rw [he]; simp [execFork, Pt.active]
  | remove hpt he => exact absurd ⟨rfl, hpt⟩ hr

/-- A thread gets into use by a fork. -/
theorem active_before (hi : s.TableInv) (h : s.step l = some s') (ha : (s'.pt t).active = true) :
    (s.pt t).active = true ∨ s'.pt t = .user := by
  by_cases ht : t = l.thread
  · subst ht
    exact Or.inl (step_active h)
  · rcases (step_act hi h).2.pt_others ht with hpt | ⟨-, -, hpt⟩
    · exact Or.inl (hpt ▸ ha)
    · exact Or.inr hpt

/-- A thread in `ExitUpdate` stays there until `Remove`, which ends it. -/
theorem Act.exiting (h : s.Act l s') (hx : (s.pt l.thread).exiting = true) :
    (s'.pt l.thread).exiting = true ∨ s.pt l.thread = .exitRemove ∧ s'.pt l.thread = .dead := by
  cases h with
  | @take t nm r next hw hq hf hv =>
    simp only [Label.thread] at hx ⊢
    rw [goto_pt, Function.update_self]
    cases hpt : s.pt t <;> rw [hpt] at hw hx <;> simp only [Pt.waits, reduceCtorEq,
      Option.some.injEq, Prod.mk.injEq] at hw <;> obtain ⟨rfl, rfl⟩ := hw <;>
      first | exact Or.inl rfl | cases hx
  | fault | sleep => exact Or.inl hx
  | exitDec hp | exitRelease hp | exitP hp => simp [Label.thread, Pt.exiting]
  | remove hp => exact Or.inr ⟨hp, by simp [Label.thread]⟩
  | @exec t name hp | @joinRejected t id m hp hr | @joinFault t id hp ha | @join t id a hp ha hpar
  | @exitHalt t ec hp h0 | @exitFault t ec hp hb | @exit t ec b hp hb | @execFailed t nm name m hp
  | @create t nm slot name hp hlt hc | @fork t nm a slot hp | @execUnlock t nm a slot hp
  | @execDone t nm slot hp | @joinInc t nm id b hp | @joinPFault t nm id hp ha
  | @joinP t nm id a hp ha | @joinReadFault t nm id hp ha | @joinRead t nm id a hp ha
  | @joinDone t nm id ec hp =>
    simp only [Label.thread] at hx
    rw [hp] at hx
    cases hx

/-- A call of `ExitUpdate` by a process other than the root does not return at once. -/
theorem exit_step (hi : s.TableInv) {ec : ℤ} (h : s.step (.exit t ec) = some s') :
    s'.log = s.log ++ [Event.exitCalled t ec] ∧ (s.processID t = 0 ∧ s'.down = some .halted ∨
      s.processID t ≠ 0 ∧ (s'.down = some .undefined ∨ (s'.pt t).exiting = true)) := by
  obtain ⟨hd, hact⟩ := step_act hi h
  by_cases h0 : s.processID t = 0
  · have hs' : s' = (s.emit (.exitCalled t ec)).stop .halted := by
      unfold step at h
      rw [hd] at h
      simp only [Option.isSome_none, Bool.false_eq_true, if_false] at h
      split_ifs at h
      rw [← Option.some.inj h]
      exact if_pos h0
    rw [hs']
    exact ⟨rfl, Or.inl ⟨h0, rfl⟩⟩
  · cases hact with
    | exitHalt hp hz => exact absurd hz h0
    | exitFault hp hb => exact ⟨rfl, Or.inr ⟨h0, Or.inl rfl⟩⟩
    | exit hp hb => exact ⟨rfl, Or.inr ⟨h0, Or.inr (by simp [Pt.exiting])⟩⟩

end Procs

/-! ## The address spaces -/

namespace Processes

variable {s s' : Processes} {t u : ℕ} {sp : AddrSpace}

theorem spaceOf_eq_some (hn : (s.live.map Prod.fst).Nodup) :
    s.spaceOf t = some sp ↔ (t, sp) ∈ s.live := by
  unfold spaceOf
  rw [Option.map_eq_some_iff]
  constructor
  · rintro ⟨⟨u, sp'⟩, hf, rfl⟩
    have hu : u = t := by simpa using List.find?_some hf
    exact hu ▸ List.mem_of_find?_eq_some hf
  · intro hmem
    rcases hf : s.live.find? fun e => e.1 = t with _ | ⟨u, sp'⟩
    · exact absurd (decide_eq_true rfl) (List.find?_eq_none.mp hf _ hmem)
    · have hu : u = t := by simpa using List.find?_some hf
      subst hu
      have he := List.inj_on_of_nodup_map hn (List.mem_of_find?_eq_some hf) hmem rfl
      exact ⟨_, hf, congrArg Prod.snd he⟩

theorem spaceOf_eq_none : s.spaceOf t = none ↔ ∀ sp, (t, sp) ∉ s.live := by
  unfold spaceOf
  rw [Option.map_eq_none_iff, List.find?_eq_none]
  constructor
  · intro h sp hmem
    simpa using h _ hmem
  · rintro h ⟨u, sp⟩ hmem
    simp only [decide_eq_true_eq]
    rintro rfl
    exact h sp hmem

/-- Without the space of `t`. -/
abbrev others (s : Processes) (t : ℕ) : List (ℕ × AddrSpace) := s.live.filter fun e => e.1 ≠ t

theorem mem_others : (u, sp) ∈ s.others t ↔ (u, sp) ∈ s.live ∧ u ≠ t := by
  simp [others]

theorem split_others (hn : (s.live.map Prod.fst).Nodup) (h : (t, sp) ∈ s.live) :
    ∃ l₁ l₂, s.live = l₁ ++ (t, sp) :: l₂ ∧ s.others t = l₁ ++ l₂ := by
  obtain ⟨l₁, l₂, he⟩ := List.append_of_mem h
  rw [he, List.map_append, List.map_cons] at hn
  refine ⟨l₁, l₂, he, ?_⟩
  have hne : ∀ e ∈ l₁ ++ l₂, e.1 ≠ t := by
    rintro e hmem rfl
    rw [List.nodup_middle, List.nodup_cons, List.mem_append, List.mem_map, List.mem_map] at hn
    rcases List.mem_append.mp hmem with hmem | hmem
    · exact hn.1 (Or.inl ⟨e, hmem, rfl⟩)
    · exact hn.1 (Or.inr ⟨e, hmem, rfl⟩)
  rw [others, he, List.filter_append, List.filter_cons_of_neg (by simp), ← List.filter_append]
  exact List.filter_eq_self.mpr fun e hmem => by simpa using hne e hmem

/-- `FreeSpace` destroys one of the spaces. -/
theorem freeSpace_spaces (hn : (s.live.map Prod.fst).Nodup) (hsp : s.spaceOf t = some sp)
    {bm : BitMap} (hd : sp.destroy s.bits = some bm) :
    ∃ k, s.spaces.step (.destroy k) =
      some { loader := s.loader.setBitMap bm, live := (s.others t).map Prod.snd } := by
  obtain ⟨l₁, l₂, he, ho⟩ := split_others hn ((spaceOf_eq_some hn).mp hsp)
  refine ⟨l₁.length, ?_⟩
  have hl : s.spaces.live = l₁.map Prod.snd ++ sp :: l₂.map Prod.snd := by
    rw [spaces, he, List.map_append, List.map_cons]
  have hk : s.spaces.live[l₁.length]? = some sp := by
    rw [hl, List.getElem?_append_right (by simp)]
    simp
  have herase : s.spaces.live.eraseIdx l₁.length = (s.others t).map Prod.snd := by
    rw [hl, ho, List.eraseIdx_append_of_length_le (by simp), List.map_append]
    simp
  rw [Spaces.step, hk, Option.bind_some, herase]
  show (sp.destroy s.bits).map _ = _
  rw [hd]
  rfl

/-! ## What a step can do -/

/-- The function of the process table that a user instruction calls. -/
def Instr.call (t : ℕ) : Instr → Option Procs.Label
  | .other => none
  | .exec name => some (.exec t (some name))
  | .join id => some (.join t id)
  | .exit status => if status = 0 then some (.exit t 0) else none

theorem Instr.call_thread {i : Instr} {l : Procs.Label} (h : i.call t = some l) : l.thread = t := by
  unfold Instr.call at h
  cases i with
  | other => cases h
  | exec name | join id => cases h; rfl
  | exit status =>
    simp only at h
    split_ifs at h
    cases h
    rfl

/-- The thread executes the instruction at `pc`. -/
structure Fetched (s : Processes) (t : ℕ) (pc : Word) : Prop where
  user : s.procs.pt t = .user
  fetched : ∃ sp, s.spaceOf t = some sp ∧ s.fetch sp pc = none

theorem step_fetched (hd : s.procs.down = none) {pc : Word} (hf : s.Fetched t pc) (i : Instr) :
    s.step (.instruction t pc i) = s.execute t i := by
  obtain ⟨sp, hsp, hfetch⟩ := hf.fetched
  unfold step
  simp only [hd, hf.user, hsp, hfetch, Option.isSome_none, Bool.false_eq_true, if_false, if_true,
    Option.bind_some]

/-- What is left of `s` when `t` has lost its space. -/
def without (s : Processes) (t : ℕ) (sp : AddrSpace) (bm : BitMap) : Processes :=
  { s with loader := s.loader.setBitMap bm, live := s.others t,
           freed := s.freed ++ [(t, sp.frames)] }

/-- What every reachable state has. -/
structure Inv (s : Processes) : Prop where
  lock : s.procs.LockInv
  frames : FrameAccounting s.spaces ∧ s.spaces.bits.numBits = physPageBits
  nodup : (s.live.map Prod.fst).Nodup
  /-- No space is deleted twice. -/
  once : (s.freed.map Prod.fst).Nodup
  active : ∀ t sp, (t, sp) ∈ s.live → (s.procs.pt t).active = true
  gone : s.procs.down = none → ∀ t fs, (t, fs) ∈ s.freed → s.procs.pt t = .dead
  /-- A thread in the kernel has come from its user program. -/
  busy : s.procs.down = none → ∀ t, (s.procs.pt t).active = true → s.procs.pt t ≠ .user →
    ∃ sp, s.spaceOf t = some sp

/-- What a step in a state with `Inv` can be. -/
inductive Act (s : Processes) : Label → Processes → Prop
  | started {t : ℕ} {stack : ℕ → Byte} {file : List Byte} {c : Constructor} {sp : AddrSpace}
      {l : Loader} (hp : s.procs.pt t = .user) (hn : s.spaceOf t = none)
      (hb : AddrSpace.build c stack (some file) s.loader = (.returned sp, l)) :
      Act s (.start t stack file) { s with loader := l, live := s.live ++ [(t, sp)] }
  | down {l : Label} (d : Down) : Act s l (s.stop d)
  | idle {t : ℕ} {pc : Word} {i : Instr} (hf : s.Fetched t pc) (hi : i.call t = none) :
      Act s (.instruction t pc i) s
  | call {t : ℕ} {pc : Word} {i : Instr} {l : Procs.Label} {p : Procs} (hf : s.Fetched t pc)
      (hl : i.call t = some l) (hs : s.procs.step l = some p) :
      Act s (.instruction t pc i) (s.setProcs p)
  | halt {t : ℕ} {pc : Word} {p : Procs} {sp : AddrSpace} {bm : BitMap} (hf : s.Fetched t pc)
      (hs : s.procs.step (.exit t 0) = some p) (hd : p.down = some .halted)
      (hsp : s.spaceOf t = some sp) (hbm : sp.destroy s.bits = some bm) :
      Act s (.instruction t pc (.exit 0)) ((s.setProcs p).without t sp bm)
  | run {t : ℕ} {nm : Name} {p : Procs} (hs : s.procs.step (.run t nm) = some p)
      (hr : s.procs.pt t ≠ .exitRemove) : Act s (.run t nm) (s.setProcs p)
  | remove {t : ℕ} {nm : Name} {p : Procs} {sp : AddrSpace} {bm : BitMap}
      (hs : s.procs.step (.run t nm) = some p) (hr : s.procs.pt t = .exitRemove)
      (hp : p.pt t = .dead) (hd : p.down = none)
      (hsp : s.spaceOf t = some sp) (hbm : sp.destroy s.bits = some bm) :
      Act s (.run t nm) ((s.setProcs p).without t sp bm)

/-- The space of a thread can be deleted. -/
theorem Inv.destroy (hi : s.Inv) (hsp : s.spaceOf t = some sp) :
    ∃ bm, sp.destroy s.bits = some bm := by
  have hmem : sp ∈ s.spaces.live :=
    List.mem_map_of_mem (f := Prod.snd) ((spaceOf_eq_some hi.nodup).mp hsp)
  refine ⟨_, destroy_eq (hi.frames.1.pages sp hmem) fun f hf => ?_⟩
  have hn : s.bits.numBits = physPageBits := hi.frames.2
  rw [hn]
  exact hi.frames.1.found sp hmem f hf

theorem freeSpace_eq (hsp : s.spaceOf t = some sp) {bm : BitMap}
    (hbm : sp.destroy s.bits = some bm) : s.freeSpace t = s.without t sp bm := by
  unfold freeSpace
  simp only [hsp, hbm]
  rfl

theorem leaveExit_of_exiting (h : s.procs.down ≠ none ∨ (s.procs.pt t).exiting = true) :
    s.leaveExit t = s := by
  unfold leaveExit
  split_ifs with hd
  · rfl
  · have hx := h.resolve_left fun h => hd (Option.isSome_iff_ne_none.mpr h)
    split
    · rename_i hpt; rw [hpt] at hx; cases hx
    · rename_i hpt; rw [hpt] at hx; cases hx
    · rfl

theorem act_exit (hi : s.Inv) {pc : Word} (hf : s.Fetched t pc) {status : Word}
    (h : s.scExit t status = some s') : s.Act (.instruction t pc (.exit status)) s' := by
  unfold scExit at h
  by_cases hst : status = 0
  swap
  · rw [if_pos hst] at h
    obtain rfl := Option.some.inj h
    exact .idle hf (if_neg hst)
  subst hst
  rw [if_neg (not_not.mpr rfl)] at h
  obtain ⟨p, hs, rfl⟩ := Option.map_eq_some_iff.mp h
  have hs : s.procs.step (.exit t 0) = some p := hs
  obtain ⟨-, ⟨h0, hd⟩ | ⟨h0, hd⟩⟩ := Procs.exit_step hi.lock.table hs
  · obtain ⟨sp, hsp, -⟩ := hf.fetched
    obtain ⟨bm, hbm⟩ := hi.destroy hsp
    rw [if_pos h0, freeSpace_eq (s := s.setProcs p) hsp hbm]
    exact .halt hf hs hd hsp hbm
  · have hstay : p.down ≠ none ∨ (p.pt t).exiting = true := by
      refine hd.imp_left fun hd => ?_
      rw [hd]
      exact nofun
    rw [if_neg h0, leaveExit_of_exiting hstay]
    exact .call hf (l := .exit t 0) rfl hs

theorem act_run (hi : s.Inv) (hd : s.procs.down = none) {nm : Name} {p : Procs}
    (hs : s.procs.step (.run t nm) = some p) {q : Processes}
    (hq : (if (s.procs.pt t).exiting then (s.setProcs p).leaveExit t else s.setProcs p) = q) :
    q.procs = p ∧ s.Act (.run t nm) q := by
  subst hq
  by_cases hr : s.procs.pt t = .exitRemove
  swap
  · have hrun := Act.run hs hr
    split_ifs with hx
    · rcases (Procs.step_act hi.lock.table hs).2.exiting hx with hx' | ⟨hr', -⟩
      · rw [leaveExit_of_exiting (Or.inr hx')]
        exact ⟨rfl, hrun⟩
      · exact absurd hr' hr
    · exact ⟨rfl, hrun⟩
  -- `Remove` deletes the `PCB` and the space of its thread
  have hp : p = s.procs.remove t := by
    rw [Procs.step] at hs
    simpa [hd, hr, Pt.waits, Procs.block] using hs.symm
  rw [(hi.lock.table.remove_eq hr).2] at hp
  have hpt : p.pt t = .dead := by rw [hp]; simp
  have hpd : p.down = none := by rw [hp]; exact hd
  obtain ⟨sp, hsp⟩ := hi.busy hd t (by rw [hr]; rfl) (by rw [hr]; rintro ⟨⟩)
  obtain ⟨bm, hbm⟩ := hi.destroy hsp
  have hleave : (s.setProcs p).leaveExit t = (s.setProcs p).without t sp bm := by
    unfold leaveExit setProcs
    simp only [hpd, hpt, Option.isSome_none, Bool.false_eq_true, if_false]
    exact freeSpace_eq (s := s.setProcs p) hsp hbm
  rw [if_pos (by rw [hr]; rfl), hleave]
  exact ⟨rfl, .remove hs hr hpt hpd hsp hbm⟩

/-- The list of steps is complete: `ExitUpdate` does not return. -/
theorem step_act (hi : s.Inv) {l : Label} (h : s.step l = some s') :
    s.procs.down = none ∧ s.Act l s' := by
  unfold step at h
  split_ifs at h with hd
  have hdown : s.procs.down = none := by simpa using hd
  refine ⟨hdown, ?_⟩
  cases l with
  | start t stack file =>
    simp only at h
    split_ifs at h with hc
    obtain rfl := Option.some.inj h
    unfold startProcess
    split
    · exact .started hc.1 hc.2 ‹_›
    · exact .down .aborted
  | instruction t pc i =>
    simp only at h
    split_ifs at h with hp
    obtain ⟨sp, hsp, h⟩ := Option.bind_eq_some_iff.mp h
    rcases hf : s.fetch sp pc with _ | d
    swap
    · rw [hf] at h
      obtain rfl := Option.some.inj h
      exact .down d
    rw [hf] at h
    have hfetch : s.Fetched t pc := ⟨hp, sp, hsp, hf⟩
    cases i with
    | other =>
      obtain rfl := Option.some.inj h
      exact .idle hfetch rfl
    | exec name | join id =>
      obtain ⟨p, hs, rfl⟩ := Option.map_eq_some_iff.mp h
      exact .call hfetch rfl hs
    | exit status => exact act_exit hi hfetch h
  | run t nm =>
    obtain ⟨p, hs, rfl⟩ := Option.map_eq_some_iff.mp h
    exact (act_run hi hdown hs rfl).2

/-! ## The invariant -/

namespace Inv

variable {l : Procs.Label} {p : Procs} {bm : BitMap}

theorem start (hi : s.Inv) {c : Constructor} {stack : ℕ → Byte} {file : List Byte} {ld : Loader}
    (hp : s.procs.pt t = .user) (hn : s.spaceOf t = none)
    (hb : AddrSpace.build c stack (some file) s.loader = (.returned sp, ld)) :
    Inv { s with loader := ld, live := s.live ++ [(t, sp)] } := by
  have hnodup : ((s.live ++ [(t, sp)]).map Prod.fst).Nodup := by
    rw [List.map_append, List.map_singleton]
    refine hi.nodup.append (List.nodup_singleton t) fun u hu ht => ?_
    obtain ⟨⟨v, sp'⟩, hmem, rfl⟩ := List.mem_map.mp hu
    obtain rfl : v = t := List.mem_singleton.mp ht
    exact spaceOf_eq_none.mp hn sp' hmem
  have hs : s.spaces.step (.create c stack file) =
      some { loader := ld, live := (s.live ++ [(t, sp)]).map Prod.snd } := by
    have hb' : AddrSpace.build c stack (some file) s.spaces.loader = (.returned sp, ld) := hb
    simp only [Spaces.step, hb', List.map_append]
    rfl
  refine ⟨hi.lock, FrameAccounting.step hi.frames hs, hnodup, hi.once, fun u sp' hmem => ?_,
    hi.gone, fun hd u ha hu => ?_⟩
  · rcases List.mem_append.mp hmem with hmem | hmem
    · exact hi.active u sp' hmem
    · cases List.mem_singleton.mp hmem
      show (s.procs.pt t).active = true
      rw [hp]
      rfl
  · obtain ⟨sp', hsp'⟩ := hi.busy hd u ha hu
    exact ⟨sp', (spaceOf_eq_some hnodup).mpr
      (List.mem_append_left _ ((spaceOf_eq_some hi.nodup).mp hsp'))⟩

theorem down (hi : s.Inv) (d : Down) : (s.stop d).Inv :=
  ⟨hi.lock.stop d, hi.frames, hi.nodup, hi.once, hi.active, nofun, nofun⟩

/-- A step of the table other than `Remove`. -/
theorem procs (hi : s.Inv) (hd : s.procs.down = none) (hs : s.procs.step l = some p)
    (hr : s.procs.pt l.thread ≠ .exitRemove)
    (hsp : s.procs.pt l.thread = .user → ∃ sp, s.spaceOf l.thread = some sp) :
    (s.setProcs p).Inv := by
  have ht := hi.lock.table
  refine ⟨hi.lock.step hs, hi.frames, hi.nodup, hi.once, fun u sp hmem => ?_, fun _ u fs hmem => ?_,
    fun _ u ha hu => ?_⟩
  · exact Procs.active_kept ht hs (hi.active u sp hmem) fun h => hr (h.1 ▸ h.2)
  · exact Procs.dead_kept ht hs (hi.gone hd u fs hmem)
  · have hact := (Procs.active_before ht hs ha).resolve_right hu
    by_cases hul : u = l.thread
    · by_cases hus : s.procs.pt u = .user
      · obtain ⟨sp, h⟩ := hsp (hul ▸ hus)
        exact ⟨sp, hul ▸ h⟩
      · exact hi.busy hd u hact hus
    · have hpt : p.pt u = s.procs.pt u :=
        Procs.pt_kept ht (Procs.step_act ht hs).2 hul hact
      exact hi.busy hd u hact fun h => hu (hpt.trans h)

/-- The end of a process. -/
theorem without (hi : s.Inv) (hd : s.procs.down = none) (hs : s.procs.step l = some p)
    (hend : p.down ≠ none ∨ p.pt l.thread = .dead) (hsp : s.spaceOf l.thread = some sp)
    (hbm : sp.destroy s.bits = some bm) : ((s.setProcs p).without l.thread sp bm).Inv := by
  have ht := hi.lock.table
  obtain ⟨k, hk⟩ := freeSpace_spaces hi.nodup hsp hbm
  have hactive := Procs.step_active hs
  have hnodup : ((s.others l.thread).map Prod.fst).Nodup :=
    hi.nodup.sublist (List.filter_sublist.map Prod.fst)
  refine ⟨hi.lock.step hs, FrameAccounting.step hi.frames hk, hnodup, ?_, fun u sp' hmem => ?_,
    fun hp u fs hmem => ?_, fun hp u ha hu => ?_⟩
  · show ((s.freed ++ [(l.thread, sp.frames)]).map Prod.fst).Nodup
    rw [List.map_append, List.map_singleton]
    refine hi.once.append (List.nodup_singleton _) fun u hu ht => ?_
    obtain ⟨⟨v, fs⟩, hmem, rfl⟩ := List.mem_map.mp hu
    obtain rfl : v = l.thread := List.mem_singleton.mp ht
    rw [hi.gone hd _ fs hmem] at hactive
    cases hactive
  · obtain ⟨hmem, hne⟩ := mem_others.mp hmem
    exact Procs.active_kept ht hs (hi.active u sp' hmem) fun h => hne h.1
  · rcases List.mem_append.mp hmem with hmem | hmem
    · exact Procs.dead_kept ht hs (hi.gone hd u fs hmem)
    · cases List.mem_singleton.mp hmem
      exact hend.resolve_left fun h => h hp
  · have hne : u ≠ l.thread := by
      rintro rfl
      have ha : (p.pt l.thread).active = true := ha
      rw [hend.resolve_left fun h => h hp] at ha
      cases ha
    have hact := (Procs.active_before ht hs ha).resolve_right hu
    have hpt : p.pt u = s.procs.pt u := Procs.pt_kept ht (Procs.step_act ht hs).2 hne hact
    obtain ⟨sp', hsp'⟩ := hi.busy hd u hact fun h => hu (hpt.trans h)
    exact ⟨sp', (spaceOf_eq_some hnodup).mpr
      (mem_others.mpr ⟨(spaceOf_eq_some hi.nodup).mp hsp', hne⟩)⟩

theorem step (hi : s.Inv) {l : Label} (h : s.step l = some s') : s'.Inv := by
  obtain ⟨hd, hact⟩ := step_act hi h
  cases hact with
  | started hp hn hb => exact hi.start hp hn hb
  | down d => exact hi.down d
  | idle => exact hi
  | @call t pc i l p hf hl hs =>
    have hlt := Instr.call_thread hl
    obtain ⟨sp, hsp, -⟩ := hf.fetched
    refine hi.procs hd hs ?_ fun _ => ⟨sp, hlt ▸ hsp⟩
    rw [hlt, hf.user]
    exact nofun
  | halt hf hs hd' hsp hbm => exact hi.without hd hs (Or.inl (by rw [hd']; exact nofun)) hsp hbm
  | @run t nm p hs hr =>
    refine hi.procs hd hs hr fun hu => ?_
    have hu : s.procs.pt t = .user := hu
    rw [Procs.step] at hs
    simp [hd, hu, Pt.waits, Procs.block] at hs
  | remove hs hr hp hd' hsp hbm => exact hi.without hd hs (Or.inr hp) hsp hbm

end Inv

theorem inv_init (h : s.Init) : s.Inv := by
  obtain ⟨hp, hsp, hf⟩ := h
  have hl : s.live = [] := List.map_eq_nil_iff.mp hsp.2.1
  refine ⟨Procs.lockInv_init hp, frameAccounting_init hsp, ?_, ?_, ?_, ?_, fun _ t ha hu => ?_⟩
  · rw [hl]; exact List.nodup_nil
  · rw [hf]; exact List.nodup_nil
  · rw [hl]; exact nofun
  · rw [hf]; exact nofun
  · obtain ⟨words, hw⟩ := hp
    rw [hw] at ha hu
    by_cases h0 : t = 0
    · exact absurd (if_pos h0) hu
    · rw [show (Procs.initial words).pt t = .unborn from if_neg h0] at ha
      cases ha

theorem inv_reach (h : Run.Reach step Init s) : s.Inv :=
  h.inv Inv (fun _ => inv_init) fun _ _ _ hi => hi.step

/-- The step of the process table that a step of the system comes with. -/
def Label.call : Label → Option Procs.Label
  | .start _ _ _ => none
  | .instruction t _ i => i.call t
  | .run t threadName => some (.run t threadName)

/-- Every step is a step of the process table or leaves it alone, unless it stops the machine. -/
theorem step_procs (hi : s.Inv) {l : Label} (h : s.step l = some s') :
    s'.procs = s.procs ∨ (∃ d, s' = s.stop d) ∨
      ∃ l', l.call = some l' ∧ s.procs.step l' = some s'.procs := by
  obtain ⟨-, hact⟩ := step_act hi h
  cases hact with
  | started | idle => exact Or.inl rfl
  | down d => exact Or.inr (Or.inl ⟨d, rfl⟩)
  | call _ hl hs => exact Or.inr (Or.inr ⟨_, hl, hs⟩)
  | halt _ hs => exact Or.inr (Or.inr ⟨_, rfl, hs⟩)
  | run hs | remove hs => exact Or.inr (Or.inr ⟨_, rfl, hs⟩)

theorem freed_kept (hi : s.Inv) {l : Label} (h : s.step l = some s') {e : ℕ × List ℤ}
    (he : e ∈ s.freed) : e ∈ s'.freed := by
  obtain ⟨-, hact⟩ := step_act hi h
  cases hact with
  | halt | remove => exact List.mem_append_left _ he
  | _ => exact he

/-- A space stays until `FreeSpace`. -/
theorem live_or_freed (hi : s.Inv) {l : Label} (h : s.step l = some s') (hm : (t, sp) ∈ s.live) :
    (t, sp) ∈ s'.live ∨ (t, sp.frames) ∈ s'.freed := by
  have hwithout : ∀ (q : Processes) (u : ℕ) (sp' : AddrSpace) (bm : BitMap), q.live = s.live →
      s.spaceOf u = some sp' → (t, sp) ∈ (q.without u sp' bm).live ∨
        (t, sp.frames) ∈ (q.without u sp' bm).freed := by
    intro q u sp' bm hq hsp'
    by_cases htu : t = u
    · subst htu
      rw [(spaceOf_eq_some hi.nodup).mpr hm, Option.some.injEq] at hsp'
      subst hsp'
      exact Or.inr (List.mem_append_right _ (List.mem_singleton.mpr rfl))
    · exact Or.inl (mem_others.mpr ⟨hq ▸ hm, htu⟩)
  obtain ⟨-, hact⟩ := step_act hi h
  cases hact with
  | started => exact Or.inl (List.mem_append_left _ hm)
  | down | idle | call | run => exact Or.inl hm
  | halt hf hs hd hsp hbm => exact hwithout _ _ _ _ rfl hsp
  | remove hs hr hp hd hsp hbm => exact hwithout _ _ _ _ rfl hsp

/-! ## Getting through -/

/-- What the process table can do without a call, the system can. -/
theorem step_run (hi : s.Inv) {nm : Name} {p : Procs} (h : s.procs.step (.run t nm) = some p) :
    ∃ s', s.step (.run t nm) = some s' ∧ s'.procs = p := by
  have hd : s.procs.down = none := by
    rw [Procs.step] at h
    split_ifs at h with hd
    simpa using hd
  refine ⟨_, ?_, (act_run hi hd h rfl).1⟩
  rw [step, hd, h]
  rfl

/-- The scheduler can lead from `s` to `s'` without a user instruction and without bringing the
machine down. -/
def Leads (s s' : Processes) : Prop :=
  ∃ ls : List Label, (∀ l ∈ ls, ∃ t nm, l = .run t nm) ∧ Run.exec step s ls = some s' ∧
    s'.procs.down = none

theorem Leads.down (h : s.Leads s') : s'.procs.down = none := by
  obtain ⟨-, -, -, hd⟩ := h
  exact hd

theorem Leads.inv (h : s.Leads s') (hi : s.Inv) : s'.Inv := by
  obtain ⟨ls, -, he, -⟩ := h
  exact Run.exec_inv (fun _ _ _ hi _ hs => Inv.step hi hs) ls s s' hi (Run.admits_true s ls) he

theorem Leads.trans {s'' : Processes} (h : s.Leads s') (h' : s'.Leads s'') : s.Leads s'' := by
  obtain ⟨ls, hl, he, -⟩ := h
  obtain ⟨ms, hm, hf, hd⟩ := h'
  refine ⟨ls ++ ms, fun l hmem => ?_, Run.exec_append.mpr ⟨s', he, hf⟩, hd⟩
  exact (List.mem_append.mp hmem).elim (hl l) (hm l)

theorem leads_of_procs (hi : s.Inv) {p : Procs} (h : s.procs.Leads p) :
    ∃ s', s.Leads s' ∧ s'.procs = p := by
  obtain ⟨ls, hl, he, hd⟩ := h
  induction ls generalizing s with
  | nil =>
    obtain rfl := Option.some.inj he
    exact ⟨s, ⟨[], nofun, rfl, hd⟩, rfl⟩
  | cons l ls ih =>
    obtain ⟨p₁, h₁, h₂⟩ := Run.exec_cons_eq_some.mp he
    obtain ⟨t, nm, rfl⟩ := hl l List.mem_cons_self
    obtain ⟨s₁, hs₁, rfl⟩ := step_run hi h₁
    obtain ⟨s', ⟨ms, hm, hf, hd'⟩, hp⟩ :=
      ih (hi.step hs₁) (fun l' hl' => hl l' (List.mem_cons_of_mem _ hl')) h₂
    refine ⟨s', ⟨.run t nm :: ms, fun l' hl' => ?_, Run.exec_cons_eq_some.mpr ⟨s₁, hs₁, hf⟩, hd'⟩,
      hp⟩
    rcases List.mem_cons.mp hl' with rfl | hl'
    · exact ⟨t, nm, rfl⟩
    · exact hm l' hl'

end Processes

end Nachos
