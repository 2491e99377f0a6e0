import Nachos.Machine.Exceptions
import Nachos.Threads.Finish

/-!
# User state across context switches, `scheduler.cc`, `thread.cc` and `progtest.cc`

`Scheduler::Run` saves the machine's registers for a thread with an address space and restores them,
with its page table, when that thread resumes. A thread that starts in `StartProcessWithID` sets all
of them itself. `AddrSpace` objects live on a heap: a process that ends deletes its own and finishes
with the pointer still set.

`Linked` is the invariant: every live thread's pointer leads to an object of its own, and the machine
has the page table of the current thread.
-/

namespace Nachos

/-- What `RestoreState` reads of an `AddrSpace`; the page table is an array somewhere. -/
structure SpaceObject where
  pageTable : ℕ
  numPages : ℕ
  deriving DecidableEq, Repr

/-- The scheduler with the user state of the machine and of the threads. -/
structure UserSched where
  sched : Sched
  registers : Registers
  pageTable : ℕ
  pageTableSize : ℕ
  /-- `Thread::space`, a pointer. -/
  space : ℕ → Option ℕ
  userRegisters : ℕ → Registers
  heap : ℕ → Option SpaceObject
  /-- `RestoreState` was called on an object that had been deleted. -/
  dangling : Bool

namespace UserSched

/-! ## The operations -/

/-- `Thread::SaveUserState` -/
def saveUserState (u : UserSched) (t : ℕ) : UserSched :=
  { u with userRegisters := Function.update u.userRegisters t fun i =>
      if i < numTotalRegs then u.registers i else u.userRegisters t i }

/-- `Thread::RestoreUserState` -/
def restoreUserState (u : UserSched) (t : ℕ) : UserSched :=
  { u with registers := fun i => if i < numTotalRegs then u.userRegisters t i else u.registers i }

/-- `AddrSpace::RestoreState` -/
def restoreState (u : UserSched) (p : ℕ) : UserSched :=
  match u.heap p with
  | some sp => { u with pageTable := sp.pageTable, pageTableSize := sp.numPages }
  | none => { u with dangling := true }

/-- The first half of `Scheduler::Run`; `SaveState` does nothing. -/
def switchOut (u : UserSched) : UserSched :=
  if (u.space u.sched.currentThread).isSome then u.saveUserState u.sched.currentThread else u

/-- The second half of `Scheduler::Run`, for a thread that comes back from `SWITCH`. -/
def switchIn (u : UserSched) (t : ℕ) : UserSched :=
  match u.space t with
  | some p => (u.restoreUserState t).restoreState p
  | none => u

/-- `Scheduler::Run`; `sched` is the scheduler when `nextThread` goes on. -/
def run (u : UserSched) (sched : Sched) (nextThread : ℕ) : UserSched :=
  if u.sched.fresh nextThread then { u.switchOut with sched := sched }
  else { u.switchOut with sched := sched }.switchIn nextThread

/-- An operation of the scheduler with the switch it may lead to. -/
def schedule (u : UserSched) (op : Sched.Op) : Option UserSched :=
  (u.sched.step op).map fun s' =>
    match u.sched.dispatched op with
    | some nextThread => u.run s' nextThread
    | none => { u with sched := s' }

/-- `Thread::FreeSpace`; the pointer stays. -/
def freeSpace (u : UserSched) : UserSched :=
  match u.space u.sched.currentThread with
  | some p => { u with heap := Function.update u.heap p none }
  | none => u

/-- The end of `StartProcess` and `StartProcessWithID`, once the address space `sp` has been built
at `p`. -/
def startProcess (u : UserSched) (p : ℕ) (sp : SpaceObject) : UserSched :=
  { u with
    heap := Function.update u.heap p (some sp)
    space := Function.update u.space u.sched.currentThread (some p)
    registers := initRegisters sp.numPages }.restoreState p

inductive UserOp where
  | sched (op : Sched.Op)
  /-- The current thread leaves any values in the registers, by user instructions or in a handler. -/
  | execute (r : Registers)
  | startProcess (p : ℕ) (sp : SpaceObject)
  /-- The current thread ends its process: `FreeSpace`, then `Finish`. -/
  | exit

def step (u : UserSched) : UserOp → Option UserSched
  | .sched op => u.schedule op
  | .execute r => if u.sched.mode = .running then some { u with registers := r } else none
  | .startProcess p sp =>
    if u.sched.mode = .running ∧ u.heap p = none then some (u.startProcess p sp) else none
  | .exit => if u.sched.mode = .running then u.freeSpace.schedule .finish else none

/-- The thread that gets the processor. -/
def dispatched (u : UserSched) : UserOp → Option ℕ
  | .sched op => u.sched.dispatched op
  | .exit => u.sched.dispatched .finish
  | _ => none

/-- The main thread runs, and there is no user program yet. -/
def start (values : ℕ → ℤ) (r : Registers) : UserSched where
  sched := Sched.start values
  registers := r
  pageTable := 0
  pageTableSize := 0
  space := fun _ => none
  userRegisters := fun _ => r
  heap := fun _ => none
  dangling := false

def Init (u : UserSched) : Prop := ∃ values r, u = start values r

/-! ## One switch -/

variable {u u' : UserSched} {t n p : ℕ} {s' : Sched} {sp : SpaceObject}

/-- What no switch changes. -/
theorem switchOut_frame : u.switchOut.space = u.space ∧ u.switchOut.heap = u.heap ∧
    u.switchOut.pageTable = u.pageTable ∧ u.switchOut.pageTableSize = u.pageTableSize ∧
    u.switchOut.dangling = u.dangling := by
  unfold switchOut
  split
  · exact ⟨rfl, rfl, rfl, rfl, rfl⟩
  · exact ⟨rfl, rfl, rfl, rfl, rfl⟩

theorem switchOut_userRegisters_self (h : u.space u.sched.currentThread = some p) {i : ℕ}
    (hi : i < numTotalRegs) :
    u.switchOut.userRegisters u.sched.currentThread i = u.registers i := by
  unfold switchOut
  rw [if_pos (by rw [h]; rfl)]
  show Function.update u.userRegisters _ _ _ i = _
  rw [Function.update_self, if_pos hi]

theorem switchOut_userRegisters_of_ne (h : u.sched.currentThread ≠ t) :
    u.switchOut.userRegisters t = u.userRegisters t := by
  unfold switchOut
  split
  · exact Function.update_of_ne h.symm _ _
  · rfl

theorem switchIn_frame (t : ℕ) : (u.switchIn t).space = u.space ∧ (u.switchIn t).heap = u.heap ∧
    (u.switchIn t).userRegisters = u.userRegisters ∧ (u.switchIn t).sched = u.sched := by
  unfold switchIn
  split
  · unfold restoreState
    split
    · exact ⟨rfl, rfl, rfl, rfl⟩
    · exact ⟨rfl, rfl, rfl, rfl⟩
  · exact ⟨rfl, rfl, rfl, rfl⟩

theorem switchIn_some (hs : u.space t = some p) (hp : u.heap p = some sp) :
    u.switchIn t = { u.restoreUserState t with
      pageTable := sp.pageTable, pageTableSize := sp.numPages } := by
  have hp' : (u.restoreUserState t).heap p = some sp := hp
  unfold switchIn restoreState
  rw [hs]
  simp only [hp']

theorem run_frame (u : UserSched) (s' : Sched) (n : ℕ) :
    (u.run s' n).space = u.space ∧ (u.run s' n).heap = u.heap ∧
    (u.run s' n).userRegisters = u.switchOut.userRegisters ∧ (u.run s' n).sched = s' := by
  obtain ⟨h₁, h₂, -⟩ := switchOut_frame (u := u)
  unfold run
  split
  · exact ⟨h₁, h₂, rfl, rfl⟩
  · obtain ⟨h₃, h₄, h₅, h₆⟩ := switchIn_frame (u := { u.switchOut with sched := s' }) n
    exact ⟨h₃.trans h₁, h₄.trans h₂, h₅, h₆⟩

/-- A thread that resumes finds what is saved for it. -/
theorem run_resumes (s' : Sched) (hf : u.sched.fresh t = false) (hs : u.space t = some p)
    (hp : u.heap p = some sp) :
    (∀ i < numTotalRegs, (u.run s' t).registers i = u.switchOut.userRegisters t i) ∧
    (u.run s' t).pageTable = sp.pageTable ∧ (u.run s' t).pageTableSize = sp.numPages ∧
    (u.run s' t).dangling = u.dangling := by
  obtain ⟨h₁, h₂, -, -, h₃⟩ := switchOut_frame (u := u)
  have hs' : { u.switchOut with sched := s' }.space t = some p := by rw [← hs, ← h₁]
  have hp' : { u.switchOut with sched := s' }.heap p = some sp := by rw [← hp, ← h₂]
  unfold run
  rw [if_neg (by rw [hf]; exact Bool.false_ne_true), switchIn_some hs' hp']
  exact ⟨fun i hi => if_pos hi, rfl, rfl, h₃⟩

/-! ## The invariant -/

/-- Every live thread with an address space has one of its own, and the machine has the page table
of the current thread. -/
structure Linked (live : ℕ → Prop) (u : UserSched) : Prop where
  inv : u.sched.Inv
  known : ∀ t p, u.space t = some p → t ∈ u.sched.threads
  fresh : ∀ t, u.sched.fresh t = true → u.space t = none
  awake : u.sched.fresh u.sched.currentThread = false
  owned : ∀ t p, live t → u.space t = some p → u.heap p ≠ none
  apart : ∀ t t' p, live t → live t' → u.space t = some p → u.space t' = some p → t = t'
  table : ∀ p sp, live u.sched.currentThread → u.space u.sched.currentThread = some p →
    u.heap p = some sp → u.pageTable = sp.pageTable ∧ u.pageTableSize = sp.numPages
  sound : u.dangling = false

theorem linked_start (values : ℕ → ℤ) (r : Registers) :
    Linked (start values r).sched.Alive (start values r) where
  inv := Sched.inv_start values
  known := nofun
  fresh := fun _ _ => rfl
  awake := rfl
  owned := nofun
  apart := nofun
  table := nofun
  sound := rfl

/-- The operations of the scheduler; `live` may leave out a thread that ends with this one. -/
theorem Linked.schedule {live : ℕ → Prop} {op : Sched.Op} (h : Linked live u)
    (hlive : ∀ t, u.sched.Alive t → (op = .finish → t ≠ u.sched.currentThread) → live t)
    (hs : u.schedule op = some u') : Linked u'.sched.Alive u' := by
  obtain ⟨s', hstep, rfl⟩ := Option.map_eq_some_iff.mp hs
  have heff := Sched.effect_step hstep
  have hinv' : s'.Inv := h.inv.step hstep
  -- a live thread with an address space was live before
  have hold : ∀ t p, s'.Alive t → u.space t = some p → live t := by
    rintro t p ⟨-, hfin⟩ hsp
    rw [heff.finished, List.mem_append, not_or] at hfin
    refine hlive t ⟨h.known t p hsp, hfin.1⟩ ?_
    rintro rfl rfl
    exact hfin.2 (by rw [if_pos rfl]; exact List.mem_singleton_self _)
  have hknown : ∀ t p, u.space t = some p → t ∈ s'.threads :=
    fun t p hsp => (heff.threads t).mpr (.inl (h.known t p hsp))
  have hfresh : ∀ t, s'.fresh t = true → u.space t = none := by
    intro t ht
    rw [heff.fresh, Bool.and_eq_true] at ht
    exact h.fresh t ht.1
  have howned : ∀ t p, s'.Alive t → u.space t = some p → u.heap p ≠ none :=
    fun t p ha hsp => h.owned t p (hold t p ha hsp) hsp
  have hapart : ∀ t t' p, s'.Alive t → s'.Alive t' → u.space t = some p → u.space t' = some p →
      t = t' :=
    fun t t' p ha ha' hsp hsp' => h.apart t t' p (hold t p ha hsp) (hold t' p ha' hsp') hsp hsp'
  have hcur := heff.current
  cases hd : u.sched.dispatched op with
  | none =>
    rw [hd, Option.getD_none] at hcur
    refine ⟨hinv', hknown, hfresh, ?_, howned, hapart, ?_, h.sound⟩
    · show s'.fresh s'.currentThread = false
      rw [heff.fresh, hcur, h.awake, Bool.false_and]
    · intro p sp ha hsp hp
      have hsp' : u.space s'.currentThread = some p := hsp
      have hlv := hold _ p ha hsp'
      rw [hcur] at hsp' hlv
      exact h.table p sp hlv hsp' hp
  | some n =>
    rw [hd, Option.getD_some] at hcur
    obtain ⟨hspace, hheap, -, hsched⟩ := run_frame u s' n
    obtain ⟨-, -, -, -, hdg⟩ := switchOut_frame (u := u)
    have halive : s'.Alive n := by
      have := hinv'.current_alive (heff.dispatched (by rw [hd]; exact nofun))
      rwa [hcur] at this
    have hawake : s'.fresh n = false := by
      rw [heff.fresh, hd]
      simp
    -- the thread resumes with its own page table, or has none
    have hrun : (∀ p sp, u.space n = some p → u.heap p = some sp →
        (u.run s' n).pageTable = sp.pageTable ∧ (u.run s' n).pageTableSize = sp.numPages) ∧
        (u.run s' n).dangling = false := by
      cases hsp : u.space n with
      | none =>
        refine ⟨nofun, ?_⟩
        have hsp' : ({ u.switchOut with sched := s' } : UserSched).space n = none := by
          rw [← hsp, ← (switchOut_frame (u := u)).1]
        unfold UserSched.run switchIn
        rw [hsp']
        split
        · exact hdg.trans h.sound
        · exact hdg.trans h.sound
      | some p =>
        obtain ⟨sp, hp⟩ := Option.ne_none_iff_exists'.mp (howned n p halive hsp)
        have hf : u.sched.fresh n = false := by
          by_contra hf
          rw [h.fresh n (by simpa using hf)] at hsp
          cases hsp
        obtain ⟨-, h₁, h₂, h₃⟩ := run_resumes s' hf hsp hp
        refine ⟨?_, h₃.trans h.sound⟩
        rintro _ sp' ⟨⟩ hp'
        rw [hp] at hp'
        cases hp'
        exact ⟨h₁, h₂⟩
    show Linked (u.run s' n).sched.Alive (u.run s' n)
    refine ⟨?_, ?_, ?_, ?_, ?_, ?_, fun p sp _ hsp hp => ?_, hrun.2⟩
    · rwa [hsched]
    · rwa [hspace, hsched]
    · rwa [hspace, hsched]
    · rwa [hsched, hcur]
    · rwa [hspace, hheap, hsched]
    · rwa [hspace, hsched]
    · rw [hspace, hsched, hcur] at hsp
      rw [hheap] at hp
      exact hrun.1 p sp hsp hp

theorem startProcess_eq : u.startProcess p sp = { u with
    heap := Function.update u.heap p (some sp)
    space := Function.update u.space u.sched.currentThread (some p)
    registers := initRegisters sp.numPages
    pageTable := sp.pageTable
    pageTableSize := sp.numPages } := by
  unfold startProcess restoreState
  simp only [Function.update_self]

/-- A new process: its object is at a free place, so it is nobody else's. -/
theorem Linked.startProcess (h : Linked u.sched.Alive u) (hm : u.sched.mode = .running)
    (hp : u.heap p = none) :
    Linked (u.startProcess p sp).sched.Alive (u.startProcess p sp) := by
  have hrun : u.sched.mode ≠ .idle := by rw [hm]; exact nofun
  have halive := h.inv.current_alive hrun
  -- no live thread has its address space there
  have hfree : ∀ t, u.sched.Alive t → u.space t ≠ some p :=
    fun t ha hsp => h.owned t p ha hsp hp
  have hspace : ∀ t q, Function.update u.space u.sched.currentThread (some p) t = some q →
      t = u.sched.currentThread ∧ q = p ∨ t ≠ u.sched.currentThread ∧ u.space t = some q := by
    intro t q hq
    by_cases ht : t = u.sched.currentThread
    · rw [ht, Function.update_self] at hq
      exact .inl ⟨ht, (Option.some.inj hq).symm⟩
    · rw [Function.update_of_ne ht] at hq
      exact .inr ⟨ht, hq⟩
  rw [startProcess_eq]
  refine ⟨h.inv, fun t q hq => ?_, fun t ht => ?_, h.awake, fun t q ha hq => ?_,
    fun t t' q ha ha' hq hq' => ?_, fun q sp' _ hq hq' => ?_, h.sound⟩
  · rcases hspace t q hq with ⟨rfl, -⟩ | ⟨-, hq⟩
    · exact halive.1
    · exact h.known t q hq
  · have hne : t ≠ u.sched.currentThread := by
      rintro rfl
      exact Bool.false_ne_true (h.awake.symm.trans ht)
    show Function.update u.space _ _ t = none
    rw [Function.update_of_ne hne]
    exact h.fresh t ht
  · show Function.update u.heap p (some sp) q ≠ none
    rcases hspace t q hq with ⟨-, rfl⟩ | ⟨-, hold⟩
    · rw [Function.update_self]
      exact nofun
    · have hqp : q ≠ p := by
        rintro rfl
        exact hfree t ha hold
      rw [Function.update_of_ne hqp]
      exact h.owned t q ha hold
  · rcases hspace t q hq with ⟨rfl, rfl⟩ | ⟨-, hold⟩
    · rcases hspace t' q hq' with ⟨rfl, -⟩ | ⟨-, hold'⟩
      · rfl
      · exact absurd hold' (hfree t' ha')
    · rcases hspace t' q hq' with ⟨-, rfl⟩ | ⟨-, hold'⟩
      · exact absurd hold (hfree t ha)
      · exact h.apart t t' q ha ha' hold hold'
  · rcases hspace _ q hq with ⟨-, rfl⟩ | ⟨hne, -⟩
    · have hsp : some sp = some sp' := by
        rw [← hq']
        exact (Function.update_self q (some sp) u.heap).symm
      cases hsp
      exact ⟨rfl, rfl⟩
    · exact absurd rfl hne

/-- `FreeSpace` deletes an object that no other live thread has. -/
theorem freeSpace_heap (h : Linked u.sched.Alive u) (hm : u.sched.mode = .running)
    (ha : u.sched.Alive t) (ht : t ≠ u.sched.currentThread) (hsp : u.space t = some p) :
    u.freeSpace.heap p = u.heap p := by
  have halive := h.inv.current_alive (by rw [hm]; exact nofun)
  unfold freeSpace
  split
  · rename_i q hq
    have hne : p ≠ q := by
      rintro rfl
      exact ht (h.apart t _ p ha halive hsp hq)
    exact Function.update_of_ne hne _ _
  · rfl

theorem freeSpace_frame : u.freeSpace.sched = u.sched ∧ u.freeSpace.space = u.space ∧
    u.freeSpace.userRegisters = u.userRegisters ∧ u.freeSpace.registers = u.registers ∧
    u.freeSpace.dangling = u.dangling := by
  unfold freeSpace
  split
  · exact ⟨rfl, rfl, rfl, rfl, rfl⟩
  · exact ⟨rfl, rfl, rfl, rfl, rfl⟩

theorem Linked.freeSpace (h : Linked u.sched.Alive u) (hm : u.sched.mode = .running) :
    Linked (fun t => u.sched.Alive t ∧ t ≠ u.sched.currentThread) u.freeSpace := by
  obtain ⟨hsched, hspace, -, -, hdg⟩ := freeSpace_frame (u := u)
  refine ⟨?_, ?_, ?_, ?_, fun t p ha hsp => ?_, fun t t' p ha ha' => ?_, fun p sp ha => ?_, ?_⟩
  · rw [hsched]
    exact h.inv
  · rw [hsched, hspace]
    exact h.known
  · rw [hsched, hspace]
    exact h.fresh
  · rw [hsched]
    exact h.awake
  · rw [hspace] at hsp
    rw [freeSpace_heap h hm ha.1 ha.2 hsp]
    exact h.owned t p ha.1 hsp
  · rw [hspace]
    exact h.apart t t' p ha.1 ha'.1
  · exact absurd (by rw [hsched]) ha.2
  · rw [hdg]
    exact h.sound

theorem Linked.step {l : UserOp} (h : Linked u.sched.Alive u) (hs : u.step l = some u') :
    Linked u'.sched.Alive u' := by
  cases l with
  | sched op => exact h.schedule (fun t ha _ => ha) hs
  | execute r =>
    obtain ⟨-, ⟨⟩⟩ := Option.ite_none_right_eq_some.mp hs
    exact ⟨h.inv, h.known, h.fresh, h.awake, h.owned, h.apart, h.table, h.sound⟩
  | startProcess p sp =>
    obtain ⟨⟨hm, hp⟩, ⟨⟩⟩ := Option.ite_none_right_eq_some.mp hs
    exact h.startProcess hm hp
  | exit =>
    obtain ⟨hm, hs⟩ := Option.ite_none_right_eq_some.mp hs
    have hsched := (freeSpace_frame (u := u)).1
    refine (h.freeSpace hm).schedule (fun t ha hne => ?_) hs
    rw [hsched] at ha hne
    exact ⟨ha, hne rfl⟩

theorem linked_of_reach (h : Run.Reach step Init u) : Linked u.sched.Alive u := by
  apply h.inv fun u => Linked u.sched.Alive u
  · rintro _ ⟨values, r, rfl⟩
    exact linked_start values r
  · exact fun _ _ _ hi hs => hi.step hs

/-! ## A thread that is switched out -/

/-- The thread `t` is away; its registers, up to `NumTotalRegs`, and its address space are kept. -/
structure Parked (t p : ℕ) (r : Registers) (sp : SpaceObject) (u : UserSched) : Prop where
  away : u.sched.currentThread ≠ t
  space : u.space t = some p
  heap : u.sched.Alive t → u.heap p = some sp
  registers : ∀ i < numTotalRegs, u.userRegisters t i = r i

theorem schedule_frame {op : Sched.Op} (hs : u.schedule op = some u') :
    ∃ s', u.sched.step op = some s' ∧ u'.sched = s' ∧ u'.space = u.space ∧ u'.heap = u.heap ∧
      u'.userRegisters =
        if u.sched.dispatched op = none then u.userRegisters else u.switchOut.userRegisters := by
  obtain ⟨s', hstep, rfl⟩ := Option.map_eq_some_iff.mp hs
  refine ⟨s', hstep, ?_⟩
  cases u.sched.dispatched op with
  | none => exact ⟨rfl, rfl, rfl, rfl⟩
  | some n =>
    obtain ⟨h₁, h₂, h₃, h₄⟩ := run_frame u s' n
    exact ⟨h₄, h₁, h₂, h₃⟩

/-- A thread that is alive after an operation was alive before, unless it is new. -/
theorem alive_of_step {s s' : Sched} {op : Sched.Op} (hstep : s.step op = some s')
    (ht : t ∈ s.threads) (ha : s'.Alive t) :
    s.Alive t ∧ (op = .finish → t ≠ s.currentThread) := by
  have hfin := ha.2
  rw [(Sched.effect_step hstep).finished, List.mem_append, not_or] at hfin
  refine ⟨⟨ht, hfin.1⟩, ?_⟩
  rintro rfl rfl
  exact hfin.2 (by rw [if_pos rfl]; exact List.mem_singleton_self _)

theorem Parked.schedule {op : Sched.Op} {r : Registers} (h : Parked t p r sp u)
    (hknown : t ∈ u.sched.threads) (hd : u.sched.dispatched op ≠ some t)
    (hs : u.schedule op = some u') : Parked t p r sp u' := by
  obtain ⟨s', hstep, hsched, hspace, hheap, hregs⟩ := schedule_frame hs
  have hcur := (Sched.effect_step hstep).current
  refine ⟨?_, by rw [hspace]; exact h.space, fun ha => ?_, fun i hi => ?_⟩
  · rw [hsched, hcur]
    cases hn : u.sched.dispatched op with
    | none => exact h.away
    | some n =>
      rintro rfl
      exact hd hn
  · rw [hsched] at ha
    rw [hheap]
    exact h.heap (alive_of_step hstep hknown ha).1
  · rw [hregs]
    split_ifs
    · exact h.registers i hi
    · rw [switchOut_userRegisters_of_ne h.away]
      exact h.registers i hi

/-- Whatever the other threads do, a thread that is away stays as it is. -/
theorem Parked.step {l : UserOp} {r : Registers} (h : Parked t p r sp u)
    (hl : Linked u.sched.Alive u) (hd : u.dispatched l ≠ some t) (hs : u.step l = some u') :
    Parked t p r sp u' := by
  have hknown := hl.known t p h.space
  cases l with
  | sched op => exact h.schedule hknown hd hs
  | execute r' =>
    obtain ⟨-, ⟨⟩⟩ := Option.ite_none_right_eq_some.mp hs
    exact ⟨h.away, h.space, h.heap, h.registers⟩
  | startProcess q sp' =>
    obtain ⟨⟨-, hq⟩, ⟨⟩⟩ := Option.ite_none_right_eq_some.mp hs
    rw [startProcess_eq]
    refine ⟨h.away, ?_, fun ha => ?_, h.registers⟩
    · show Function.update u.space _ _ t = _
      rw [Function.update_of_ne h.away.symm]
      exact h.space
    · have hp := h.heap ha
      have hne : p ≠ q := by
        rintro rfl
        rw [hq] at hp
        cases hp
      show Function.update u.heap q _ p = _
      rw [Function.update_of_ne hne]
      exact hp
  | exit =>
    obtain ⟨hm, hs⟩ := Option.ite_none_right_eq_some.mp hs
    obtain ⟨hsched, hspace, hregs, -⟩ := freeSpace_frame (u := u)
    have hfree : Parked t p r sp u.freeSpace := by
      refine ⟨by rw [hsched]; exact h.away, by rw [hspace]; exact h.space, fun ha => ?_,
        by rw [hregs]; exact h.registers⟩
      rw [hsched] at ha
      rw [freeSpace_heap hl hm ha h.away.symm h.space]
      exact h.heap ha
    refine hfree.schedule (by rw [hsched]; exact hknown) ?_ hs
    rw [hsched]
    exact hd

/-! ## Switches are invisible -/

theorem schedule_resumes {op : Sched.Op} (hd : u.sched.dispatched op = some t)
    (hf : u.sched.fresh t = false) (hsp : u.space t = some p) (hp : u.heap p = some sp)
    (hs : u.schedule op = some u') :
    (∀ i < numTotalRegs, u'.registers i = u.switchOut.userRegisters t i) ∧
    u'.pageTable = sp.pageTable ∧ u'.pageTableSize = sp.numPages := by
  obtain ⟨s', -, rfl⟩ := Option.map_eq_some_iff.mp hs
  rw [hd]
  obtain ⟨h₁, h₂, h₃, -⟩ := run_resumes s' hf hsp hp
  exact ⟨h₁, h₂, h₃⟩

/-- A thread that gets the processor is alive, and is not the one that finishes. -/
theorem alive_of_dispatched {live : ℕ → Prop} {op : Sched.Op} (h : Linked live u)
    (hd : u.sched.dispatched op = some t) (hsp : u.space t = some p)
    (hs : u.schedule op = some u') :
    u.sched.Alive t ∧ (op = .finish → t ≠ u.sched.currentThread) ∧ u.sched.fresh t = false := by
  obtain ⟨s', hstep, hsched, -⟩ := schedule_frame hs
  have heff := Sched.effect_step hstep
  have halive := (h.inv.step hstep).current_alive (heff.dispatched (by rw [hd]; exact nofun))
  rw [heff.current, hd, Option.getD_some] at halive
  obtain ⟨h₁, h₂⟩ := alive_of_step hstep (h.known t p hsp) halive
  refine ⟨h₁, h₂, ?_⟩
  by_contra hf
  rw [h.fresh t (by simpa using hf)] at hsp
  cases hsp

/-- The current thread is switched out. -/
theorem parked_of_dispatched {l : UserOp} (h : Linked u.sched.Alive u)
    (hsp : u.space u.sched.currentThread = some p) (hp : u.heap p = some sp)
    (hd : u.dispatched l = some n) (hn : n ≠ u.sched.currentThread) (hs : u.step l = some u') :
    Parked u.sched.currentThread p u.registers sp u' := by
  cases l with
  | sched op =>
    obtain ⟨s', hstep, hsched, hspace, hheap, hregs⟩ := schedule_frame hs
    have hd' : u.sched.dispatched op = some n := hd
    refine ⟨?_, by rw [hspace]; exact hsp, fun _ => by rw [hheap]; exact hp, fun i hi => ?_⟩
    · rw [hsched, (Sched.effect_step hstep).current, hd']
      exact hn
    · rw [hregs, hd', if_neg nofun]
      exact switchOut_userRegisters_self hsp hi
  | exit =>
    obtain ⟨-, hs⟩ := Option.ite_none_right_eq_some.mp hs
    obtain ⟨hsched₀, hspace₀, hregs₀, hregisters₀, -⟩ := freeSpace_frame (u := u)
    obtain ⟨s', hstep, hsched, hspace, -, hregs⟩ := schedule_frame hs
    have hd' : u.freeSpace.sched.dispatched .finish = some n := by
      rw [hsched₀]
      exact hd
    refine ⟨?_, by rw [hspace, hspace₀]; exact hsp, fun ha => ?_, fun i hi => ?_⟩
    · rw [hsched, (Sched.effect_step hstep).current, hd']
      exact hn
    · -- it has finished
      rw [hsched] at ha
      have hknown := h.known _ p hsp
      rw [← hsched₀] at hknown ha
      exact absurd rfl ((alive_of_step hstep hknown ha).2 rfl)
    · rw [hregs, hd', if_neg nofun]
      have hself := switchOut_userRegisters_self (u := u.freeSpace)
        (by rw [hsched₀, hspace₀]; exact hsp) hi
      rw [hsched₀, hregisters₀] at hself
      exact hself
  | execute r => cases hd
  | startProcess q sp' => cases hd

theorem Parked.resumes {l : UserOp} {r : Registers} (h : Parked t p r sp u)
    (hl : Linked u.sched.Alive u) (hd : u.dispatched l = some t) (hs : u.step l = some u') :
    (∀ i < numTotalRegs, u'.registers i = r i) ∧ u'.pageTable = sp.pageTable ∧
    u'.pageTableSize = sp.numPages := by
  cases l with
  | sched op =>
    obtain ⟨halive, -, hf⟩ := alive_of_dispatched hl hd h.space hs
    obtain ⟨hr, hpt⟩ := schedule_resumes hd hf h.space (h.heap halive) hs
    refine ⟨fun i hi => ?_, hpt⟩
    rw [hr i hi, switchOut_userRegisters_of_ne h.away, h.registers i hi]
  | exit =>
    obtain ⟨hm, hs⟩ := Option.ite_none_right_eq_some.mp hs
    obtain ⟨hsched, hspace, hregs, -⟩ := freeSpace_frame (u := u)
    have hd' : u.freeSpace.sched.dispatched .finish = some t := by
      rw [hsched]
      exact hd
    have hsp : u.freeSpace.space t = some p := by
      rw [hspace]
      exact h.space
    obtain ⟨halive, -, hf⟩ := alive_of_dispatched (hl.freeSpace hm) hd' hsp hs
    rw [hsched] at halive
    have hp : u.freeSpace.heap p = some sp := by
      rw [freeSpace_heap hl hm halive h.away.symm h.space]
      exact h.heap halive
    obtain ⟨hr, hpt⟩ := schedule_resumes hd' hf hsp hp hs
    refine ⟨fun i hi => ?_, hpt⟩
    rw [hr i hi, switchOut_userRegisters_of_ne (by rw [hsched]; exact h.away), hregs,
      h.registers i hi]
  | execute r => cases hd
  | startProcess q sp' => cases hd

/-- The only thread that is ready is the one that sleeps. -/
theorem resumes_self {l : UserOp} (h : Linked u.sched.Alive u)
    (hsp : u.space u.sched.currentThread = some p) (hp : u.heap p = some sp)
    (hd : u.dispatched l = some u.sched.currentThread) (hs : u.step l = some u') :
    (∀ i < numTotalRegs, u'.registers i = u.registers i) ∧ u'.pageTable = sp.pageTable ∧
    u'.pageTableSize = sp.numPages := by
  cases l with
  | sched op =>
    obtain ⟨-, -, hf⟩ := alive_of_dispatched h hd hsp hs
    obtain ⟨hr, hpt⟩ := schedule_resumes hd hf hsp hp hs
    exact ⟨fun i hi => (hr i hi).trans (switchOut_userRegisters_self hsp hi), hpt⟩
  | exit =>
    obtain ⟨hm, hs⟩ := Option.ite_none_right_eq_some.mp hs
    obtain ⟨hsched, hspace, -⟩ := freeSpace_frame (u := u)
    obtain ⟨-, hne, -⟩ := alive_of_dispatched (h.freeSpace hm) (by rw [hsched]; exact hd)
      (by rw [hspace]; exact hsp) hs
    rw [hsched] at hne
    exact absurd rfl (hne rfl)
  | execute r => cases hd
  | startProcess q sp' => cases hd

theorem finished_of_step {l : UserOp} (hs : u.step l = some u') (ht : t ∈ u.sched.finished) :
    t ∈ u'.sched.finished := by
  have hgrow : ∀ {s s' : Sched} {op : Sched.Op}, s.step op = some s' → t ∈ s.finished →
      t ∈ s'.finished := by
    intro s s' op hstep ht
    rw [(Sched.effect_step hstep).finished]
    exact List.mem_append_left _ ht
  cases l with
  | sched op =>
    obtain ⟨s', hstep, rfl, -⟩ := schedule_frame hs
    exact hgrow hstep ht
  | execute r =>
    obtain ⟨-, ⟨⟩⟩ := Option.ite_none_right_eq_some.mp hs
    exact ht
  | startProcess q sp =>
    obtain ⟨-, ⟨⟩⟩ := Option.ite_none_right_eq_some.mp hs
    rw [startProcess_eq]
    exact ht
  | exit =>
    obtain ⟨-, hs⟩ := Option.ite_none_right_eq_some.mp hs
    obtain ⟨s', hstep, rfl, -⟩ := schedule_frame hs
    rw [(freeSpace_frame (u := u)).1] at hstep
    exact hgrow hstep ht

theorem finished_of_exec {ls : List UserOp} (hs : Run.exec step u ls = some u')
    (ht : t ∈ u.sched.finished) : t ∈ u'.sched.finished := by
  induction ls generalizing u with
  | nil =>
    cases hs
    exact ht
  | cons l ls ih =>
    obtain ⟨u₁, h₁, h₂⟩ := Run.exec_cons_eq_some.mp hs
    exact ih h₂ (finished_of_step h₁ ht)

/-- A thread that is away stays as it is until it gets the processor. -/
theorem Parked.exec {ls : List UserOp} {r : Registers} (h : Parked t p r sp u)
    (hl : Linked u.sched.Alive u)
    (haway : Run.Admits UserSched.step (fun u l => u.dispatched l ≠ some t) u ls)
    (hs : Run.exec UserSched.step u ls = some u') :
    Linked u'.sched.Alive u' ∧ Parked t p r sp u' := by
  have hstep : ∀ (v : UserSched) (l : UserOp) (v' : UserSched),
      Linked v.sched.Alive v ∧ Parked t p r sp v → v.dispatched l ≠ some t →
      v.step l = some v' → Linked v'.sched.Alive v' ∧ Parked t p r sp v' :=
    fun v l v' hv hd hs => ⟨hv.1.step hs, hv.2.step hv.1 hd hs⟩
  exact Run.exec_inv hstep ls u u' ⟨hl, h⟩ haway hs

theorem current_of_dispatched {l : UserOp} (hd : u.dispatched l = some t) (hs : u.step l = some u') :
    u'.sched.currentThread = t ∧ u'.sched.mode ≠ .idle := by
  have hcurrent : ∀ {s s' : Sched} {op : Sched.Op}, s.step op = some s' →
      s.dispatched op = some t → s'.currentThread = t ∧ s'.mode ≠ .idle := by
    intro s s' op hstep hd
    have heff := Sched.effect_step hstep
    exact ⟨by rw [heff.current, hd, Option.getD_some], heff.dispatched (by rw [hd]; exact nofun)⟩
  cases l with
  | sched op =>
    obtain ⟨s', hstep, rfl, -⟩ := schedule_frame hs
    exact hcurrent hstep hd
  | exit =>
    obtain ⟨-, hs⟩ := Option.ite_none_right_eq_some.mp hs
    obtain ⟨s', hstep, rfl, -⟩ := schedule_frame hs
    rw [(freeSpace_frame (u := u)).1] at hstep
    exact hcurrent hstep hd
  | execute r => cases hd
  | startProcess q sp => cases hd

/-- **Context switches are invisible to user programs.** The current thread `t` has an address space
and its next step gives the processor away; whatever the threads do then, when `t` gets it back for
the first time the machine has the registers, the page table and the size of it that `t` left. No
deleted address space is ever restored. -/
theorem context_switch_invisible (h : Run.Reach step Init u)
    (ht : u.sched.currentThread = t) (hsp : u.space t = some p) {ls : List UserOp} {l : UserOp}
    {v w : UserSched} (hrun : Run.exec step u ls = some v)
    (hout : ∃ l₀ ∈ (ls ++ [l]).head?, u.dispatched l₀ ≠ none)
    (haway : Run.Admits step (fun u l => u.dispatched l ≠ some t) u ls)
    (hback : v.dispatched l = some t) (hs : v.step l = some w) :
    w.sched.currentThread = t ∧ (∀ i < numTotalRegs, w.registers i = u.registers i) ∧
    w.pageTable = u.pageTable ∧ w.pageTableSize = u.pageTableSize ∧ w.dangling = false := by
  have hl := linked_of_reach h
  have hw : Run.exec step u (ls ++ [l]) = some w := Run.exec_concat.mpr ⟨v, hrun, hs⟩
  obtain ⟨s₀, ls₀, h₀, hu⟩ := h
  have hlw := linked_of_reach ⟨s₀, ls₀ ++ (ls ++ [l]), h₀, Run.exec_append.mpr ⟨u, hu, hw⟩⟩
  obtain ⟨hcur, hmode⟩ := current_of_dispatched hback hs
  have halive : u.sched.Alive t := by
    have halive' := hlw.inv.current_alive hmode
    rw [hcur] at halive'
    exact ⟨hl.known t p hsp, fun hf => halive'.2 (finished_of_exec hw hf)⟩
  obtain ⟨sp, hp⟩ := Option.ne_none_iff_exists'.mp (hl.owned t p halive hsp)
  subst ht
  obtain ⟨hpt, hsz⟩ := hl.table p sp halive hsp hp
  rw [hpt, hsz]
  suffices hend : (∀ i < numTotalRegs, w.registers i = u.registers i) ∧
      w.pageTable = sp.pageTable ∧ w.pageTableSize = sp.numPages from
    ⟨hcur, hend.1, hend.2.1, hend.2.2, hlw.sound⟩
  obtain ⟨l₀, hl₀, hd₀⟩ := hout
  cases ls with
  | nil =>
    cases hrun
    exact resumes_self hl hsp hp hback hs
  | cons l₁ ls =>
    cases hl₀
    obtain ⟨u₁, h₁, h₂⟩ := Run.exec_cons_eq_some.mp hrun
    obtain ⟨n, hn⟩ := Option.ne_none_iff_exists'.mp hd₀
    have hne : n ≠ u.sched.currentThread := by
      rintro rfl
      exact haway.1 hn
    have hpark := parked_of_dispatched hl hsp hp hn hne h₁
    obtain ⟨hlv, hpv⟩ := hpark.exec (hl.step h₁) (haway.2 u₁ h₁) h₂
    exact hpv.resumes hlv hback hs

/-- The main program forks a thread and runs. -/
def mainProgram : List UserOp :=
  [.sched (.fork 1), .startProcess 5 ⟨100, 3⟩, .execute fun i => BitVec.ofNat 32 i]

/-- It sleeps on a semaphore; another program starts and wakes it up. -/
def otherProgram : List UserOp := [.sched (.P 0), .startProcess 6 ⟨200, 4⟩, .sched (.V 0)]

/-- The other program ends, and the main program goes on with its own registers. -/
theorem context_switch_invisible_exit :
    ∃ u w, Run.exec step (start (fun _ => 0) fun _ => 0) mainProgram = some u ∧
      Run.exec step u (otherProgram ++ [.exit]) = some w ∧
      w.registers 31 = 31 ∧ w.pageTable = 100 ∧ w.heap 6 = none := by
  refine ⟨_, _, rfl, rfl, ?_, rfl, rfl⟩
  have h := context_switch_invisible (t := 0) (p := 5) (l := .exit)
    ⟨start (fun _ => 0) fun _ => 0, mainProgram, ⟨_, _, rfl⟩, rfl⟩ rfl rfl
    (show Run.exec step _ otherProgram = some _ from rfl) ⟨_, rfl, by decide⟩
    (Run.admits_of_admitted rfl) rfl rfl
  exact h.2.1 31 (by decide)

end UserSched

end Nachos
