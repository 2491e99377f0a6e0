import Nachos.Machine.Interrupt
import Nachos.Threads.Synch

/-!
# The interrupt level, `interrupt.cc`, `thread.cc`, `scheduler.cc`, `synch.cc`

Every thread has a stack of the calls it is in. A frame is a point inside one of the functions, with
the local variables that are read later; the thread that runs goes on at its topmost frame, and
`SWITCH` leaves the stacks as they are. The level, the flags of `Interrupt` and the ready list are
shared.

What the threads do outside these functions is free, and so is which interrupt is due when: a check
of the queue may find one or not. The handlers of the devices wake threads by `V` and, the timer's,
ask for a yield; what else they do does not concern the level.
-/

namespace Nachos

namespace IntLevel

/-- A point in a function. `old` is the local variable of that name, or `oldLevel`. -/
inductive Frame where
  /-- The thread's own code, the forked function or `main`. -/
  | code
  /-- The start of `ThreadRoot`. -/
  | root
  | fork (child : ℕ)
  | forking (child : ℕ) (old : IntStatus)
  | yield
  | yielding (old : IntStatus)
  | P (sem : ℕ)
  /-- Before the test of the loop in `P`. -/
  | testing (sem : ℕ) (old : IntStatus)
  | V (sem : ℕ)
  | waking (sem : ℕ) (old : IntStatus)
  /-- Before `interrupt->SetLevel(oldLevel)`. -/
  | restore (old : IntStatus)
  | finish
  | finished
  | sleep
  /-- The loop of `Sleep`. -/
  | sleeping
  /-- `Scheduler::Run`. -/
  | dispatch (nextThread : ℕ)
  /-- The rest of `Run`, after `SWITCH`. -/
  | switched
  | oneTick
  /-- The loop of `OneTick`. -/
  | ticking (old : MachineStatus)
  /-- `OneTick` after `Yield`. -/
  | ticked (old : MachineStatus)
  /-- A handler, called by `CheckIfDue`. -/
  | handler (old : MachineStatus)
  | idle
  /-- The loop of `Idle`. -/
  | idling
  deriving DecidableEq, Repr

structure State where
  level : IntStatus
  inHandler : Bool
  yieldOnReturn : Bool
  status : MachineStatus
  currentThread : ℕ
  threadToBeDestroyed : Option ℕ
  readyList : List ℕ
  sem : ℕ → Semaphore
  /-- The frames of each thread, the topmost first. A thread that has not been forked has none. -/
  stack : ℕ → List Frame
  halted : Bool
  /-- An assertion about the level or about `inHandler` has failed. -/
  failed : Bool

/-- What the thread that runs does next, where the frame leaves a choice. -/
inductive Label where
  | go
  | fork (child : ℕ)
  | yield
  | P (sem : ℕ)
  | V (sem : ℕ)
  | setLevel (now : IntStatus)
  /-- A user instruction. -/
  | oneTick
  | finish
  | yieldOnReturn
  /-- The handler, or the loop over the interrupts that are due, ends. -/
  | done
  | due
  deriving DecidableEq, Repr

namespace State

/-- `SetLevel`, and the frames that take its place on the stack. -/
def setLevel (s : State) (now : IntStatus) (k : List Frame) : List Frame × State :=
  if now = .on ∧ s.inHandler = true then (k, { s with failed := true })
  else (if now = .on ∧ s.level = .off then .oneTick :: k else k, { s with level := now })

def readyToRun (s : State) (t : ℕ) : State := { s with readyList := s.readyList ++ [t] }

/-- `FindNextToRun`, with what it leaves of the list. -/
def findNextToRun (s : State) : Option ℕ × State :=
  (s.readyList.head?, { s with readyList := s.readyList.tail })

/-- `ASSERT(level == IntOff)`, with what follows it. -/
def assertOff (s : State) (r : List Frame × State) : List Frame × State :=
  if s.level = .off then r else (r.1, { s with failed := true })

/-- The end of `CheckIfDue` for an interrupt that is due, up to the call of its handler; the loop
that called it goes on at `k`. -/
def fire (s : State) (k : List Frame) : List Frame × State :=
  (.handler s.status :: k, { s with inHandler := true, status := .system })

/-- What the code of a thread calls. -/
def call (s : State) : Label → Option (List Frame × State)
  | .fork child => some ([.fork child, .code], s)
  | .yield => some ([.yield, .code], s)
  | .P i => some ([.P i, .code], s)
  | .V i => some ([.V i, .code], s)
  | .setLevel now => some (s.setLevel now [.code])
  | .oneTick => some ([.oneTick, .code], s)
  | .finish => some ([.finish], s)
  | _ => none

/-- What a handler does, and the rest of `CheckIfDue`. -/
def handle (s : State) (old : MachineStatus) : Label → Option (List Frame × State)
  | .V i => some ([.V i, .handler old], s)
  | .yieldOnReturn =>
    if s.inHandler then some ([.handler old], { s with yieldOnReturn := true })
    else some ([.handler old], { s with failed := true })
  | .done => some ([], { s with status := old, inHandler := false })
  | _ => none

/-- `OneTick` once no interrupt is due any more. -/
def leaveTick (s : State) (old : MachineStatus) : List Frame × State :=
  if s.yieldOnReturn then
    ([.yield, .ticked old], { s with level := .on, yieldOnReturn := false, status := .system })
  else ([], { s with level := .on })

/-- One round of the loop in `P`. -/
def test (s : State) (i : ℕ) (old : IntStatus) : List Frame × State :=
  if ((s.sem i).P s.currentThread).2 then
    ([.restore old], { s with sem := Function.update s.sem i ((s.sem i).P s.currentThread).1 })
  else
    ([.sleep, .testing i old],
      { s with sem := Function.update s.sem i ((s.sem i).P s.currentThread).1 })

/-- `V` between the two calls of `SetLevel`. -/
def wake (s : State) (i : ℕ) : State :=
  match (s.sem i).queue.head? with
  | none => { s with sem := Function.update s.sem i (s.sem i).V }
  | some thread => { s.readyToRun thread with sem := Function.update s.sem i (s.sem i).V }

/-- The frames that take the place of the topmost one, and the state. -/
def act (s : State) : Frame → Label → Option (List Frame × State)
  | .code, l => s.call l
  | .handler old, l => s.handle old l
  | .root, .go => some (s.setLevel .on [.code])
  | .fork child, .go =>
    if s.stack child = [] then
      some ({ s with stack := Function.update s.stack child [.root] }.setLevel .off
        [.forking child s.level])
    else none
  | .forking child old, .go => some ([.restore old], s.readyToRun child)
  | .yield, .go => some (s.setLevel .off [.yielding s.level])
  | .yielding old, .go =>
    match s.findNextToRun with
    | (none, s') => some ([.restore old], s')
    | (some nextThread, s') =>
      some ([.dispatch nextThread, .restore old], s'.readyToRun s.currentThread)
  | .P i, .go => some (s.setLevel .off [.testing i s.level])
  | .testing i old, .go => some (s.test i old)
  | .V i, .go => some (s.setLevel .off [.waking i s.level])
  | .waking i old, .go => some ([.restore old], s.wake i)
  | .restore old, .go => some (s.setLevel old [])
  | .finish, .go => some (s.setLevel .off [.finished])
  | .finished, .go => some ([.sleep], { s with threadToBeDestroyed := some s.currentThread })
  | .sleep, .go => some (s.assertOff ([.sleeping], s))
  | .sleeping, .go =>
    match s.findNextToRun with
    | (none, s') => some ([.idle, .sleeping], s')
    | (some nextThread, s') => some ([.dispatch nextThread], s')
  | .dispatch nextThread, .go => some ([.switched], { s with currentThread := nextThread })
  | .switched, .go => some ([], { s with threadToBeDestroyed := none })
  | .oneTick, .go => some ([.ticking s.status], { s with level := .off })
  | .ticking old, .due => some (s.assertOff (s.fire [.ticking old]))
  | .ticking old, .done => some (s.assertOff (s.leaveTick old))
  | .ticked old, .go => some ([], { s with status := old })
  | .idle, .due =>
    let s' : State := { s with status := .idle }
    some (s'.assertOff (s'.fire [.idling]))
  | .idle, .done =>
    let s' : State := { s with status := .idle }
    some (s'.assertOff ([], { s' with halted := true }))
  | .idling, .due => some (s.assertOff (s.fire [.idling]))
  | .idling, .done =>
    some (s.assertOff ([], { s with yieldOnReturn := false, status := .system }))
  | _, _ => none

end State

/-- A step of the thread that runs. -/
def step (s : State) (l : Label) : Option State :=
  if s.halted ∨ s.failed then none
  else
    match s.stack s.currentThread with
    | [] => none
    | f :: rest =>
      (s.act f l).map fun r =>
        { r.2 with stack := Function.update r.2.stack s.currentThread (r.1 ++ rest) }

/-- The main thread before `Initialize` enables the interrupts. -/
def Init (s : State) : Prop :=
  s.level = .off ∧ s.inHandler = false ∧ s.yieldOnReturn = false ∧ s.status = .system ∧
    s.threadToBeDestroyed = none ∧ s.readyList = [] ∧ (∀ i, (s.sem i).queue = []) ∧
    s.stack = Function.update (fun _ => []) s.currentThread [.code] ∧ s.halted = false ∧
    s.failed = false

/-! ## What a frame needs and what it leaves -/

namespace Frame

/-- What must hold of the level and of `inHandler` where the frame goes on. A handler calls `V`
only. -/
def Needs (l : IntStatus) (h : Bool) : Frame → Prop
  | .code | .fork _ | .yield | .P _ | .finish | .oneTick => h = false
  | .V _ => h = true → l = .off
  | .waking _ old | .restore old => l = .off ∧ (h = true → old = .off)
  | .ticked _ => l = .on ∧ h = false
  | .handler _ => l = .off ∧ h = true
  | _ => l = .off ∧ h = false

/-- The level when the frame returns, if it goes on at the given level. The frames that do not
return leave it at `IntOff`. -/
def exit (l : IntStatus) : Frame → IntStatus
  | .fork _ | .yield | .P _ | .V _ => l
  | .forking _ old | .yielding old | .testing _ old | .waking _ old | .restore old => old
  | .oneTick | .ticking _ | .ticked _ => .on
  | _ => .off

/-- The same for `inHandler`. -/
def exitHandler (h : Bool) : Frame → Bool
  | .code | .root | .finish | .finished | .handler _ => false
  | _ => h

/-- The frame is at the entry of `P`, `V`, `Fork` or `Yield`. -/
def IsCall (f : Frame) : Prop :=
  (∃ child, f = .fork child) ∨ f = .yield ∨ (∃ i, f = .P i) ∨ ∃ i, f = .V i

theorem IsCall.exit {f : Frame} (h : f.IsCall) (l : IntStatus) : f.exit l = l := by
  obtain ⟨_, rfl⟩ | rfl | ⟨_, rfl⟩ | ⟨_, rfl⟩ := h <;> rfl

end Frame

/-- The level when all the frames have returned. -/
def exitOf (l : IntStatus) (fs : List Frame) : IntStatus := fs.foldl Frame.exit l

theorem exitOf_append (l : IntStatus) (fs k : List Frame) :
    exitOf l (fs ++ k) = exitOf (exitOf l fs) k := List.foldl_append

def exitHandlerOf (h : Bool) (fs : List Frame) : Bool := fs.foldl Frame.exitHandler h

/-- Each frame gets what it needs from the ones above it. -/
def Ok : IntStatus → Bool → List Frame → Prop
  | _, _, [] => True
  | l, h, f :: rest => f.Needs l h ∧ Ok (f.exit l) (f.exitHandler h) rest

theorem Ok.append {l : IntStatus} {h : Bool} {fs k : List Frame} :
    Ok l h (fs ++ k) ↔ Ok l h fs ∧ Ok (exitOf l fs) (exitHandlerOf h fs) k := by
  induction fs generalizing l h with
  | nil => exact ⟨fun h => ⟨trivial, h⟩, And.right⟩
  | cons f fs ih => rw [List.cons_append, Ok, Ok, ih, and_assoc]; rfl

/-! ## Steps -/

variable {s s' : State} {f : Frame} {fs k : List Frame} {l : Label}

namespace State

/-- The level thread `t` finds when it goes on: `SWITCH` is called with interrupts off. -/
def levelOf (s : State) (t : ℕ) : IntStatus := if t = s.currentThread then s.level else .off

def handlerOf (s : State) (t : ℕ) : Bool := if t = s.currentThread then s.inHandler else false

end State

/-- The ready list, the queue of a semaphore or the thread that runs is another one. -/
def Switches (s s' : State) : Prop :=
  s'.readyList ≠ s.readyList ∨ (∃ i, (s'.sem i).queue ≠ (s.sem i).queue) ∨
    s'.currentThread ≠ s.currentThread

/-- What the step of a frame does, if it finds what it needs. -/
structure Acts (s : State) (f : Frame) (fs : List Frame) (s' : State) : Prop where
  failed : s'.failed = s.failed
  ok : Ok (s'.levelOf s.currentThread) (s'.handlerOf s.currentThread) fs
  exit : exitOf (s'.levelOf s.currentThread) fs = f.exit s.level
  exitHandler : exitHandlerOf (s'.handlerOf s.currentThread) fs = f.exitHandler s.inHandler
  others : ∀ t ≠ s.currentThread, s'.levelOf t = .off ∧ s'.handlerOf t = false
  forks : ∀ t, s'.stack t = s.stack t ∨ s.stack t = [] ∧ s'.stack t = [.root]
  switches : Switches s s' → s.level = .off ∧ s'.level = .off
  stays : fs = [] → s'.currentThread = s.currentThread

/-- A step after which the same thread runs. -/
theorem Acts.here (hc : s'.currentThread = s.currentThread) (hf : s'.failed = s.failed)
    (hok : Ok s'.level s'.inHandler fs) (he : exitOf s'.level fs = f.exit s.level)
    (hh : exitHandlerOf s'.inHandler fs = f.exitHandler s.inHandler)
    (hst : ∀ t, s'.stack t = s.stack t ∨ s.stack t = [] ∧ s'.stack t = [.root])
    (hsw : Switches s s' → s.level = .off ∧ s'.level = .off) : Acts s f fs s' := by
  have hl : s'.levelOf s.currentThread = s'.level := if_pos hc.symm
  have hi : s'.handlerOf s.currentThread = s'.inHandler := if_pos hc.symm
  refine ⟨hf, ?_, ?_, ?_, fun t ht => ?_, hst, hsw, fun _ => hc⟩
  · rwa [hl, hi]
  · rwa [hl]
  · rwa [hi]
  · rw [← hc] at ht
    exact ⟨if_neg ht, if_neg ht⟩

/-- A step that leaves the queues alone. -/
theorem not_switches (hr : s'.readyList = s.readyList) (hs : s'.sem = s.sem)
    (hc : s'.currentThread = s.currentThread) : ¬ Switches s s' := by
  rintro (h | ⟨i, h⟩ | h)
  · exact h hr
  · exact h (by rw [hs])
  · exact h hc

theorem of_inHandler {p : Prop} (hi : s.inHandler = false) (h : s.inHandler = true) : p :=
  absurd (hi.symm.trans h) Bool.false_ne_true

theorem eq_of_assertOff {r r' : List Frame × State} (hl : s.level = .off)
    (h : some (s.assertOff r) = some r') : r = r' := by
  rw [State.assertOff, if_pos hl] at h
  exact Option.some.inj h

/-- `SetLevel(now)` goes through, and the rest finds the level `now`. -/
theorem acts_setLevel {now : IntStatus} (hn : now = .on → s.inHandler = false)
    (hok : Ok now s.inHandler k) (he : exitOf now k = f.exit s.level)
    (hh : exitHandlerOf s.inHandler k = f.exitHandler s.inHandler) :
    Acts s f (s.setLevel now k).1 (s.setLevel now k).2 := by
  have hc : ¬ (now = .on ∧ s.inHandler = true) := fun h => by
    rw [hn h.1] at h
    exact Bool.false_ne_true h.2
  rw [State.setLevel, if_neg hc]
  refine Acts.here rfl rfl ?_ ?_ ?_ (fun _ => .inl rfl)
    fun h => absurd h (not_switches rfl rfl rfl)
  · show Ok now s.inHandler _
    split_ifs with ht
    · obtain ⟨rfl, -⟩ := ht
      exact ⟨hn rfl, hok⟩
    · exact hok
  · show exitOf now _ = _
    split_ifs with ht
    · obtain ⟨rfl, -⟩ := ht
      exact he
    · exact he
  · show exitHandlerOf s.inHandler _ = _
    split_ifs with ht
    · exact hh
    · exact hh

/-- New frames for the same state. -/
theorem acts_push (hok : Ok s.level s.inHandler fs) (he : exitOf s.level fs = f.exit s.level)
    (hh : exitHandlerOf s.inHandler fs = f.exitHandler s.inHandler) : Acts s f fs s :=
  Acts.here rfl rfl hok he hh (fun _ => .inl rfl) fun h => absurd h (not_switches rfl rfl rfl)

/-- A step with interrupts off before and after it. -/
theorem acts_off (hl : s.level = .off) (hl' : s'.level = .off) (hi : s'.inHandler = s.inHandler)
    (hc : s'.currentThread = s.currentThread) (hf : s'.failed = s.failed)
    (hst : s'.stack = s.stack) (hok : Ok .off s.inHandler fs) (he : exitOf .off fs = f.exit .off)
    (hh : exitHandlerOf s.inHandler fs = f.exitHandler s.inHandler) : Acts s f fs s' :=
  Acts.here hc hf (by rwa [hl', hi]) (by rwa [hl', hl]) (by rwa [hi]) (fun t => .inl (by rw [hst]))
    fun _ => ⟨hl, hl'⟩

theorem acts_call (hf : s.inHandler = false) (h : s.call l = some (fs, s')) :
    Acts s .code fs s' := by
  have hpush : ∀ g : Frame, g.Needs s.level s.inHandler → g.exitHandler s.inHandler = false →
      Acts s .code [g, .code] s :=
    fun g hg hh => acts_push ⟨hg, hh, trivial⟩ rfl rfl
  cases l with
  | fork child =>
    obtain ⟨rfl, rfl⟩ := Prod.mk.inj (Option.some.inj h)
    exact hpush _ hf hf
  | yield =>
    obtain ⟨rfl, rfl⟩ := Prod.mk.inj (Option.some.inj h)
    exact hpush _ hf hf
  | P i =>
    obtain ⟨rfl, rfl⟩ := Prod.mk.inj (Option.some.inj h)
    exact hpush _ hf hf
  | V i =>
    obtain ⟨rfl, rfl⟩ := Prod.mk.inj (Option.some.inj h)
    exact hpush _ (fun hi => absurd (hf.symm.trans hi) Bool.false_ne_true) hf
  | setLevel now =>
    have ha : Acts s .code (s.setLevel now [.code]).1 (s.setLevel now [.code]).2 :=
      acts_setLevel (fun _ => hf) ⟨hf, trivial⟩ rfl rfl
    rwa [Option.some.inj h] at ha
  | oneTick =>
    obtain ⟨rfl, rfl⟩ := Prod.mk.inj (Option.some.inj h)
    exact hpush _ hf hf
  | finish =>
    obtain ⟨rfl, rfl⟩ := Prod.mk.inj (Option.some.inj h)
    exact acts_push ⟨hf, trivial⟩ rfl rfl
  | _ => cases h

theorem acts_handle {old : MachineStatus} (hl : s.level = .off) (hi : s.inHandler = true)
    (h : s.handle old l = some (fs, s')) : Acts s (.handler old) fs s' := by
  cases l with
  | V i =>
    obtain ⟨rfl, rfl⟩ := Prod.mk.inj (Option.some.inj h)
    exact acts_push ⟨fun _ => hl, ⟨hl, hi⟩, trivial⟩ rfl rfl
  | yieldOnReturn =>
    rw [State.handle, if_pos hi] at h
    obtain ⟨rfl, rfl⟩ := Prod.mk.inj (Option.some.inj h)
    exact acts_off hl hl rfl rfl rfl rfl ⟨⟨rfl, hi⟩, trivial⟩ rfl rfl
  | done =>
    obtain ⟨rfl, rfl⟩ := Prod.mk.inj (Option.some.inj h)
    exact Acts.here rfl rfl trivial hl rfl (fun _ => .inl rfl) fun _ => ⟨hl, hl⟩
  | _ => cases h

theorem acts_leaveTick {old : MachineStatus} (hi : s.inHandler = false) :
    Acts s (.ticking old) (s.leaveTick old).1 (s.leaveTick old).2 := by
  unfold State.leaveTick
  split_ifs
  · exact Acts.here rfl rfl ⟨hi, ⟨rfl, hi⟩, trivial⟩ rfl rfl (fun _ => .inl rfl)
      fun hs => absurd hs (not_switches rfl rfl rfl)
  · exact Acts.here rfl rfl trivial rfl rfl (fun _ => .inl rfl)
      fun hs => absurd hs (not_switches rfl rfl rfl)

theorem acts_test {i : ℕ} {old : IntStatus} (hl : s.level = .off) (hi : s.inHandler = false) :
    Acts s (.testing i old) (s.test i old).1 (s.test i old).2 := by
  unfold State.test
  split_ifs
  · exact acts_off hl hl rfl rfl rfl rfl ⟨⟨rfl, of_inHandler hi⟩, trivial⟩ rfl rfl
  · exact acts_off hl hl rfl rfl rfl rfl ⟨⟨rfl, hi⟩, ⟨rfl, hi⟩, trivial⟩ rfl rfl

theorem acts_wake {i : ℕ} {old : IntStatus} (hl : s.level = .off)
    (hold : s.inHandler = true → old = .off) :
    Acts s (.waking i old) [.restore old] (s.wake i) := by
  unfold State.wake
  split <;> exact acts_off hl hl rfl rfl rfl rfl ⟨⟨rfl, hold⟩, trivial⟩ rfl rfl

/-- The level and `inHandler` stay in `Run`, and are those of the thread switched to. -/
theorem acts_dispatch {next : ℕ} (hl : s.level = .off) (hi : s.inHandler = false) :
    Acts s (.dispatch next) [.switched] { s with currentThread := next } := by
  have hlevel : ∀ t, ({ s with currentThread := next } : State).levelOf t = .off := fun t => by
    unfold State.levelOf
    split_ifs
    · exact hl
    · rfl
  have hhandler : ∀ t, ({ s with currentThread := next } : State).handlerOf t = false := fun t => by
    unfold State.handlerOf
    split_ifs
    · exact hi
    · rfl
  refine ⟨rfl, ?_, ?_, ?_, fun t _ => ⟨hlevel t, hhandler t⟩, fun _ => .inl rfl, fun _ => ⟨hl, hl⟩,
    fun hn => absurd hn (List.cons_ne_nil _ _)⟩
  · rw [hlevel, hhandler]
    exact ⟨⟨rfl, rfl⟩, trivial⟩
  · rw [hlevel]
    rfl
  · rw [hhandler, hi]
    rfl

theorem acts_fork {child : ℕ} (hi : s.inHandler = false)
    (h : s.act (.fork child) .go = some (fs, s')) : Acts s (.fork child) fs s' := by
  have hc : s.stack child = [] := by
    by_contra hc
    rw [State.act, if_neg hc] at h
    cases h
  rw [State.act, if_pos hc] at h
  obtain ⟨rfl, rfl⟩ := Prod.mk.inj (Option.some.inj h)
  refine Acts.here rfl rfl ⟨⟨rfl, hi⟩, trivial⟩ rfl rfl (fun t => ?_)
    fun hs => absurd hs (not_switches rfl rfl rfl)
  rcases eq_or_ne t child with rfl | ht
  · exact .inr ⟨hc, Function.update_self ..⟩
  · exact .inl (Function.update_of_ne ht ..)

theorem acts_yielding {old : IntStatus} (hl : s.level = .off) (hi : s.inHandler = false)
    (h : s.act (.yielding old) .go = some (fs, s')) : Acts s (.yielding old) fs s' := by
  cases hr : s.readyList with
  | nil =>
    simp only [State.act, State.findNextToRun, hr, List.head?_nil] at h
    obtain ⟨rfl, rfl⟩ := Prod.mk.inj (Option.some.inj h)
    exact acts_off hl hl rfl rfl rfl rfl ⟨⟨rfl, of_inHandler hi⟩, trivial⟩ rfl rfl
  | cons nextThread rest =>
    simp only [State.act, State.findNextToRun, hr, List.head?_cons] at h
    obtain ⟨rfl, rfl⟩ := Prod.mk.inj (Option.some.inj h)
    exact acts_off hl hl rfl rfl rfl rfl ⟨⟨rfl, hi⟩, ⟨rfl, of_inHandler hi⟩, trivial⟩ rfl rfl

theorem acts_sleeping (hl : s.level = .off) (hi : s.inHandler = false)
    (h : s.act .sleeping .go = some (fs, s')) : Acts s .sleeping fs s' := by
  cases hr : s.readyList with
  | nil =>
    simp only [State.act, State.findNextToRun, hr, List.head?_nil] at h
    obtain ⟨rfl, rfl⟩ := Prod.mk.inj (Option.some.inj h)
    exact acts_off hl hl rfl rfl rfl rfl ⟨⟨rfl, hi⟩, ⟨rfl, hi⟩, trivial⟩ rfl rfl
  | cons nextThread rest =>
    simp only [State.act, State.findNextToRun, hr, List.head?_cons] at h
    obtain ⟨rfl, rfl⟩ := Prod.mk.inj (Option.some.inj h)
    exact acts_off hl hl rfl rfl rfl rfl ⟨⟨rfl, hi⟩, trivial⟩ rfl rfl

/-- The frames that leave no choice. -/
theorem acts_go (hf : f.Needs s.level s.inHandler) (h : s.act f .go = some (fs, s')) :
    Acts s f fs s' := by
  have hset : ∀ (now : IntStatus) (k : List Frame), (now = .on → s.inHandler = false) →
      Ok now s.inHandler k → exitOf now k = f.exit s.level →
      exitHandlerOf s.inHandler k = f.exitHandler s.inHandler →
      some (s.setLevel now k) = some (fs, s') → Acts s f fs s' := fun now k hn hok he hh hs => by
    have ha : Acts s f _ _ := acts_setLevel hn hok he hh
    rwa [Option.some.inj hs] at ha
  have hne : IntStatus.off = .on → s.inHandler = false := fun h => IntStatus.noConfusion h
  cases f with
  | root => exact hset .on [.code] (fun _ => hf.2) ⟨hf.2, trivial⟩ rfl rfl h
  | fork child => exact acts_fork hf h
  | forking child old =>
    obtain ⟨rfl, rfl⟩ := Prod.mk.inj (Option.some.inj h)
    exact acts_off hf.1 hf.1 rfl rfl rfl rfl ⟨⟨rfl, of_inHandler hf.2⟩, trivial⟩ rfl rfl
  | yield => exact hset .off [.yielding s.level] hne ⟨⟨rfl, hf⟩, trivial⟩ rfl rfl h
  | yielding old => exact acts_yielding hf.1 hf.2 h
  | P i => exact hset .off [.testing i s.level] hne ⟨⟨rfl, hf⟩, trivial⟩ rfl rfl h
  | testing i old =>
    have ha : Acts s (.testing i old) _ _ := acts_test hf.1 hf.2
    rwa [Option.some.inj h] at ha
  | V i => exact hset .off [.waking i s.level] hne ⟨⟨rfl, hf⟩, trivial⟩ rfl rfl h
  | waking i old =>
    obtain ⟨rfl, rfl⟩ := Prod.mk.inj (Option.some.inj h)
    exact acts_wake hf.1 hf.2
  | restore old =>
    refine hset old [] (fun ho => ?_) trivial rfl rfl h
    cases hi : s.inHandler with
    | false => rfl
    | true => exact IntStatus.noConfusion (ho.symm.trans (hf.2 hi))
  | finish => exact hset .off [.finished] hne ⟨⟨rfl, hf⟩, trivial⟩ rfl rfl h
  | finished =>
    obtain ⟨rfl, rfl⟩ := Prod.mk.inj (Option.some.inj h)
    exact acts_off hf.1 hf.1 rfl rfl rfl rfl ⟨⟨rfl, hf.2⟩, trivial⟩ rfl hf.2
  | sleep =>
    obtain ⟨rfl, rfl⟩ := Prod.mk.inj (eq_of_assertOff hf.1 h)
    exact acts_off hf.1 hf.1 rfl rfl rfl rfl ⟨⟨rfl, hf.2⟩, trivial⟩ rfl rfl
  | sleeping => exact acts_sleeping hf.1 hf.2 h
  | dispatch nextThread =>
    obtain ⟨rfl, rfl⟩ := Prod.mk.inj (Option.some.inj h)
    exact acts_dispatch hf.1 hf.2
  | switched =>
    obtain ⟨rfl, rfl⟩ := Prod.mk.inj (Option.some.inj h)
    exact acts_off hf.1 hf.1 rfl rfl rfl rfl trivial rfl rfl
  | oneTick =>
    obtain ⟨rfl, rfl⟩ := Prod.mk.inj (Option.some.inj h)
    exact Acts.here rfl rfl ⟨⟨rfl, hf⟩, trivial⟩ rfl rfl (fun _ => .inl rfl)
      fun hs => absurd hs (not_switches rfl rfl rfl)
  | ticked old =>
    obtain ⟨rfl, rfl⟩ := Prod.mk.inj (Option.some.inj h)
    exact Acts.here rfl rfl trivial hf.1 rfl (fun _ => .inl rfl)
      fun hs => absurd hs (not_switches rfl rfl rfl)
  | _ => cases h

/-- A check of the queue in the loop of `OneTick` or `Idle`: the handler goes above the loop. -/
theorem acts_fire (hl : s.level = .off) (hi : s.inHandler = false) {g : Frame} {st : MachineStatus}
    (hg : g.Needs .off false) (he : g.exit .off = f.exit .off) (hh : g.exitHandler false = false)
    (hh' : f.exitHandler false = false) :
    Acts s f ({ s with status := st }.fire [g]).1 ({ s with status := st }.fire [g]).2 :=
  Acts.here rfl rfl ⟨⟨hl, rfl⟩, hg, trivial⟩ (by rw [hl]; exact he) (by rw [hi, hh']; exact hh)
    (fun _ => .inl rfl) fun _ => ⟨hl, hl⟩

theorem acts_ticking {old : MachineStatus} (hl : s.level = .off) (hi : s.inHandler = false)
    (h : s.act (.ticking old) l = some (fs, s')) : Acts s (.ticking old) fs s' := by
  cases l with
  | due =>
    obtain ⟨rfl, rfl⟩ := Prod.mk.inj (eq_of_assertOff hl h)
    exact acts_fire hl hi ⟨rfl, rfl⟩ rfl rfl rfl
  | done =>
    have ha : Acts s (.ticking old) _ _ := acts_leaveTick hi
    rwa [eq_of_assertOff hl h] at ha
  | _ => cases h

theorem acts_idle (hl : s.level = .off) (hi : s.inHandler = false)
    (h : s.act .idle l = some (fs, s')) : Acts s .idle fs s' := by
  cases l with
  | due =>
    obtain ⟨rfl, rfl⟩ := Prod.mk.inj (eq_of_assertOff (s := { s with status := .idle }) hl h)
    exact acts_fire hl hi ⟨rfl, rfl⟩ rfl rfl rfl
  | done =>
    obtain ⟨rfl, rfl⟩ := Prod.mk.inj (eq_of_assertOff (s := { s with status := .idle }) hl h)
    exact acts_off hl hl rfl rfl rfl rfl trivial rfl rfl
  | _ => cases h

theorem acts_idling (hl : s.level = .off) (hi : s.inHandler = false)
    (h : s.act .idling l = some (fs, s')) : Acts s .idling fs s' := by
  cases l with
  | due =>
    obtain ⟨rfl, rfl⟩ := Prod.mk.inj (eq_of_assertOff hl h)
    exact acts_fire hl hi ⟨rfl, rfl⟩ rfl rfl rfl
  | done =>
    obtain ⟨rfl, rfl⟩ := Prod.mk.inj (eq_of_assertOff hl h)
    exact acts_off hl hl rfl rfl rfl rfl trivial rfl rfl
  | _ => cases h

/-- Each frame that finds what it needs leaves what the frame below it needs. -/
theorem acts_of_act (hf : f.Needs s.level s.inHandler) (h : s.act f l = some (fs, s')) :
    Acts s f fs s' := by
  cases f with
  | code => exact acts_call hf h
  | handler old => exact acts_handle hf.1 hf.2 h
  | ticking old => exact acts_ticking hf.1 hf.2 h
  | idle => exact acts_idle hf.1 hf.2 h
  | idling => exact acts_idling hf.1 hf.2 h
  | _ =>
    cases l with
    | go => exact acts_go hf h
    | _ => cases h

/-! ## Runs -/

theorem step_eq_some (h : step s l = some s') :
    ∃ f rest fs s₁, s.stack s.currentThread = f :: rest ∧ s.act f l = some (fs, s₁) ∧
      s' = { s₁ with stack := Function.update s₁.stack s.currentThread (fs ++ rest) } := by
  unfold step at h
  split_ifs at h
  cases hst : s.stack s.currentThread with
  | nil => simp [hst] at h
  | cons f rest =>
    simp only [hst, Option.map_eq_some_iff] at h
    obtain ⟨⟨fs, s₁⟩, ha, hs⟩ := h
    exact ⟨f, rest, fs, s₁, rfl, ha, hs.symm⟩

structure Inv (s : State) : Prop where
  failed : s.failed = false
  ok : ∀ t, Ok (s.levelOf t) (s.handlerOf t) (s.stack t)

theorem levelOf_current (s : State) : s.levelOf s.currentThread = s.level := if_pos rfl

theorem handlerOf_current (s : State) : s.handlerOf s.currentThread = s.inHandler := if_pos rfl

theorem inv_of_init (h : Init s) : Inv s := by
  obtain ⟨hl, hi, -, -, -, -, -, hst, -, hf⟩ := h
  refine ⟨hf, fun t => ?_⟩
  rcases eq_or_ne t s.currentThread with rfl | ht
  · rw [hst, Function.update_self, handlerOf_current]
    exact ⟨hi, trivial⟩
  · rw [hst, Function.update_of_ne ht]
    trivial

/-- The topmost frame finds what it needs. -/
theorem Inv.needs {rest : List Frame} (hi : Inv s) (hst : s.stack s.currentThread = f :: rest) :
    f.Needs s.level s.inHandler ∧ Ok (f.exit s.level) (f.exitHandler s.inHandler) rest := by
  have hok := hi.ok s.currentThread
  rwa [hst, levelOf_current, handlerOf_current] at hok

theorem inv_step (hi : Inv s) (h : step s l = some s') : Inv s' := by
  obtain ⟨f, rest, fs, s₁, hst, ha, rfl⟩ := step_eq_some h
  obtain ⟨hneeds, hrest⟩ := hi.needs hst
  have hacts := acts_of_act hneeds ha
  refine ⟨hacts.failed.trans hi.failed, fun t => ?_⟩
  rcases eq_or_ne t s.currentThread with rfl | ht
  · show Ok (s₁.levelOf _) (s₁.handlerOf _) (Function.update s₁.stack _ _ _)
    rw [Function.update_self, Ok.append, hacts.exit, hacts.exitHandler]
    exact ⟨hacts.ok, hrest⟩
  · show Ok (s₁.levelOf t) (s₁.handlerOf t) (Function.update s₁.stack _ _ t)
    rw [Function.update_of_ne ht, (hacts.others t ht).1, (hacts.others t ht).2]
    rcases hacts.forks t with hs | ⟨-, hs⟩
    · have hok := hi.ok t
      rwa [State.levelOf, State.handlerOf, if_neg ht, if_neg ht, ← hs] at hok
    · rw [hs]
      exact ⟨⟨rfl, rfl⟩, trivial⟩

theorem inv_of_reach (h : Run.Reach step Init s) : Inv s :=
  h.inv Inv (fun _ => inv_of_init) fun _ _ _ hi => inv_step hi

/-- Thread `t` is in calls made at the frames `k`, and will come back to them with level `lv`. -/
def Inside (t : ℕ) (k : List Frame) (lv : IntStatus) (s : State) : Prop :=
  ∃ fs, s.stack t = fs ++ k ∧ exitOf (s.levelOf t) fs = lv ∧ (fs = [] → s.currentThread = t)

theorem Inside.step {t : ℕ} {lv : IntStatus} (hi : Inv s) (hin : Inside t k lv s)
    (hne : s.stack t ≠ k) (h : step s l = some s') : Inside t k lv s' := by
  obtain ⟨gs, hgs, hexit, -⟩ := hin
  obtain ⟨g, gs, rfl⟩ : ∃ g gs', gs = g :: gs' :=
    List.exists_cons_of_ne_nil fun hn => hne (by rw [hgs, hn, List.nil_append])
  obtain ⟨f, rest, fs, s₁, hst, ha, rfl⟩ := step_eq_some h
  have hacts := acts_of_act (hi.needs hst).1 ha
  rcases eq_or_ne t s.currentThread with rfl | ht
  · obtain ⟨rfl, rfl⟩ := List.cons.inj (hst.symm.trans hgs)
    rw [levelOf_current] at hexit
    refine ⟨fs ++ gs, ?_, ?_, fun hn => hacts.stays (List.append_eq_nil_iff.mp hn).1⟩
    · show Function.update s₁.stack _ _ _ = _
      rw [Function.update_self]
      exact (List.append_assoc fs gs k).symm
    · show exitOf (s₁.levelOf _) _ = lv
      rw [exitOf_append, hacts.exit]
      exact hexit
  · refine ⟨g :: gs, ?_, ?_, fun hn => absurd hn (List.cons_ne_nil _ _)⟩
    · show Function.update s₁.stack _ _ t = _
      rw [Function.update_of_ne ht]
      rcases hacts.forks t with hs | ⟨hs, -⟩
      · rw [hs, hgs]
      · exact absurd (hgs.symm.trans hs) (List.cons_ne_nil _ _)
    · show exitOf (s₁.levelOf t) _ = lv
      rw [(hacts.others t ht).1]
      rwa [State.levelOf, if_neg ht] at hexit

/-- With a handler below, the topmost frame is reached with interrupts off. -/
theorem Ok.of_handler {lv : IntStatus} {h : Bool} {old : MachineStatus} (hok : Ok lv h fs)
    (hmem : .handler old ∈ fs) : h = true ∧ lv = .off := by
  induction fs generalizing lv h with
  | nil => cases hmem
  | cons f fs ih =>
    rcases List.mem_cons.mp hmem with rfl | hmem
    · exact ⟨hok.1.2, hok.1.1⟩
    · have hh := (ih hok.2 hmem).1
      cases f with
      | code | root | finish | finished => cases hh
      | handler => exact ⟨hok.1.2, hok.1.1⟩
      | V => exact ⟨hh, hok.1 hh⟩
      | waking | restore => exact ⟨hh, hok.1.1⟩
      | fork | yield | P | oneTick => exact absurd (hok.1.symm.trans hh) Bool.false_ne_true
      | _ => exact absurd (hok.1.2.symm.trans hh) Bool.false_ne_true

theorem step_switches (hi : Inv s) (h : step s l = some s')
    (hsw : Switches s s' ∨ ∃ next rest, s.stack s.currentThread = .dispatch next :: rest) :
    s.level = .off ∧ s'.level = .off := by
  obtain ⟨f, rest, fs, s₁, hst, ha, rfl⟩ := step_eq_some h
  have hneeds := (hi.needs hst).1
  rcases hsw with hsw | ⟨next, rest', hd⟩
  · exact (acts_of_act hneeds ha).switches hsw
  · obtain ⟨rfl, -⟩ := List.cons.inj (hst.symm.trans hd)
    cases l with
    | go =>
      obtain ⟨rfl, rfl⟩ := Prod.mk.inj (Option.some.inj ha)
      exact ⟨hneeds.1, hneeds.1⟩
    | _ => cases ha

/-- Whatever runs in between, a call of `P`, `V`, `Fork` or `Yield` returns to its caller with the
level of its entry; the queues change, and `SWITCH` is called, with interrupts off only; and a
handler runs with interrupts off, in the thread that runs. The last part says that the assertion of
`SetLevel` never fails: no handler tries to turn interrupts on. -/
theorem interrupt_discipline (hr : Run.Reach step Init s) :
    (∀ f k ls s', f.IsCall → s.stack s.currentThread = f :: k →
        Run.Admits step (fun u _ => u.stack s.currentThread ≠ k) s ls →
        Run.exec step s ls = some s' → s'.stack s.currentThread = k →
        s'.currentThread = s.currentThread ∧ s'.level = s.level) ∧
      (∀ l s', step s l = some s' →
        Switches s s' ∨ (∃ next rest, s.stack s.currentThread = .dispatch next :: rest) →
        s.level = .off ∧ s'.level = .off) ∧
      (∀ t old, .handler old ∈ s.stack t → t = s.currentThread ∧ s.level = .off) ∧
      s.failed = false := by
  have hi := inv_of_reach hr
  refine ⟨fun f k ls s' hf hst ha he hret => ?_, fun l s' h hsw => step_switches hi h hsw,
    fun t old hmem => ?_, hi.failed⟩
  · have hin : Inside s.currentThread k s.level s :=
      ⟨[f], hst, by rw [levelOf_current]; exact hf.exit s.level, fun hn => by cases hn⟩
    have hstep : ∀ u l u', Inv u ∧ Inside s.currentThread k s.level u →
        u.stack s.currentThread ≠ k → step u l = some u' →
        Inv u' ∧ Inside s.currentThread k s.level u' :=
      fun u l u' hu hne h => ⟨inv_step hu.1 h, hu.2.step hu.1 hne h⟩
    obtain ⟨-, fs, hfs, hexit, hcur⟩ := Run.exec_inv hstep ls s s' ⟨hi, hin⟩ ha he
    have hnil : fs = [] := List.append_left_eq_self.mp (hfs.symm.trans hret)
    subst hnil
    have hc := hcur rfl
    rw [← hc, levelOf_current] at hexit
    exact ⟨hc, hexit⟩
  · obtain ⟨hh, hl⟩ := (hi.ok t).of_handler hmem
    rcases eq_or_ne t s.currentThread with rfl | ht
    · exact ⟨rfl, by rwa [levelOf_current] at hl⟩
    · rw [State.handlerOf, if_neg ht] at hh
      cases hh

/-- The main thread before any of its code. -/
def boot : State where
  level := .off
  inHandler := false
  yieldOnReturn := false
  status := .system
  currentThread := 0
  threadToBeDestroyed := none
  readyList := []
  sem := fun _ => Semaphore.new 0
  stack := Function.update (fun _ => []) 0 [.code]
  halted := false
  failed := false

/-- The main thread enables the interrupts, forks thread 1 and calls `Yield`. -/
def untilYield : List Label :=
  [.setLevel .on, .go, .done, .fork 1, .go, .go, .go, .go, .done, .yield]

/-- Thread 1 starts, is interrupted by the timer in its first tick and yields, and the main thread
goes on. -/
def throughThread1 : List Label :=
  [.go, .go, .go, .go, .go, .due, .yieldOnReturn, .done, .done, .go, .go, .go, .go, .go, .go, .done]

theorem interrupt_discipline_yield :
    ∃ s s', Run.exec step boot untilYield = some s ∧ s.level = .on ∧
      Run.exec step s throughThread1 = some s' ∧
      s'.currentThread = s.currentThread ∧ s'.level = s.level := by
  obtain ⟨s, hs⟩ : ∃ s, Run.exec step boot untilYield = some s :=
    Option.isSome_iff_exists.mp (by decide)
  have hinit : Init boot := ⟨rfl, rfl, rfl, rfl, rfl, rfl, fun _ => rfl, rfl, rfl, rfl⟩
  have hr : Run.Reach step Init s := ⟨boot, untilYield, hinit, hs⟩
  obtain rfl : s = (Run.exec step boot untilYield).get (by decide) := by
    simp only [hs, Option.get_some]
  obtain ⟨s', hs'⟩ := Option.isSome_iff_exists.mp
    (show (Run.exec step ((Run.exec step boot untilYield).get (by decide)) throughThread1).isSome
      from by decide)
  refine ⟨_, s', hs, by decide, hs', ?_⟩
  refine (interrupt_discipline hr).1 .yield [.code] throughThread1 s' (.inr (.inl rfl)) (by decide)
    (Run.admits_of_admitted (by decide)) hs' ?_
  obtain rfl : s' = (Run.exec step ((Run.exec step boot untilYield).get (by decide))
    throughThread1).get (by decide) := by simp only [hs', Option.get_some]
  decide

end IntLevel

end Nachos
