import Nachos.Lib.Insert
import Nachos.Lib.Run

/-!
# The interrupt queue and the clock, `interrupt.cc`

The devices schedule interrupts for later. `OneTick` moves the clock on and calls the handler of
every interrupt that has become due; `Idle` moves it to the next one. A handler is code of a device:
it may read everything, change the rest of the kernel (`world`), schedule further interrupts and ask
for a yield.

`OneTick` is modelled up to the call of `Yield`; what other threads do there are further steps, and
so is the restored status after it.
-/

namespace Nachos

inductive IntStatus where
  | off | on
  deriving DecidableEq, Repr

inductive MachineStatus where
  | idle | system | user
  deriving DecidableEq, Repr

inductive IntType where
  | timer | disk | consoleWrite | consoleRead | networkSend | networkRecv
  deriving DecidableEq, Repr

structure PendingInterrupt where
  handler : ℕ
  arg : ℤ
  when : ℤ
  type : IntType
  /-- Which call of `Schedule` allocated it. -/
  serial : ℕ
  deriving DecidableEq, Repr

/-- The arguments of `Schedule`. -/
structure Request where
  handler : ℕ
  arg : ℤ
  fromNow : ℤ
  type : IntType
  deriving DecidableEq, Repr

def userTick : ℤ := 1

def systemTick : ℤ := 10

/-- `Interrupt` with the tick counters of `Statistics`. -/
structure Interrupt (σ : Type) where
  level : IntStatus
  pending : List PendingInterrupt
  inHandler : Bool
  yieldOnReturn : Bool
  status : MachineStatus
  totalTicks : ℤ
  idleTicks : ℤ
  systemTicks : ℤ
  userTicks : ℤ
  world : σ
  halted : Bool
  /-- The number of calls of `Schedule`. -/
  scheduled : ℕ
  /-- The interrupts whose handlers have been called, with the time of the call. -/
  fired : List (PendingInterrupt × ℤ)

/-- What a handler does. -/
structure Effect (σ : Type) where
  requests : List Request
  yields : Bool
  world : σ

/-- `List::SortedInsert` on the pending list: behind the entries with the same key. -/
def sortedInsert (item : PendingInterrupt) (l : List PendingInterrupt) : List PendingInterrupt :=
  Insert.insertBy PendingInterrupt.when item l

/-- The interrupts of the list that are due at time `t`. -/
def dueBy (t : ℤ) (l : List PendingInterrupt) : List PendingInterrupt :=
  l.filter fun e => e.when ≤ t

namespace Interrupt

variable {σ : Type}

/-- The constructors of `Interrupt` and `Statistics`. -/
def new (world : σ) : Interrupt σ :=
  { level := .off, pending := [], inHandler := false, yieldOnReturn := false, status := .system,
    totalTicks := 0, idleTicks := 0, systemTicks := 0, userTicks := 0, world, halted := false,
    scheduled := 0, fired := [] }

/-- `none` stands for the failed assertion on `fromNow`. -/
def schedule (s : Interrupt σ) (r : Request) : Option (Interrupt σ) :=
  if 0 < r.fromNow then
    some { s with
      pending := sortedInsert
        ⟨r.handler, r.arg, s.totalTicks + r.fromNow, r.type, s.scheduled⟩ s.pending
      scheduled := s.scheduled + 1 }
  else none

def scheduleAll (s : Interrupt σ) : List Request → Option (Interrupt σ)
  | [] => some s
  | r :: rs => (s.schedule r).bind fun s => s.scheduleAll rs

variable (call : ℕ → ℤ → Interrupt σ → Effect σ)

/-- The handler is called in system mode. -/
def enter (s : Interrupt σ) (toOccur : PendingInterrupt) : Interrupt σ :=
  { s with
    inHandler := true
    status := .system
    fired := s.fired ++ [(toOccur, s.totalTicks)] }

/-- What the handler does but for its requests. -/
def apply (s : Interrupt σ) (effect : Effect σ) : Interrupt σ :=
  { s with world := effect.world, yieldOnReturn := s.yieldOnReturn || effect.yields }

def fire (s : Interrupt σ) (toOccur : PendingInterrupt) : Option (Interrupt σ) :=
  let effect := call toOccur.handler toOccur.arg (s.enter toOccur)
  (((s.enter toOccur).apply effect).scheduleAll effect.requests).map fun s' =>
    { s' with status := s.status, inHandler := false }

def putBack (s : Interrupt σ) (toOccur : PendingInterrupt) : Interrupt σ :=
  { s with pending := sortedInsert toOccur s.pending }

/-- The clock goes to `when` while nothing is ready. -/
def advanceTo (s : Interrupt σ) (when : ℤ) : Interrupt σ :=
  { s with idleTicks := s.idleTicks + (when - s.totalTicks), totalTicks := when }

/-- The end of `CheckIfDue`, for an interrupt that is due and off the list: the time slicer alone
does not keep an idle machine going. -/
def takeDue (s : Interrupt σ) (toOccur : PendingInterrupt) : Option (Bool × Interrupt σ) :=
  if s.status = .idle ∧ toOccur.type = .timer ∧ s.pending = [] then
    some (false, s.putBack toOccur)
  else (s.fire call toOccur).map fun s' => (true, s')

/-- `none` stands for a failed assertion. -/
def checkIfDue (s : Interrupt σ) (advanceClock : Bool) : Option (Bool × Interrupt σ) :=
  if s.level = .off then
    match s.pending with
    | [] => some (false, s)
    | toOccur :: rest =>
      if advanceClock ∧ s.totalTicks < toOccur.when then
        ({ s with pending := rest }.advanceTo toOccur.when).takeDue call toOccur
      else if s.totalTicks < toOccur.when then
        some (false, { s with pending := rest }.putBack toOccur)
      else { s with pending := rest }.takeDue call toOccur
  else none

/-- `while (CheckIfDue(FALSE));` for at most the given number of calls. -/
def drain : ℕ → Interrupt σ → Option (Interrupt σ)
  | 0, _ => none
  | fuel + 1, s =>
    match s.checkIfDue call false with
    | none => none
    | some (true, s') => drain fuel s'
    | some (false, s') => some s'

/-- The clock moves on by a tick. -/
def advance (s : Interrupt σ) : Interrupt σ :=
  if s.status = .system then
    { s with
      totalTicks := s.totalTicks + systemTick
      systemTicks := s.systemTicks + systemTick }
  else
    { s with
      totalTicks := s.totalTicks + userTick
      userTicks := s.userTicks + userTick }

def changeLevel (s : Interrupt σ) (now : IntStatus) : Interrupt σ := { s with level := now }

/-- The end of `OneTick` before `Yield` is called, if it is. -/
def leaveTick (s : Interrupt σ) : Interrupt σ :=
  if s.yieldOnReturn then { s with level := .on, yieldOnReturn := false, status := .system }
  else { s with level := .on }

def oneTick (fuel : ℕ) (s : Interrupt σ) : Option (Interrupt σ) :=
  (drain call fuel (s.advance.changeLevel .off)).map leaveTick

def setLevel (fuel : ℕ) (s : Interrupt σ) (now : IntStatus) : Option (Interrupt σ) :=
  if now = .off ∨ s.inHandler = false then
    if now = .on ∧ s.level = .off then oneTick call fuel (s.changeLevel now)
    else some (s.changeLevel now)
  else none

def idle (fuel : ℕ) (s : Interrupt σ) : Option (Interrupt σ) :=
  match ({ s with status := .idle }).checkIfDue call true with
  | none => none
  | some (true, s') =>
    (drain call fuel s').map fun s'' => { s'' with yieldOnReturn := false, status := .system }
  | some (false, s') => some { s' with halted := true }

/-! ## The rest of the kernel -/

/-- What the kernel and the devices call. The loops are given a number of rounds. -/
inductive Op (σ : Type) where
  | schedule (r : Request)
  | setLevel (now : IntStatus) (fuel : ℕ)
  | oneTick (fuel : ℕ)
  | idle (fuel : ℕ)
  /-- `setStatus`, which no caller uses for `IdleMode`, and the end of `OneTick` after a yield. -/
  | setStatus (st : MachineStatus)
  /-- Anything that does not concern the interrupts. -/
  | work (world : σ)

def step (s : Interrupt σ) (op : Op σ) : Option (Interrupt σ) :=
  if s.halted then none
  else
    match op with
    | .schedule r => s.schedule r
    | .setLevel now fuel => setLevel call fuel s now
    | .oneTick fuel => oneTick call fuel s
    | .idle fuel => idle call fuel s
    | .setStatus st => if st = .idle then none else some { s with status := st }
    | .work world => some { s with world }

def Init (s : Interrupt σ) : Prop := ∃ world, s = new world

/-! ## The same in small steps -/

/-- The points at which the queue or the clock changes, within `OneTick` and `Idle` too. -/
inductive Prim (σ : Type) where
  | schedule (r : Request)
  | advance
  | check (advanceClock : Bool)
  /-- The queue and the clock stay. -/
  | become (level : IntStatus) (yieldOnReturn : Bool) (status : MachineStatus) (halted : Bool)
      (world : σ)

def prim (s : Interrupt σ) : Prim σ → Option (Interrupt σ)
  | .schedule r => s.schedule r
  | .advance => some s.advance
  | .check advanceClock => (s.checkIfDue call advanceClock).map Prod.snd
  | .become level yieldOnReturn status halted world =>
    some { s with level, yieldOnReturn, status, halted, world }

/-! ## What the operations do -/

variable {call} {s s' : Interrupt σ}

theorem schedule_eq_some {r : Request} (h : s.schedule r = some s') :
    0 < r.fromNow ∧ s' = { s with
      pending := sortedInsert
        ⟨r.handler, r.arg, s.totalTicks + r.fromNow, r.type, s.scheduled⟩ s.pending
      scheduled := s.scheduled + 1 } := by
  unfold schedule at h
  split_ifs at h with hr
  exact ⟨hr, (Option.some.inj h).symm⟩

/-- A property that a call of `Schedule` preserves. -/
theorem scheduleAll_inv (Inv : Interrupt σ → Prop)
    (hstep : ∀ s r s', Inv s → schedule s r = some s' → Inv s') {rs : List Request}
    (hi : Inv s) (h : s.scheduleAll rs = some s') : Inv s' := by
  induction rs generalizing s with
  | nil => exact Option.some.inj h ▸ hi
  | cons r rs ih =>
    obtain ⟨s₁, h₁, h₂⟩ := Option.bind_eq_some_iff.mp h
    exact ih (hstep s r s₁ hi h₁) h₂

theorem fire_eq_some {e : PendingInterrupt} (h : s.fire call e = some s') :
    ∃ s₁, ((s.enter e).apply (call e.handler e.arg (s.enter e))).scheduleAll
        (call e.handler e.arg (s.enter e)).requests = some s₁ ∧
      s' = { s₁ with status := s.status, inHandler := false } := by
  obtain ⟨s₁, h₁, h₂⟩ := Option.map_eq_some_iff.mp h
  exact ⟨s₁, h₁, h₂.symm⟩

/-- The head of the list taken off, with the clock moved to its time where that is asked for. -/
def takeOff (s : Interrupt σ) (advanceClock : Bool) (e : PendingInterrupt)
    (rest : List PendingInterrupt) : Interrupt σ :=
  if advanceClock ∧ s.totalTicks < e.when then { s with pending := rest }.advanceTo e.when
  else { s with pending := rest }

/-- The four ways through `CheckIfDue`. -/
inductive Checked (call : ℕ → ℤ → Interrupt σ → Effect σ) (s : Interrupt σ)
    (advanceClock : Bool) : Bool → Interrupt σ → Prop where
  | empty (h : s.pending = []) : Checked call s advanceClock false s
  | notYet (e : PendingInterrupt) (rest : List PendingInterrupt) (h : s.pending = e :: rest)
      (ha : advanceClock = false) (hlt : s.totalTicks < e.when) :
      Checked call s advanceClock false ({ s with pending := rest }.putBack e)
  | timerOnly (e : PendingInterrupt) (h : s.pending = [e]) (hidle : s.status = .idle)
      (hdue : advanceClock = true ∨ e.when ≤ s.totalTicks) :
      Checked call s advanceClock false ((s.takeOff advanceClock e []).putBack e)
  | fires (e : PendingInterrupt) (rest : List PendingInterrupt) (s' : Interrupt σ)
      (h : s.pending = e :: rest) (hdue : advanceClock = true ∨ e.when ≤ s.totalTicks)
      (hfire : (s.takeOff advanceClock e rest).fire call e = some s') :
      Checked call s advanceClock true s'

@[simp] theorem takeOff_pending (s : Interrupt σ) (advanceClock : Bool) (e : PendingInterrupt)
    (rest : List PendingInterrupt) : (s.takeOff advanceClock e rest).pending = rest := by
  unfold takeOff
  split_ifs <;> rfl

@[simp] theorem takeOff_status (s : Interrupt σ) (advanceClock : Bool) (e : PendingInterrupt)
    (rest : List PendingInterrupt) : (s.takeOff advanceClock e rest).status = s.status := by
  unfold takeOff
  split_ifs <;> rfl

/-- Once the interrupt is off the list it is due. -/
theorem when_le_takeOff {advanceClock : Bool} {e : PendingInterrupt}
    {rest : List PendingInterrupt} (h : advanceClock = true ∨ e.when ≤ s.totalTicks) :
    e.when ≤ (s.takeOff advanceClock e rest).totalTicks := by
  unfold takeOff
  split_ifs with hc
  · exact le_refl e.when
  · rcases h with h | h
    · exact not_lt.mp fun hlt => hc ⟨h, hlt⟩
    · exact h

theorem takeDue_cases {e : PendingInterrupt} {b : Bool} (h : s.takeDue call e = some (b, s')) :
    (b = false ∧ s.status = .idle ∧ s.pending = [] ∧ s' = s.putBack e) ∨
      (b = true ∧ s.fire call e = some s') := by
  unfold takeDue at h
  split_ifs at h with hc
  · obtain ⟨rfl, rfl⟩ := Prod.mk.inj (Option.some.inj h)
    exact .inl ⟨rfl, hc.1, hc.2.2, rfl⟩
  · obtain ⟨s₁, h₁, h₂⟩ := Option.map_eq_some_iff.mp h
    obtain ⟨rfl, rfl⟩ := Prod.mk.inj h₂
    exact .inr ⟨rfl, h₁⟩

theorem checked_of_takeDue {advanceClock b : Bool} {e : PendingInterrupt}
    {rest : List PendingInterrupt} (hp : s.pending = e :: rest)
    (hdue : advanceClock = true ∨ e.when ≤ s.totalTicks)
    (h : (s.takeOff advanceClock e rest).takeDue call e = some (b, s')) :
    Checked call s advanceClock b s' := by
  rcases takeDue_cases h with ⟨rfl, hidle, hnil, rfl⟩ | ⟨rfl, hfire⟩
  · rw [takeOff_pending] at hnil
    subst hnil
    rw [takeOff_status] at hidle
    exact .timerOnly e hp hidle hdue
  · exact .fires e rest s' hp hdue hfire

theorem checkIfDue_cases {advanceClock b : Bool}
    (h : s.checkIfDue call advanceClock = some (b, s')) : Checked call s advanceClock b s' := by
  unfold checkIfDue at h
  split_ifs at h with hoff
  cases hp : s.pending with
  | nil =>
    rw [hp] at h
    obtain ⟨rfl, rfl⟩ := Prod.mk.inj (Option.some.inj h)
    exact .empty hp
  | cons e rest =>
    simp only [hp] at h
    split_ifs at h with hadv hlt
    · refine checked_of_takeDue hp (.inl hadv.1) ?_
      rw [takeOff, if_pos hadv]
      exact h
    · obtain ⟨rfl, rfl⟩ := Prod.mk.inj (Option.some.inj h)
      exact .notYet e rest hp (by simpa [hlt] using hadv) hlt
    · refine checked_of_takeDue hp (.inr (not_lt.mp hlt)) ?_
      rw [takeOff, if_neg hadv]
      exact h

end Interrupt

end Nachos
