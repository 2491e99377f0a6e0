import Nachos.Threads.Synch
import Nachos.Userprog.BitMap

/-!
# The process table, `ptable.cc` and `pcb.cc`

The system of all processes inside `ExecUpdate`, `JoinUpdate` and `ExitUpdate`. A thread can lose
the processor only where interrupts are enabled again, that is at the end of `P`, `V` and `Fork`.
`Pt` has a point for each of these places, and one before each `P`; the code between two points is
one step. (No thread is interrupted just before a `P`; the points there only add interleavings.)

A `PCB` is named by the order of its creation, and the thread its `Exec` forks has the same name.
The destructor of a `PCB` ends in `Thread::Finish`, so the memory of a deleted `PCB` is never given
back and its plain fields stay readable through a stale `pcb[id]`; its three semaphores are gone,
and using one of them is undefined behaviour (`Down.undefined`), as is a null or wild `pcb[id]`.

The name of a forked thread points into a buffer that `SC_Exec` deletes, so what `getName` yields
is part of the label of the step that asks for it. The main thread has the `processID` 0.
-/

namespace Nachos

/-- `MAX_PROCESS`, also the size the table is created with. -/
abbrev maxProcess : ℕ := 10

/-- The semaphores behind the pointers of the table and of each `PCB`. -/
inductive SemRef where
  | bmsem
  | joinsem (a : ℕ)
  | exitsem (a : ℕ)
  | multex (a : ℕ)
  deriving DecidableEq, Repr

/-- The plain fields of a `PCB`. `deleted`, `creator` and `slot` are history: whether the
destructor ran, the process that created it, and the slot it was created for. -/
structure PCB where
  exitcode : ℤ
  numwait : ℤ
  filename : Name
  thread : Option ℕ
  parentID : ℤ
  deleted : Bool
  creator : ℕ
  slot : ℕ
  deriving DecidableEq, Repr

/-- Where a thread stands. -/
inductive Pt where
  /-- Not forked yet. -/
  | unborn
  /-- Outside the three functions. -/
  | user
  /-- `ExecUpdate`: in `bmsem->P()`. -/
  | execP (name : Option Name)
  | execBody (name : Option Name)
  /-- `PCB::Exec`: in `multex->P()`, before and after `Fork`, and back in `ExecUpdate`. -/
  | execMultexP (a : ℕ) (slot : ℕ)
  | execFork (a : ℕ) (slot : ℕ)
  | execUnlock (a : ℕ) (slot : ℕ)
  | execDone (slot : ℕ)
  /-- `JoinUpdate`: in `IncNumWait` of `b`. -/
  | joinIncP (id : ℤ) (b : ℕ)
  | joinInc (id : ℤ) (b : ℕ)
  /-- Before and in `JoinWait`, after it, and after `ExitRelease`. -/
  | joinP (id : ℤ)
  | joinWait (id : ℤ) (a : ℕ)
  | joinRead (id : ℤ)
  | joinDone (id : ℤ) (ec : ℤ)
  /-- `ExitUpdate`: in `DecNumWait` of `b`. -/
  | exitDecP (b : ℕ)
  | exitDec (b : ℕ)
  /-- Before `JoinRelease`, before and in `ExitWait`, and before `Remove`. -/
  | exitRelease
  | exitP
  | exitWait (a : ℕ)
  | exitRemove
  /-- Finished. -/
  | dead
  deriving DecidableEq, Repr

/-- The semaphore a thread is in `P` of, and where it goes from there. -/
def Pt.waits : Pt → Option (SemRef × Pt)
  | .execP name => some (.bmsem, .execBody name)
  | .execMultexP a slot => some (.multex a, .execFork a slot)
  | .joinIncP id b => some (.multex b, .joinInc id b)
  | .joinWait id a => some (.joinsem a, .joinRead id)
  | .exitDecP b => some (.multex b, .exitDec b)
  | .exitWait a => some (.exitsem a, .exitRemove)
  | _ => none

/-- The messages of the three functions. -/
inductive Report where
  /-- `"\nPTable -- ExecUpdate: name can't be a null value.\n"` -/
  | nullName
  /-- `"\nPTable -- ExecUpdate: can't execute itself -- %s -- %s -- %s\n"` -/
  | itself (name root thread : Name)
  /-- `"\nPTable -- ExecUpdate: there is not free slot.\n"` -/
  | noFreeSlot
  /-- `"\nPTable --- ExitUpdate: this %d is not exist."` -/
  | notExist (id : ℕ)
  /-- `"\n PTable -- JoinUpate: Id %d is invalid."` -/
  | invalidId (id : ℤ)
  /-- `"\nPTable -- JoinUpdate: Can't join in process which is not it's parent process."` -/
  | notParent
  deriving DecidableEq, Repr

/-- What happened, in order. -/
inductive Event where
  | printed (m : Report)
  | created (t : ℕ) (a : ℕ) (slot : ℕ)
  | execReturned (t : ℕ) (pid : ℤ)
  | joinCalled (t : ℕ) (id : ℤ)
  /-- `GetExitCode` in `JoinUpdate`. -/
  | joinRead (t : ℕ) (id : ℤ) (ec : ℤ)
  | joinReturned (t : ℕ) (id : ℤ) (ec : ℤ)
  | exitCalled (t : ℕ) (ec : ℤ)
  | exitReturned (t : ℕ) (ec : ℤ)
  /-- The slot was cleared and the `PCB` deleted, with these threads on `joinsem` and `exitsem`. -/
  | removed (a : ℕ) (joinq exitq : List ℕ)
  deriving DecidableEq, Repr

/-- Why nothing runs any more. -/
inductive Down where
  | halted
  | aborted
  | undefined
  deriving DecidableEq, Repr

structure Procs where
  bm : BitMap
  pcb : ℕ → Option ℕ
  heap : ℕ → PCB
  sems : SemRef → Semaphore
  next : ℕ
  processID : ℕ → ℕ
  pt : ℕ → Pt
  down : Option Down
  log : List Event

namespace Procs

/-! ## Elementary steps -/

def goto (s : Procs) (t : ℕ) (p : Pt) : Procs := { s with pt := Function.update s.pt t p }

def emit (s : Procs) (e : Event) : Procs := { s with log := s.log ++ [e] }

def stop (s : Procs) (d : Down) : Procs := { s with down := some d }

def modify (s : Procs) (a : ℕ) (f : PCB → PCB) : Procs :=
  { s with heap := Function.update s.heap a (f (s.heap a)) }

def setSem (s : Procs) (r : SemRef) (m : Semaphore) : Procs :=
  { s with sems := Function.update s.sems r m }

/-- The semaphore was deleted with its `PCB`. -/
def freed (s : Procs) : SemRef → Bool
  | .bmsem => false
  | .joinsem a | .exitsem a | .multex a => (s.heap a).deleted

/-- `pcb[i]`; null pointers and indices outside the array are `none`. -/
def pcbAt (s : Procs) (i : ℤ) : Option ℕ :=
  if 0 ≤ i ∧ i < maxProcess then s.pcb i.toNat else none

/-- One round of `P` on the semaphore `r` by thread `t`, unless it sleeps there. -/
def P (s : Procs) (t : ℕ) (r : SemRef) (next : Pt) : Option Procs :=
  if t ∈ (s.sems r).queue then none
  else if s.freed r then some (s.stop .undefined)
  else
    let q := (s.sems r).P t
    some (if q.2 then (s.setSem r q.1).goto t next else s.setSem r q.1)

def V (s : Procs) (r : SemRef) : Procs :=
  if s.freed r then s.stop .undefined
  else s.setSem r (s.sems r).V

/-! ## `ExecUpdate` -/

def execReturn (s : Procs) (t : ℕ) (pid : ℤ) : Procs :=
  (s.emit (.execReturned t pid)).goto t .user

/-- `new PCB(slot)` with `SetFileName` and the assignment of `parentID`. -/
def newPCB (s : Procs) (t : ℕ) (slot : ℕ) (name : Name) : Procs :=
  let a := s.next
  { s with
    pcb := Function.update s.pcb slot (some a)
    heap := Function.update s.heap a
      { exitcode := 0, numwait := 0, filename := name, thread := none
        parentID := s.processID t, deleted := false, creator := t, slot := slot }
    sems := Function.update (Function.update (Function.update s.sems
      (.joinsem a) (Semaphore.new 0)) (.exitsem a) (Semaphore.new 0)) (.multex a) (Semaphore.new 1)
    next := a + 1 }

/-- `ExecUpdate` between `bmsem->P()` and `multex->P()` of the new `PCB`; `threadName` is
`currentThread->getName()`. -/
def execBody (s : Procs) (t : ℕ) (name : Option Name) (threadName : Name) : Procs :=
  match name with
  | none => ((s.emit (.printed .nullName)).V .bmsem).execReturn t (-1)
  | some name =>
    match s.pcbAt 0 with
    | none => s.stop .undefined
    | some root =>
      if name = (s.heap root).filename ∨ name = threadName then
        ((s.emit (.printed (.itself name (s.heap root).filename threadName))).V .bmsem).execReturn
          t (-1)
      else
        let freespace := s.bm.find.1
        if freespace < 0 then ((s.emit (.printed .noFreeSlot)).V .bmsem).execReturn t (-1)
        else
          (({ s with bm := s.bm.find.2 }.newPCB t freespace.toNat name).emit
            (.created t s.next freespace.toNat)).goto t (.execMultexP s.next freespace.toNat)

/-- `PCB::Exec` from `new Thread` to `Fork`. -/
def execFork (s : Procs) (t : ℕ) (a : ℕ) (slot : ℕ) : Procs :=
  let s := s.modify a fun b => { b with thread := some a, parentID := s.processID t }
  ({ s with processID := Function.update s.processID a slot }.goto a .user).goto t
    (.execUnlock a slot)

/-! ## `JoinUpdate` -/

def joinReturn (s : Procs) (t : ℕ) (id ec : ℤ) : Procs :=
  (s.emit (.joinReturned t id ec)).goto t .user

def joinUpdate (s : Procs) (t : ℕ) (id : ℤ) : Procs :=
  let s := s.emit (.joinCalled t id)
  if id < 0 ∨ id > maxProcess then (s.emit (.printed (.invalidId id))).joinReturn t id (-1)
  else
    match s.pcbAt id with
    | none => s.stop .undefined
    | some a =>
      if (s.processID t : ℤ) ≠ (s.heap a).parentID then
        (s.emit (.printed .notParent)).joinReturn t id (-1)
      else
        match s.pcbAt (s.heap a).parentID with
        | none => s.stop .undefined
        | some b => s.goto t (.joinIncP id b)

/-- `GetExitCode` and `ExitRelease`. -/
def joinRead (s : Procs) (t : ℕ) (id : ℤ) : Procs :=
  match s.pcbAt id with
  | none => s.stop .undefined
  | some a =>
    ((s.emit (.joinRead t id (s.heap a).exitcode)).V (.exitsem a)).goto t
      (.joinDone id (s.heap a).exitcode)

/-! ## `ExitUpdate` -/

def exitReturn (s : Procs) (t : ℕ) (ec : ℤ) : Procs :=
  (s.emit (.exitReturned t ec)).goto t .user

def exitUpdate (s : Procs) (t : ℕ) (ec : ℤ) : Procs :=
  let id := s.processID t
  let s := s.emit (.exitCalled t ec)
  if id = 0 then s.stop .halted
  else if s.bm.test id = false then (s.emit (.printed (.notExist id))).exitReturn t (-1)
  else
    match s.pcbAt id with
    | none => s.stop .undefined
    | some a =>
      let s := s.modify a fun b => { b with exitcode := ec }
      match s.pcbAt (s.heap a).parentID with
      | none => s.stop .undefined
      | some b => s.goto t (.exitDecP b)

/-- `Remove`, with the destructor of the `PCB`: the thread of the `PCB` has to be the current one
and finishes. Where `delete` returns, so does `ExitUpdate`. -/
def remove (s : Procs) (t : ℕ) : Procs :=
  let id := s.processID t
  let s := { s with bm := s.bm.clear id }
  match s.pcbAt id with
  | none => s.goto t .user
  | some a =>
    if (s.heap a).deleted then s.stop .undefined
    else
      let s := (s.emit (.removed a (s.sems (.joinsem a)).queue (s.sems (.exitsem a)).queue)).modify
        a fun b => { b with deleted := true }
      match (s.heap a).thread with
      | none => s.goto t .user
      | some u => if u = t then s.goto t .dead else s.stop .aborted

/-! ## The system -/

/-- The code of thread `t` from its point to the next one. -/
def block (s : Procs) (t : ℕ) (threadName : Name) : Option Procs :=
  match s.pt t with
  | .execBody name => some (s.execBody t name threadName)
  | .execFork a slot => some (s.execFork t a slot)
  | .execUnlock a slot => some ((s.V (.multex a)).goto t (.execDone slot))
  | .execDone slot => some ((s.V .bmsem).execReturn t slot)
  | .joinInc id b =>
    some (((s.modify b fun p => { p with numwait := p.numwait + 1 }).V (.multex b)).goto t
      (.joinP id))
  | .joinP id =>
    some (match s.pcbAt id with
      | none => s.stop .undefined
      | some a => s.goto t (.joinWait id a))
  | .joinRead id => some (s.joinRead t id)
  | .joinDone id ec => some (s.joinReturn t id ec)
  | .exitDec b =>
    some (((s.modify b fun p =>
      { p with numwait := if p.numwait > 0 then p.numwait - 1 else p.numwait }).V (.multex b)).goto
        t .exitRelease)
  | .exitRelease =>
    some (match s.pcbAt (s.processID t) with
      | none => s.stop .undefined
      | some a => (s.V (.joinsem a)).goto t .exitP)
  | .exitP =>
    some (match s.pcbAt (s.processID t) with
      | none => s.stop .undefined
      | some a => s.goto t (.exitWait a))
  | .exitRemove => some (s.remove t)
  | _ => none

/-- A thread calls one of the three functions, or goes on from its point. -/
inductive Label where
  | exec (t : ℕ) (name : Option Name)
  | join (t : ℕ) (id : ℤ)
  | exit (t : ℕ) (ec : ℤ)
  | run (t : ℕ) (threadName : Name)
  deriving DecidableEq, Repr

def Label.thread : Label → ℕ
  | .exec t _ | .join t _ | .exit t _ | .run t _ => t

def step (s : Procs) (l : Label) : Option Procs :=
  if s.down.isSome then none
  else
    match l with
    | .exec t name => if s.pt t = .user then some (s.goto t (.execP name)) else none
    | .join t id => if s.pt t = .user then some (s.joinUpdate t id) else none
    | .exit t ec => if s.pt t = .user then some (s.exitUpdate t ec) else none
    | .run t threadName =>
      match (s.pt t).waits with
      | some (r, next) => s.P t r next
      | none => s.block t threadName

/-- `"./test/testab"`. -/
def rootName : Name :=
  ['.', '/', 't', 'e', 's', 't', '/', 't', 'e', 's', 't', 'a', 'b'].map fun c =>
    BitVec.ofNat 8 c.toNat

/-- The `PCB` of the root process. -/
def rootPCB : PCB where
  exitcode := 0
  numwait := 0
  filename := rootName
  thread := none
  parentID := -1
  deleted := false
  creator := 0
  slot := 0

/-- The state after `PTable::PTable(10)`; `words` is what the memory of the bitmap held. -/
def initial (words : ℕ → Word) : Procs where
  bm := (BitMap.new words maxProcess).mark 0
  pcb := fun i => if i = 0 then some 0 else none
  heap := fun _ => rootPCB
  sems := fun
    | .bmsem | .multex _ => Semaphore.new 1
    | .joinsem _ | .exitsem _ => Semaphore.new 0
  next := 1
  processID := fun _ => 0
  pt := fun t => if t = 0 then .user else .unborn
  down := none
  log := []

def Init (s : Procs) : Prop := ∃ words, s = initial words

end Procs

end Nachos
