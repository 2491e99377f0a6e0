import Nachos.Filesys.Stub
import Nachos.Lib.Prog
import Nachos.Lib.Run
import Nachos.Machine.Translate
import Nachos.Threads.SynchConsole
import Nachos.Userprog.PTable

/-!
# The kernel as a system call sees it

`Kernel` is the state the code of `exception.cc` works on, as the thread that makes the system call
sees it: its own registers and page table, and everything it shares with the others. Where the code
can lose the processor it waits with a `Call`, and `Serves` says what it may find afterwards: the
thread's own things are as they were, the rest may have changed.

A kernel buffer is the list of its bytes; an index outside of it is undefined behaviour.
-/

namespace Nachos

/-! ## The semaphore table, `stable.cc` -/

/-- `MAX_SEMAPHORE`. -/
abbrev maxSemaphore : ℕ := 10

structure Sem where
  name : Name
  sem : Semaphore
  deriving DecidableEq, Repr

structure STable where
  bm : BitMap
  semTab : ℕ → Option Sem

namespace STable

/-- `STable::STable()`; `words` is what the memory of the bitmap held. -/
def new (words : ℕ → Word) : STable where
  bm := BitMap.new words maxSemaphore
  semTab := fun _ => none

/-- What the loops of `Create`, `Wait` and `Signal` find. -/
inductive Lookup where
  | found (i : ℕ) (s : Sem)
  | missing
  /-- A marked slot without a semaphore. -/
  | undefined
  deriving DecidableEq, Repr

def lookupFrom (t : STable) (name : Name) : List ℕ → Lookup
  | [] => .missing
  | i :: is =>
    if t.bm.test i then
      match t.semTab i with
      | none => .undefined
      | some s => if name = s.name then .found i s else t.lookupFrom name is
    else t.lookupFrom name is

def lookup (t : STable) (name : Name) : Lookup := t.lookupFrom name (List.range maxSemaphore)

def setSem (t : STable) (i : ℕ) (s : Sem) : STable :=
  { t with semTab := Function.update t.semTab i (some s) }

end STable

/-- What the threads do to the table. -/
inductive SemEvent where
  /-- `FindFreeSlot` marks a slot, -/
  | findFreeSlot
  /-- and `Create` stores a semaphore. -/
  | create (i : ℕ) (s : Sem)
  /-- A round of the loop in `P` on the semaphore in slot `i`. -/
  | P (thread i : ℕ)
  | V (i : ℕ)
  /-- `P`, called on what was in slot `i`, returns. -/
  | returned (thread i : ℕ)
  deriving DecidableEq, Repr

/-- The table after an event. -/
def STable.after (t : STable) : SemEvent → STable
  | .findFreeSlot => { t with bm := t.bm.find.2 }
  | .create i s => t.setSem i s
  | .P thread i => (t.semTab i).elim t fun s => t.setSem i { s with sem := (s.sem.P thread).1 }
  | .V i => (t.semTab i).elim t fun s => t.setSem i { s with sem := s.sem.V }
  | .returned _ _ => t

/-! ## The console, `synchcons.cc` -/

/-- How a line ends. -/
inductive LineEnd where
  /-- `numBytes` characters were read. -/
  | full
  | newline
  /-- Ctrl-A. -/
  | ctrlA
  deriving DecidableEq, Repr

/-- The loop of `SynchConsole::Read` for at most `n` characters: the characters, how the line ends,
and the input left. `none`: the input runs out and the thread waits for ever. The device cannot
deliver the character `0xFF`, which is its `EOF`. -/
def readLine : ℕ → List Byte → Option (List Byte × LineEnd × List Byte)
  | 0, input => some ([], .full, input)
  | _ + 1, [] => none
  | n + 1, ch :: input =>
    if ch = 0xFF#8 then readLine (n + 1) input
    else if ch = 0x0A#8 then some ([], .newline, input)
    else if ch = 0x01#8 then some ([], .ctrlA, input)
    else (readLine n input).map fun (line, e, rest) => (ch :: line, e, rest)

theorem readLine_zero (input : List Byte) : readLine 0 input = some ([], .full, input) := by
  rw [readLine]

/-- How the line of a call of `Read` ends. -/
def ReadCall.lineEnd (r : ReadCall) : LineEnd :=
  match r.last with
  | none => .full
  | some ch => if ch = 0x0A#8 then .newline else .ctrlA

theorem readLine_bytes {r : ReadCall} (hl : r.IsLine) (he : eof ∉ r.bytes) (rest : List Byte) :
    readLine r.numBytes (r.bytes ++ rest) = some (r.into, r.lineEnd, rest) := by
  obtain ⟨thread, numBytes, into, last⟩ := r
  -- along the characters in the buffer
  induction into generalizing numBytes with
  | nil =>
    cases last with
    | none =>
      obtain rfl : 0 = numBytes := hl.2
      exact readLine_zero rest
    | some ch =>
      obtain ⟨-, hlt, heoln⟩ := hl
      obtain ⟨n, rfl⟩ : ∃ n, numBytes = n + 1 := ⟨numBytes - 1, by simp at hlt; omega⟩
      have hne : ch ≠ 0xFF#8 := fun e => he (e ▸ List.mem_cons_self)
      show readLine (n + 1) (ch :: rest) = some ([], if ch = 0x0A#8 then .newline else .ctrlA, rest)
      rw [readLine, if_neg hne]
      by_cases h : ch = 0x0A#8
      · rw [if_pos h, if_pos h]
      · rw [if_neg h, if_neg h, if_pos (heoln.resolve_left h)]
  | cons ch into ih =>
    obtain ⟨hno, hlast⟩ := hl
    have hch : ¬ IsEoln ch := hno ch List.mem_cons_self
    have hne : ch ≠ 0xFF#8 := fun e => he (e ▸ List.mem_cons_self)
    obtain ⟨n, rfl, hrest⟩ : ∃ n, numBytes = n + 1 ∧
        ReadCall.IsLine { thread := thread, numBytes := n, into := into, last := last } := by
      have hno' : ∀ c ∈ into, ¬ IsEoln c := fun c hc => hno c (List.mem_cons_of_mem ch hc)
      cases last with
      | none => exact ⟨into.length, hlast.symm, hno', rfl⟩
      | some e =>
        obtain ⟨hlt, heoln⟩ := hlast
        have hlt : into.length + 1 < numBytes := hlt
        exact ⟨numBytes - 1, by omega, hno', by show into.length < numBytes - 1; omega, heoln⟩
    have ih := ih n hrest fun hmem => he (List.mem_cons_of_mem ch hmem)
    show readLine (n + 1) (ch :: (into ++ last.toList ++ rest)) = _
    rw [readLine, if_neg hne, if_neg fun e => hch (Or.inl e), if_neg fun e => hch (Or.inr e)]
    exact congrArg (Option.map fun (line, e, rest) => (ch :: line, e, rest)) ih

/-- `readLine` is what a call of `Read` does, whatever the interleaving: on the input that the calls
before it have left. -/
theorem readLine_of_calls {input : List Byte} {s : SynchConsole}
    (h : Run.Reach SynchConsole.step (· = SynchConsole.start input) s) (hin : eof ∉ input)
    {done calls : List ReadCall} {r : ReadCall} (hr : s.keyboard.calls = done ++ r :: calls) :
    ∃ now rest, input = (done.map ReadCall.bytes).flatten ++ now ∧
      readLine r.numBytes now = some (r.into, r.lineEnd, rest) := by
  obtain ⟨⟨w, taken, -, -, hall⟩, hline⟩ := SynchConsole.keyboard_inv h hin
  have hmem : r ∈ s.keyboard.calls := hr ▸ List.mem_append_right _ List.mem_cons_self
  have hall : input = (done.map ReadCall.bytes).flatten ++ (r.bytes ++
      ((calls.map ReadCall.bytes).flatten ++ taken ++ s.keyboard.buffered ++ s.keyboard.input)) := by
    rw [hr, List.map_append, List.flatten_append, List.map_cons, List.flatten_cons] at hall
    simpa only [List.append_assoc] using hall
  have heof : eof ∉ r.bytes := fun he => hin (by
    rw [hall]
    exact List.mem_append_right _ (List.mem_append_left _ he))
  exact ⟨_, _, hall, readLine_bytes (hline r hmem) heof _⟩

/-! ## The state and the calls -/

/-- The messages of the handlers. -/
inductive Message where
  /-- `"\n Filename is Invalid."` -/
  | createInvalidName
  /-- `"\nSC_OPEN_ERROR : Filename is Invalid."` -/
  | openInvalidName
  /-- `"\nSC_OPEN_ERROR : Type is Invalid."` -/
  | openInvalidType
  /-- `"\nSC_READ_ERROR: Unexpected buffer size."` -/
  | readSize
  /-- `"\nSC_READ_ERROR: Unexpected file id %d"` -/
  | readId (id : ℤ)
  /-- `"\n SC_READ_ERROR: Reading file id %d is not open."` -/
  | readNotOpen (id : ℤ)
  /-- `"\nSC_READ_ERROR: You cannot read file stdout. This is only write file"` -/
  | readStdout
  /-- `"\nSC_WRITE_ERROR: Unexpected buffer size."` -/
  | writeSize
  /-- `"\nSC_WRITE_ERROR: Unexpected file id %d"` -/
  | writeId (id : ℤ)
  /-- `"\n SC_WRITE_ERROR: Reading file id %d is not open."` -/
  | writeNotOpen (id : ℤ)
  /-- `"\nSC_WRITE_ERROR: You cannot write file stdin. This is only read file"` -/
  | writeStdin
  /-- `"\nSC_SEEK_ERROR : Unexpected file id."` -/
  | seekId
  /-- `"\nSC_SEEK_ERROR: File %d is not exist"` -/
  | seekNotOpen (id : ℤ)
  /-- `"\nSC_SEEK_ERROR: can not call Seek from console."` -/
  | seekConsole
  /-- `"\nSC_READINT : Invalid - Invalid - Input non Integer\n"` -/
  | readIntInvalid
  /-- `"\nSC_READINT : Invalid - Invalid - Input is Empty\n"` -/
  | readIntEmpty
  /-- `"\nSC_READCHAR : Invalid - Number of characters is more than 1\n"` -/
  | readCharMany
  /-- `"\nSC_READCHAR : Invalid - Input character is empty\n"` -/
  | readCharEmpty
  /-- `"\nSC_READSTRING : Invalid - The string is empty - \n"` -/
  | readStringEmpty
  /-- `"\nSC_READSTRING : Failed - Some errors have been occured when tranfers from system to user\n"` -/
  | readStringFailed
  /-- `"\nSC_EXEC : File name is too short or too long."` -/
  | execName
  /-- `"\nSC_EXEC : Can not open this file with name %s."` -/
  | execOpen (name : Name)
  /-- `"\nSC_JOIN : Error in JoinUpdate."` -/
  | joinError
  /-- `"\nSC_CREATESEMAPHORE_ERROR : Loi khoi tao semaphore."` -/
  | createSemaphoreError
  /-- `"\nSTABLE_ERROR :  Name is extist"` -/
  | semNameExists
  /-- `"\nSTABLE_ERROR: Khong tim thay vi tri trong"` -/
  | semNoFreeSlot
  /-- `"\nERROR: semaphore khong ton tai"` -/
  | semMissing
  /-- `"\nSC_UP_ERROR :Semaphore name khong ton tai."` -/
  | upError
  /-- `"\nSC_DOWN_ERROR : Semaphore name khong ton tai."` -/
  | downError
  /-- `"\nShut down, initialize by user program\n"` -/
  | shutDown
  /-- The message of `ExceptionHandler` for an exception other than a system call. -/
  | exception (which : ExceptionType)
  deriving Repr

structure Kernel where
  /-- The thread that runs, and its registers and page table. -/
  thread : ℕ
  registers : Registers
  pageTable : List TranslationEntry
  memory : Memory
  fileSystem : FileSystem
  semTab : STable
  /-- What happened to the table. -/
  semLog : List SemEvent := []
  pTab : Procs
  /-- What the console will deliver to this thread. -/
  input : List Byte
  output : List Byte
  printed : List Message

/-- The root process when it makes its first system call, with nothing on the host but what the
kernel itself creates. -/
def Kernel.boot (registers : Registers) (pageTable : List TranslationEntry) (memory : Memory)
    (input : List Byte) : Option Kernel :=
  (FileSystem.new Host.empty).map fun fs =>
    { thread := 0, registers := registers, pageTable := pageTable, memory := memory,
      fileSystem := fs, semTab := STable.new fun _ => 0, pTab := Procs.initial fun _ => 0,
      input := input, output := [], printed := [] }

/-- Why a thread does not return to its user program. -/
inductive End where
  | down (d : Down)
  | finished
  /-- It waits for ever. -/
  | waits
  deriving DecidableEq, Repr

/-- Where a thread can lose the processor. -/
inductive Call where
  | consoleRead
  | consoleWrite (bytes : List Byte)
  | execUpdate (name : Name)
  | joinUpdate (id : ℤ)
  | exitUpdate (ec : ℤ)
  /-- `P` on the semaphore in a slot of the table. -/
  | semP (i : ℕ)
  /-- No wait: the value of a variable that was not set, or of a function that ends without
  `return`. -/
  | arbitrary
  deriving DecidableEq, Repr

abbrev Call.Reply : Call → Type
  | .consoleRead | .consoleWrite _ | .semP _ => Unit
  | .execUpdate _ | .joinUpdate _ | .exitUpdate _ | .arbitrary => ℤ

/-- The code of the kernel. -/
abbrev KernelM (α : Type) : Type := Prog Kernel Call.Reply End α

/-- What a thread that waited finds again. -/
structure Kernel.Mine (k k' : Kernel) : Prop where
  thread : k'.thread = k.thread
  registers : k'.registers = k.registers
  pageTable : k'.pageTable = k.pageTable
  input : k'.input = k.input
  /-- A descriptor that is not in `openState` is known only to the thread that opened it. -/
  descriptors : ∀ fd, k.fileSystem.host.fds fd ≠ none →
    (∀ i f, k.fileSystem.openState i = some f → f.file ≠ fd) →
      k'.fileSystem.host.fds fd = k.fileSystem.host.fds fd

/-- `ExitUpdate` is called by `SC_Exit` only, with the status 0. -/
def Procs.Label.ExitsNormally : Procs.Label → Prop
  | .exit _ ec => ec = 0
  | _ => True

/-- The thread called `f`, others ran, and the last step of this run ended its call: `log` are the
events since then. -/
def Kernel.Called (k k' : Kernel) (f : Procs.Label) (log : List Event) : Prop :=
  k'.pTab.log = k.pTab.log ++ log ∧ ∃ ls : List Procs.Label,
    (∀ l ∈ ls, l.ExitsNormally ∧ (l.thread = k.thread → ∃ nm, l = .run k.thread nm)) ∧
      Run.exec Procs.step k.pTab (f :: ls) = some k'.pTab ∧ k'.pTab.pt k.thread = .user

/-- The thread called `P` on the semaphore in slot `i`, others ran, and in its last round it found a
value other than 0. If `Create` took the slot meanwhile, then the table does not show this round. -/
def Kernel.Passed (k k' : Kernel) (i : ℕ) : Prop :=
  ∃ events : List SemEvent, k'.semLog = k.semLog ++ (events ++ [.returned k.thread i]) ∧
    k'.semTab = events.foldl STable.after k.semTab ∧
    ((∃ s, .create i s ∈ events) ∨ ∃ before q, events = before ++ [.P k.thread i] ∧
      (before.foldl STable.after k.semTab).semTab i = some q ∧ q.sem.value ≠ 0)

def Serves : (c : Call) → Kernel → c.Reply → Kernel → Prop
  | .consoleRead, k, _, k' => k.Mine k'
  | .consoleWrite bytes, k, _, k' => k.Mine k' ∧
      ∃ before after, k'.output = k.output ++ before ++ bytes ++ after
  | .execUpdate name, k, pid, k' => k.Mine k' ∧
      ∃ log, k.Called k' (.exec k.thread (some name)) (log ++ [.execReturned k.thread pid])
  | .joinUpdate id, k, ec, k' => k.Mine k' ∧
      ∃ log, k.Called k' (.join k.thread id) (log ++ [.joinReturned k.thread id ec])
  | .exitUpdate ec, k, res, k' => k.Mine k' ∧
      ∃ log, k.Called k' (.exit k.thread ec) (log ++ [.exitReturned k.thread res])
  | .semP i, k, _, k' => k.Mine k' ∧ k.Passed k' i
  | .arbitrary, k, _, k' => k' = k

end Nachos
