import Nachos.Userprog.Kernel

/-!
# System calls, `exception.cc`

The handlers of `ExceptionHandler`, one definition for each case of its switch. A handler leaves by
`break`, and then `IncreatePC` runs, or by `return`. An address the machine cannot translate raises
an exception inside the kernel, which halts the machine.

`User2System` never returns `NULL`, and `FileSystem::Create` never returns `FALSE` (`OpenForWrite`
aborts instead), so the branches for these are not here.
-/

namespace Nachos

/-- `MaxFileLength`. -/
abbrev maxFileLength : ℕ := 32

/-- `MaxBufferSize`. -/
abbrev maxBufferSize : ℕ := 255

/-- How a case of the switch ends. -/
inductive Leave where
  | brk
  | ret
  deriving DecidableEq, Repr

open Prog

/-! ## The machine -/

def readRegister (num : ℕ) : KernelM Word := look fun k => k.registers num

def writeRegister (num : ℕ) (value : Word) : KernelM Unit :=
  change fun k => { k with registers := k.registers.write num value }

def printf (m : Message) : KernelM Unit := change fun k => { k with printed := k.printed ++ [m] }

/-- `interrupt->Halt()`. -/
def halt {α : Type} : KernelM α := stop (.down .halted)

/-- A failed `ASSERT`, or memory that cannot be allocated. -/
def abort {α : Type} : KernelM α := stop (.down .aborted)

/-- Undefined behaviour. -/
def undefined {α : Type} : KernelM α := stop (.down .undefined)

/-- The code may lose the processor here. -/
def wait (c : Call) : KernelM c.Reply := call c

/-- The result of an access to user memory. -/
def access {α : Type} (f : Kernel → Access (α × Kernel)) : KernelM α where
  run k :=
    match f k with
    | .ok (a, k') => .done a k'
    | .exception _ => .stop (.down .halted)
    | .assertFailed => .stop (.down .aborted)

/-- `machine->ReadMem(addr, 1, &value)`. -/
def readMemByte (addr : Word) : KernelM Word := access fun k =>
  match readMem k.memory k.pageTable addr 1 with
  | .ok (value, pageTable) => .ok (value, { k with pageTable := pageTable })
  | .exception which => .exception which
  | .assertFailed => .assertFailed

/-- `machine->WriteMem(addr, 1, value)`. -/
def writeMemByte (addr value : Word) : KernelM Unit := access fun k =>
  match writeMem k.memory k.pageTable addr 1 value with
  | .ok (memory, pageTable) => .ok ((), { k with memory := memory, pageTable := pageTable })
  | .exception which => .exception which
  | .assertFailed => .assertFailed

/-- `IncreatePC`. -/
def increatePC : KernelM Unit := do
  let current ← readRegister pcReg
  writeRegister prevPCReg current
  let next ← readRegister nextPCReg
  writeRegister pcReg next
  writeRegister nextPCReg (next + 4)

/-! ## Kernel buffers -/

/-- The loop of `User2System` from index `i` with `n` rounds left. -/
def user2SystemLoop (virtAddr : Word) : ℕ → ℕ → KernelM (List Byte)
  | _, 0 => pure []
  | i, n + 1 => do
    let oneChar ← readMemByte (virtAddr + BitVec.ofNat 32 i)
    if oneChar = 0 then pure [0]
    else do
      let rest ← user2SystemLoop virtAddr (i + 1) n
      pure (oneChar.setWidth 8 :: rest)

/-- `User2System`: the whole buffer of `limit + 1` bytes. -/
def user2System (virtAddr : Word) (limit : ℕ) : KernelM (List Byte) :=
  if 2 ^ 31 ≤ limit + 1 then abort
  else do
    let bytes ← user2SystemLoop virtAddr 0 limit
    pure (bytes ++ List.replicate (limit + 1 - bytes.length) 0)

/-- The string at the start of a buffer. -/
def cstring (buffer : List Byte) : Name := buffer.takeWhile fun b => b ≠ 0

def strlen (buffer : List Byte) : ℕ := (cstring buffer).length

/-- The loop of `System2User` from index `i` with at most `n` rounds left. -/
def system2UserLoop (virtAddr : Word) (buffer : List Byte) : ℕ → ℕ → KernelM ℤ
  | i, 0 => pure i
  | i, n + 1 =>
    match buffer[i]? with
    | none => undefined
    | some oneChar => do
      writeMemByte (virtAddr + BitVec.ofNat 32 i) (oneChar.signExtend 32)
      if oneChar = 0 then pure (i + 1 : ℕ) else system2UserLoop virtAddr buffer (i + 1) n

def system2User (virtAddr : Word) (len : ℤ) (buffer : List Byte) : KernelM ℤ :=
  if len < 0 then pure (-1)
  else if len = 0 then pure len
  else system2UserLoop virtAddr buffer 0 len.toNat

/-- `buffer[i] = value`. -/
def putByte (buffer : List Byte) (i : ℤ) (value : Byte) : KernelM (List Byte) :=
  if 0 ≤ i ∧ i < buffer.length then pure (buffer.set i.toNat value) else undefined

/-- `SynchConsole::Read`: the buffer and what it returns. -/
def synchRead (into : List Byte) (numBytes : ℤ) : KernelM (List Byte × ℤ) :=
  if into.length < numBytes then undefined
  else do
    wait .consoleRead
    if numBytes ≤ 0 then do
      -- no character is read, and `ch` is tested as it is
      let ch ← wait .arbitrary
      pure (into, if ch = 1 then -1 else 0)
    else do
      let input ← look fun k => readLine numBytes.toNat k.input
      match input with
      | none => stop .waits
      | some (line, e, rest) => do
        change fun k => { k with input := rest }
        pure (line ++ List.replicate (numBytes.toNat - line.length) 0 ++
          into.drop numBytes.toNat, if e = .ctrlA then -1 else (line.length : ℤ))

/-- `SynchConsole::Write`. -/
def synchWrite (from_ : List Byte) (numBytes : ℕ) : KernelM Unit :=
  if from_.length < numBytes then undefined else wait (.consoleWrite (from_.take numBytes))

/-- A call of the file system; `none` is a failed `ASSERT`. -/
def fileOp {α : Type} (f : FileSystem → Option (α × FileSystem)) : KernelM α where
  run k :=
    match f k.fileSystem with
    | none => .stop (.down .aborted)
    | some (a, fs) => .done a { k with fileSystem := fs }

/-- A method of `openState[id]`. -/
def onFile {α : Type} (id : ℕ) (op : OpenFile → Host → Option (α × OpenFile × Host)) :
    KernelM α := fileOp fun fs => do
  let f ← fs.openState id
  let (a, f, h) ← op f fs.host
  pure (a, (fs.setHost h).setSlot id (some f))

/-- `openState[id]->GetCurrentPos()`. -/
def getCurrentPos (id : ℕ) : KernelM ℤ :=
  onFile id fun f h => let (pos, f) := f.getCurrentPos h; some (pos, f, h)

/-- An error exit: a message, and -1 for the user program. -/
def fail (m : Message) (leave : Leave) : KernelM Leave := do
  printf m
  writeRegister 2 (-1)
  pure leave

/-! ## Files -/

def scCreate : KernelM Leave := do
  let virtAddr ← readRegister 4
  let filename ← user2System virtAddr (maxFileLength + 1)
  if strlen filename = 0 then fail .createInvalidName .brk
  else do
    fileOp fun fs => (fs.create (cstring filename)).map fun fs => ((), fs)
    writeRegister 2 0
    pure .brk

def scOpen : KernelM Leave := do
  let addr ← readRegister 4
  let filename ← user2System addr (maxFileLength + 1)
  if strlen filename = 0 ∨ maxFileLength < strlen filename then fail .openInvalidName .ret
  else do
    let type ← readRegister 5
    if type ≠ 0 ∧ type ≠ 1 then fail .openInvalidType .ret
    else do
      let freeSlot ← look fun k => k.fileSystem.findFreeSlot
      match freeSlot with
      | none => pure .brk
      | some slot => do
        let opened ← look fun k => k.fileSystem.openFile (cstring filename) type.toInt
        match opened with
        | none => do
          change fun k => { k with fileSystem := k.fileSystem.setSlot slot none }
          writeRegister 2 (-1)
          pure .brk
        | some (f, fs) => do
          change fun k => { k with fileSystem := fs.setSlot slot (some f) }
          writeRegister 2 (BitVec.ofNat 32 slot)
          pure .brk

def scClose : KernelM Leave := do
  let id := (← readRegister 4).toInt
  let file ← look fun k =>
    if 0 ≤ id ∧ id ≤ 9 then k.fileSystem.openState id.toNat else none
  match file with
  | some f => do
    fileOp fun fs => (fs.host.close f.file).map fun h =>
      ((), (fs.setHost h).setSlot id.toNat none)
    writeRegister 2 0
    pure .brk
  | none => do
    writeRegister 2 (-1)
    pure .brk

/-- The first checks of `SC_Read` and `SC_Write`: the size, the id, that the file is open and that it
is not the wrong console. `go` gets the open file. -/
def checkTransfer (charcount id : ℤ) (wrongType : ℤ) (size notId notOpen wrong : Message)
    (go : OpenFile → KernelM Leave) : KernelM Leave :=
  if charcount < 0 then fail size .ret
  else if id < 0 ∨ id > 9 then fail notId .ret
  else do
    let file ← look fun k => k.fileSystem.openState id.toNat
    match file with
    | none => fail notOpen .ret
    | some f => if f.type = wrongType then fail wrong .ret else go f

def scRead : KernelM Leave := do
  let virtAddr ← readRegister 4
  let charcount := (← readRegister 5).toInt
  let id := (← readRegister 6).toInt
  checkTransfer charcount id 3 .readSize (.readId id) (.readNotOpen id) .readStdout fun f => do
    let curPos ← getCurrentPos id.toNat
    let buffer ← user2System virtAddr charcount.toNat
    if f.type = 2 then do
      let (buffer, size) ← synchRead buffer charcount
      let _ ← system2User virtAddr size buffer
      writeRegister 2 (BitVec.ofInt 32 size)
      pure .ret
    else do
      let bytes ← onFile id.toNat fun f h => f.read h charcount.toNat
      if bytes.length > 0 then do
        let newPos ← getCurrentPos id.toNat
        let _ ← system2User virtAddr (newPos - curPos) (bytes ++ buffer.drop bytes.length)
        writeRegister 2 (BitVec.ofInt 32 (newPos - curPos))
        pure .brk
      else do
        writeRegister 2 (-2)
        pure .brk

/-- `while (buffer[i] = '\n')`: the assignment is never 0, so the loop leaves the buffer. -/
def writeStdoutLoop : ℕ → KernelM Leave
  | 0 => undefined
  | n + 1 => do
    wait (.consoleWrite [0x0A#8])
    writeStdoutLoop n

def scWrite : KernelM Leave := do
  let virtAddr ← readRegister 4
  let charcount := (← readRegister 5).toInt
  let id := (← readRegister 6).toInt
  checkTransfer charcount id 2 .writeSize (.writeId id) (.writeNotOpen id) .writeStdin fun f => do
    let curPos ← getCurrentPos id.toNat
    let buffer ← user2System virtAddr charcount.toNat
    if f.type = 3 then writeStdoutLoop buffer.length
    else do
      let written ← onFile id.toNat fun f h => f.write h (buffer.take charcount.toNat)
      if written > 0 then do
        let newPos ← getCurrentPos id.toNat
        writeRegister 2 (BitVec.ofInt 32 (newPos - curPos))
        pure .brk
      else pure .brk

def scSeek : KernelM Leave := do
  let pos := (← readRegister 4).toInt
  let id := (← readRegister 5).toInt
  if id < 0 ∨ id > 9 then fail .seekId .ret
  else do
    let file ← look fun k => k.fileSystem.openState id.toNat
    match file with
    | none => fail (.seekNotOpen id) .ret
    | some _ =>
      if id = 0 ∨ id = 1 then fail .seekConsole .ret
      else do
        let pos ← if pos = -1 then onFile id.toNat fun f h => do
            let (len, h) ← f.length h
            pure (len, f, h)
          else pure pos
        onFile id.toNat fun f h => (f.seek h pos).map fun (f, h) => ((), f, h)
        writeRegister 2 (BitVec.ofInt 32 pos)
        pure .brk

def scHalt : KernelM Leave := do
  printf .shutDown
  halt

/-! ## Console -/

/-- `'0' <= c && c <= '9'`. -/
def isDigit (c : Byte) : Bool := 0x30#8 ≤ c && c ≤ 0x39#8

/-- The conversion loop of `SC_ReadInt`; `none` is `isValid == false`. -/
def readIntLoop (result : Word) : List Byte → Option Word
  | [] => some result
  | c :: cs =>
    if isDigit c then readIntLoop (result * 10 + (c.setWidth 32 - 0x30#32)) cs else none

/-- The value of a non-empty line; `none` is an invalid one. -/
def parseInt (line : List Byte) : Option Word :=
  match line with
  | [] => none
  | c :: cs =>
    if c = 0x2D#8 then
      if cs = [] then none else (readIntLoop 0 cs).map fun r => r * (-1)
    else readIntLoop 0 line

def scReadInt : KernelM Leave := do
  let (buffer, bytesRead) ← synchRead (List.replicate (maxBufferSize + 1) 0) maxBufferSize
  let buffer ← putByte buffer bytesRead 0
  if bytesRead > 0 then
    match parseInt (buffer.take bytesRead.toNat) with
    | some result => do
      writeRegister 2 result
      pure .brk
    | none => do
      printf .readIntInvalid
      writeRegister 2 0
      pure .brk
  else do
    printf .readIntEmpty
    pure .brk

/-- `while (temp > 0)`; an `int` has at most 10 digits. -/
def countDigits : ℕ → ℕ → ℕ
  | 0, _ => 0
  | fuel + 1, temp => if temp > 0 then countDigits fuel (temp / 10) + 1 else 0

/-- The last `length` digits of `number`. -/
def fillDigits : ℕ → ℕ → List Byte
  | 0, _ => []
  | length + 1, number =>
    fillDigits length (number / 10) ++ [BitVec.ofNat 8 (number % 10 + 0x30)]

def scPrintInt : KernelM Leave := do
  let number := (← readRegister 4).toInt
  if number = 0 then do
    synchWrite [0x30#8] 1
    pure .brk
  else do
    if number < 0 then synchWrite [0x2D#8] 1 else pure ()
    -- `number * -1` is an `int` again
    let number := if number < 0 then (BitVec.ofInt 32 (number * (-1))).toInt else number
    let length := countDigits 10 number.toNat
    synchWrite (fillDigits length number.toNat ++ [0]) (length + 1)
    pure .brk

def scReadChar : KernelM Leave := do
  let (input, bytes) ← synchRead (List.replicate (maxBufferSize + 1) 0) maxBufferSize
  if bytes > 1 then do
    printf .readCharMany
    writeRegister 2 0
    pure .brk
  else if bytes = 0 then do
    printf .readCharEmpty
    writeRegister 2 0
    pure .brk
  else if bytes = 1 then do
    writeRegister 2 ((input.headD 0).signExtend 32)
    pure .brk
  else pure .brk

def scPrintChar : KernelM Leave := do
  let ch ← readRegister 4
  synchWrite [ch.setWidth 8] 1
  pure .brk

def scReadString : KernelM Leave := do
  let bufferAddress ← readRegister 4
  let maxlength ← readRegister 5
  let size := (maxlength + 1).toInt
  if size < 0 then abort
  else do
    let (buffer, bytesRead) ← synchRead (List.replicate size.toNat 0) maxlength.toInt
    let buffer ← putByte buffer bytesRead 0
    if bytesRead = 0 then do
      printf .readStringEmpty
      pure .brk
    else do
      let byteCopied ← system2User bufferAddress (bytesRead + 1) buffer
      if byteCopied ≤ 0 then printf .readStringFailed else pure ()
      pure .brk

def scPrintString : KernelM Leave := do
  let bufferAddress ← readRegister 4
  let buffer ← user2System bufferAddress maxBufferSize
  synchWrite buffer (strlen buffer + 1)
  pure .brk

/-! ## Processes -/

/-- `SC_Exec` after `ExecUpdate`; `fd` is the file opened for the test. -/
def execRest (fd : ℕ) (id : ℤ) : KernelM Leave := do
  writeRegister 2 (BitVec.ofInt 32 id)
  fileOp fun fs => (fs.host.close fd).map fun h => ((), fs.setHost h)
  pure .brk

def scExec : KernelM Leave := do
  let virtAddr ← readRegister 4
  let name ← user2System virtAddr (maxFileLength + 1)
  if strlen name = 0 ∨ maxFileLength < strlen name then fail .execName .ret
  else do
    let file ← look fun k => k.fileSystem.openFile (cstring name) 0
    match file with
    | none => fail (.execOpen (cstring name)) .ret
    | some (f, fs) => do
      change fun k => { k with fileSystem := fs }
      let id  ← wait (.execUpdate (cstring name))
      execRest f.file id

/-- `SC_Join` after `JoinUpdate`. -/
def joinRest (res : ℤ) : KernelM Leave :=
  if res < 0 then fail .joinError .brk
  else do
    writeRegister 2 (BitVec.ofInt 32 res)
    pure .brk

def scJoin : KernelM Leave := do
  let id ← readRegister 4
  let res  ← wait (.joinUpdate id.toInt)
  joinRest res

/-- `SC_Exit` after `ExitUpdate`, up to `FreeSpace` and `Finish`. -/
def exitRest (res : ℤ) : KernelM Leave := do
  writeRegister 2 (BitVec.ofInt 32 res)
  stop .finished

def scExit : KernelM Leave := do
  let exitState ← readRegister 4
  if exitState ≠ 0 then pure .brk
  else do
    let res  ← wait (.exitUpdate exitState.toInt)
    exitRest res

/-! ## Semaphores -/

/-- `STable::Create`. Neither `FindFreeSlot` nor the last branch has a `return`. -/
def stableCreate (name : Name) (init : ℤ) : KernelM ℤ := do
  let found ← look fun k => k.semTab.lookup name
  match found with
  | .undefined => undefined
  | .found _ _ => do
    printf .semNameExists
    pure (-1)
  | .missing => do
    change fun k => { k with semTab := { k.semTab with bm := k.semTab.bm.find.2 }
                             semLog := k.semLog ++ [.findFreeSlot] }
    let freeSpace  ← wait .arbitrary
    if freeSpace < 0 then do
      printf .semNoFreeSlot
      pure (-1)
    else if freeSpace < maxSemaphore then do
      let s : Sem := { name := name, sem := Semaphore.new init }
      change fun k => { k with semTab := k.semTab.setSem freeSpace.toNat s
                               semLog := k.semLog ++ [.create freeSpace.toNat s] }
      wait .arbitrary
    else undefined

/-- `STable::Wait`. -/
def stableWait (name : Name) : KernelM ℤ := do
  let found ← look fun k => k.semTab.lookup name
  match found with
  | .undefined => undefined
  | .missing => do
    printf .semMissing
    pure (-1)
  | .found i _ => do
    wait (.semP i)
    pure 0

/-- `STable::Signal`. -/
def stableSignal (name : Name) : KernelM ℤ := do
  let found ← look fun k => k.semTab.lookup name
  match found with
  | .undefined => undefined
  | .missing => do
    printf .semMissing
    pure (-1)
  | .found i s => do
    change fun k => { k with semTab := k.semTab.setSem i { s with sem := s.sem.V }
                             semLog := k.semLog ++ [.V i] }
    pure 0

/-- A handler that ends with the result of the semaphore table: an error leaves by `leave`. -/
def reportSem (m : Message) (leave : Leave) (res : ℤ) : KernelM Leave :=
  if res = -1 then fail m leave
  else do
    writeRegister 2 (BitVec.ofInt 32 res)
    pure .brk

def scCreateSemaphore : KernelM Leave := do
  let nameAddr ← readRegister 4
  let semval ← readRegister 5
  let name ← user2System nameAddr (maxFileLength + 1)
  let res ← stableCreate (cstring name) semval.toInt
  reportSem .createSemaphoreError .brk res

def scUp : KernelM Leave := do
  let nameAddr ← readRegister 4
  let name ← user2System nameAddr (maxFileLength + 1)
  let res ← stableSignal (cstring name)
  reportSem .upError .ret res

def scDown : KernelM Leave := do
  let nameAddr ← readRegister 4
  let name ← user2System nameAddr (maxFileLength + 1)
  let res ← stableWait (cstring name)
  reportSem .downError .brk res

/-! ## `ExceptionHandler` -/

/-- The system calls with a case in the switch. -/
inductive Syscall where
  | halt | exit | exec | join | create | openFile | read | write | close
  | readInt | printInt | readChar | printChar | readString | printString
  | createSemaphore | up | down | seek
  deriving DecidableEq, Repr

/-- The numbers of `syscall.h`. -/
def Syscall.number : Syscall → ℕ
  | .halt => 0
  | .exit => 1
  | .exec => 2
  | .join => 3
  | .create => 4
  | .openFile => 5
  | .read => 6
  | .write => 7
  | .close => 8
  | .readInt => 11
  | .printInt => 12
  | .readChar => 13
  | .printChar => 14
  | .readString => 15
  | .printString => 16
  | .createSemaphore => 17
  | .up => 18
  | .down => 19
  | .seek => 20

/-- The switch; `SC_Fork` and `SC_Yield` have no case. -/
def Syscall.ofNumber (type : Word) : Option Syscall :=
  match type.toNat with
  | 0 => some .halt
  | 1 => some .exit
  | 2 => some .exec
  | 3 => some .join
  | 4 => some .create
  | 5 => some .openFile
  | 6 => some .read
  | 7 => some .write
  | 8 => some .close
  | 11 => some .readInt
  | 12 => some .printInt
  | 13 => some .readChar
  | 14 => some .printChar
  | 15 => some .readString
  | 16 => some .printString
  | 17 => some .createSemaphore
  | 18 => some .up
  | 19 => some .down
  | 20 => some .seek
  | _ => none

def Syscall.handler : Syscall → KernelM Leave
  | .halt => scHalt
  | .exit => scExit
  | .exec => scExec
  | .join => scJoin
  | .create => scCreate
  | .openFile => scOpen
  | .read => scRead
  | .write => scWrite
  | .close => scClose
  | .readInt => scReadInt
  | .printInt => scPrintInt
  | .readChar => scReadChar
  | .printChar => scPrintChar
  | .readString => scReadString
  | .printString => scPrintString
  | .createSemaphore => scCreateSemaphore
  | .up => scUp
  | .down => scDown
  | .seek => scSeek

/-- The end of the case `SyscallException`. -/
def leaveSyscall : Leave → KernelM Unit
  | .brk => increatePC
  | .ret => pure ()

def exceptionHandler : ExceptionType → KernelM Unit
  | .noException => pure ()
  | .syscallException => do
    let type ← readRegister 2
    match Syscall.ofNumber type with
    | none => halt
    | some c => c.handler >>= leaveSyscall
  | which => do
    printf (.exception which)
    halt

end Nachos
