import Nachos.Machine.Basic

/-!
# The water-tap programs, `main.c`, `sinhvien.c` and `voinuoc.c`

A program is a machine of its own between two system calls: `call` is the call that it makes next and
`resume` what it does with the reply, up to the next call. A point is the place of a call in the
source. The three programs know each other by the semaphores of their names.

`return` in `main` is `Exit(0)`, by `start.s`.
-/

namespace Nachos.Test

/-- A program, and the semaphore of its name. -/
inductive Program where
  | main
  | sinhvien
  | voinuoc
  deriving DecidableEq, Repr

/-- The files, with the suffix `.txt`. -/
inductive DataFile where
  | input
  | output
  | sinhvien
  | voinuoc
  deriving DecidableEq, Repr

inductive UserCall where
  | createSemaphore (s : Program) (semval : ℤ)
  | up (s : Program)
  | down (s : Program)
  | create (f : DataFile)
  | openFile (f : DataFile) (type : ℤ)
  | close (id : ℤ)
  /-- `Read(&ch, 1, id)`. -/
  | read (id : ℤ)
  | write (bytes : List Byte) (id : ℤ)
  | seek (pos id : ℤ)
  | exec (p : Program)
  | printString (text : String)
  | halt
  | exit
  deriving DecidableEq, Repr

/-- What comes back from a call: the value, and the byte that `Read` put into `ch`. -/
structure Reply where
  value : ℤ
  ch : Option Byte
  deriving DecidableEq, Repr

/-- `n * 10 + (ch - 48)` on an `int` and a `char`. -/
def addDigit (n : Word) (ch : Byte) : Word := n * 10 + (ch.signExtend 32 - 48)

/-! ## `main.c` -/

inductive MainPoint where
  | createMain
  | createSinhvien
  | createVoinuoc
  | openInput
  | createOutput
  | readN
  | execSinhvien
  | execVoinuoc
  | createFile
  | openFile
  | readLine
  | writeLine
  | closeFile
  | upSinhvien
  | downMain
  | closeInput
  | printSuccess
  | halt
  /-- An error message, and whether `Close(f_input)` follows. -/
  | printError (text : String) (closes : Bool)
  | closeError
  | exit
  deriving DecidableEq, Repr

structure Main where
  point : MainPoint
  fInput : ℤ
  fSinhvien : ℤ
  check : ℤ
  N : Word
  ch : Byte
  deriving DecidableEq, Repr

namespace Main

def start : Main where
  point := .createMain
  fInput := 0
  fSinhvien := 0
  check := 0
  N := 0
  ch := 0x30

def call (m : Main) : UserCall :=
  match m.point with
  | .createMain => .createSemaphore .main 0
  | .createSinhvien => .createSemaphore .sinhvien 0
  | .createVoinuoc => .createSemaphore .voinuoc 0
  | .openInput => .openFile .input 1
  | .createOutput => .create .output
  | .readN => .read m.fInput
  | .execSinhvien => .exec .sinhvien
  | .execVoinuoc => .exec .voinuoc
  | .createFile => .create .sinhvien
  | .openFile => .openFile .sinhvien 0
  | .readLine => .read m.fInput
  | .writeLine => .write [m.ch] m.fSinhvien
  | .closeFile => .close m.fSinhvien
  | .upSinhvien => .up .sinhvien
  | .downMain => .down .main
  | .closeInput => .close m.fInput
  | .printSuccess => .printString "\nSUCCESS - OPEN FILE OUTPUT TO SEE THE FINAL OUTPUT!!!"
  | .halt => .halt
  | .printError text _ => .printString text
  | .closeError => .close m.fInput
  | .exit => .exit

/-- `while (N--)`. -/
def loop (m : Main) : Main :=
  { m with N := m.N - 1, point := if m.N = 0 then .closeInput else .createFile }

def resume (m : Main) (r : Reply) : Main :=
  match m.point with
  | .createMain => { m with check := r.value, point := if r.value = -1 then .exit else .createSinhvien }
  | .createSinhvien =>
    { m with check := r.value, point := if r.value = -1 then .exit else .createVoinuoc }
  -- `check == CreateSemaphore(..)` compares, and the old value is tested again
  | .createVoinuoc => { m with point := if m.check = -1 then .exit else .openInput }
  | .openInput =>
    { m with fInput := r.value
             point := if r.value = -1 then .printError "\nLoi mo file de doc input\n" false
               else .createOutput }
  | .createOutput =>
    { m with check := r.value
             point := if r.value = -1 then .printError "\nLoi tao file de ghi ket qua\n" false
               else .readN }
  | .readN =>
    let ch := r.ch.getD m.ch
    if ch = 0x0A#8 then { m with ch := ch, point := .execSinhvien }
    else if 0x30#8 ≤ ch ∧ ch ≤ 0x39#8 then { m with ch := ch, N := addDigit m.N ch }
    else { m with ch := ch }
  | .execSinhvien =>
    { m with check := r.value
             point := if r.value = -1 then .printError "\nFailed to exec sinhvien" true
               else .execVoinuoc }
  | .execVoinuoc =>
    if r.value = -1 then
      { m with check := r.value, point := .printError "\nFailed to exec voinuoc" true }
    else { m with check := r.value }.loop
  | .createFile =>
    { m with check := r.value
             point := if r.value = -1 then
                 .printError "\nLoi tao file de ghi du lieu(sinh vien)." true
               else .openFile }
  | .openFile =>
    { m with fSinhvien := r.value
             point := if r.value = -1 then
                 .printError "Loi mo file de ghi du lieu(sinh vien)." true
               else .readLine }
  | .readLine =>
    let ch := r.ch.getD m.ch
    { m with ch := ch
             point := if r.value < 1 ∨ ch = 0x0A#8 then .closeFile else .writeLine }
  | .writeLine => { m with point := .readLine }
  | .closeFile => { m with point := .upSinhvien }
  | .upSinhvien => { m with point := .downMain }
  | .downMain => m.loop
  | .closeInput => { m with point := .printSuccess }
  | .printSuccess => { m with point := .halt }
  | .halt => { m with point := .exit }
  | .printError _ closes => { m with point := if closes then .closeError else .exit }
  | .closeError => { m with point := .exit }
  | .exit => m

end Main

/-! ## `sinhvien.c` -/

inductive SinhvienPoint where
  | downStart
  | openSinhvien
  | seekEnd
  | seekStart
  | createVoinuoc
  | openVoinuoc
  | readCh
  | writeVoinuoc
  | openOutput
  | seekOutput
  | writeOutput
  | closeOutput
  | writeStar
  | closeVoinuoc
  | upVoinuoc
  | downAgain
  | createAgain
  | openAgain
  | upMain
  /-- `Close(f_sinhvien); Up("main"); return` after an error. -/
  | closeError
  | upError
  | exit
  deriving DecidableEq, Repr

structure Sinhvien where
  point : SinhvienPoint
  fSinhvien : ℤ
  fVoinuoc : ℤ
  fOutput : ℤ
  check : ℤ
  ch : Byte
  size : ℤ
  fPointer : ℤ
  VN_FLAG : ℤ
  deriving DecidableEq, Repr

namespace Sinhvien

def start : Sinhvien where
  point := .downStart
  fSinhvien := 0
  fVoinuoc := 0
  fOutput := 0
  check := 0
  ch := 0
  size := 0
  fPointer := 0
  VN_FLAG := 0

def call (v : Sinhvien) : UserCall :=
  match v.point with
  | .downStart => .down .sinhvien
  | .openSinhvien => .openFile .sinhvien 1
  | .seekEnd => .seek (-1) v.fSinhvien
  | .seekStart => .seek 0 v.fSinhvien
  | .createVoinuoc => .create .voinuoc
  | .openVoinuoc => .openFile .voinuoc 0
  | .readCh => .read v.fSinhvien
  | .writeVoinuoc => .write [v.ch] v.fVoinuoc
  | .openOutput => .openFile .output 0
  | .seekOutput => .seek (-1) v.fOutput
  | .writeOutput => .write [v.ch] v.fOutput
  | .closeOutput => .close v.fOutput
  | .writeStar => .write [0x2A#8] v.fVoinuoc
  | .closeVoinuoc => .close v.fVoinuoc
  | .upVoinuoc => .up .voinuoc
  | .downAgain => .down .sinhvien
  | .createAgain => .create .voinuoc
  | .openAgain => .openFile .voinuoc 0
  | .upMain => .up .main
  | .closeError => .close v.fSinhvien
  | .upError => .up .main
  | .exit => .exit

/-- `while (fPointer < size)`. -/
def loop (v : Sinhvien) : Sinhvien :=
  if v.fPointer < v.size then { v with VN_FLAG := 0, point := .readCh } else { v with point := .upMain }

/-- `if (VN_FLAG == 1)`, and the end of the loop's body. -/
def afterStar (v : Sinhvien) : Sinhvien :=
  if v.VN_FLAG = 1 then { v with point := .closeVoinuoc }
  else { v with fPointer := v.fPointer + 1 }.loop

/-- `if (fPointer == size - 1)`. -/
def afterCh (v : Sinhvien) : Sinhvien :=
  if v.fPointer = v.size - 1 then { v with VN_FLAG := 1, point := .writeStar } else v.afterStar

def resume (v : Sinhvien) (r : Reply) : Sinhvien :=
  match v.point with
  | .downStart => { v with point := .openSinhvien }
  | .openSinhvien =>
    { v with fSinhvien := r.value, point := if r.value = -1 then .upError else .seekEnd }
  | .seekEnd => { v with size := r.value, point := .seekStart }
  | .seekStart => { v with fPointer := 0, point := .createVoinuoc }
  | .createVoinuoc =>
    { v with check := r.value, point := if r.value = -1 then .closeError else .openVoinuoc }
  | .openVoinuoc =>
    if r.value = -1 then { v with fVoinuoc := r.value, point := .closeError }
    else { v with fVoinuoc := r.value }.loop
  | .readCh =>
    let ch := r.ch.getD v.ch
    if ch = 0x20#8 then { v with ch := ch, VN_FLAG := 1 }.afterCh
    else { v with ch := ch, point := .writeVoinuoc }
  | .writeVoinuoc => { v with point := .openOutput }
  | .openOutput =>
    { v with fOutput := r.value, point := if r.value = -1 then .closeError else .seekOutput }
  | .seekOutput => { v with point := .writeOutput }
  | .writeOutput => { v with point := .closeOutput }
  | .closeOutput => v.afterCh
  | .writeStar => v.afterStar
  | .closeVoinuoc => { v with point := .upVoinuoc }
  | .upVoinuoc => { v with point := .downAgain }
  | .downAgain => { v with point := .createAgain }
  | .createAgain => { v with point := if r.value = -1 then .closeError else .openAgain }
  | .openAgain =>
    if r.value = -1 then { v with fVoinuoc := r.value, point := .closeError }
    else { v with fVoinuoc := r.value, fPointer := v.fPointer + 1 }.loop
  | .upMain => { v with size := 0, point := .downStart }
  | .closeError => { v with point := .upError }
  | .upError => { v with point := .exit }
  | .exit => v

end Sinhvien

/-! ## `voinuoc.c` -/

inductive VoinuocPoint where
  | down
  | openVoinuoc
  | readCh
  /-- `Close(f_voinuoc)` at the end of the file, or after the `*`. -/
  | closeVoinuoc
  | openOutput
  | seekOutput
  /-- `Write("_1", 2, f_output)` or `Write("_2", 2, f_output)`. -/
  | writeTap (tap : Byte)
  | writeEnd
  | writeBlanks
  | closeOutput
  | upSinhvien
  /-- `Close(f_voinuoc); Up("sinhvien"); return` after an error. -/
  | closeError
  | upError
  | exit
  deriving DecidableEq, Repr

structure Voinuoc where
  point : VoinuocPoint
  fVoinuoc : ℤ
  fOutput : ℤ
  ch : Byte
  v1 : Word
  v2 : Word
  l : Word
  done : ℤ
  deriving DecidableEq, Repr

namespace Voinuoc

def start : Voinuoc where
  point := .down
  fVoinuoc := 0
  fOutput := 0
  ch := 0x30
  v1 := 0
  v2 := 0
  l := 0
  done := 0

def call (v : Voinuoc) : UserCall :=
  match v.point with
  | .down => .down .voinuoc
  | .openVoinuoc => .openFile .voinuoc 1
  | .readCh => .read v.fVoinuoc
  | .closeVoinuoc => .close v.fVoinuoc
  | .openOutput => .openFile .output 0
  | .seekOutput => .seek (-1) v.fOutput
  | .writeTap tap => .write [0x5F#8, tap] v.fOutput
  | .writeEnd => .write [0x0D#8, 0x0A#8] v.fOutput
  | .writeBlanks => .write [0x20#8, 0x20#8, 0x20#8] v.fOutput
  | .closeOutput => .close v.fOutput
  | .upSinhvien => .up .sinhvien
  | .closeError => .close v.fVoinuoc
  | .upError => .up .sinhvien
  | .exit => .exit

/-- `if (done == 1)`. -/
def afterTap (v : Voinuoc) : Voinuoc :=
  if v.done = 1 then { v with v1 := 0, v2 := 0, point := .writeEnd } else { v with point := .writeBlanks }

/-- `if (l != 0)`. -/
def pour (v : Voinuoc) : Voinuoc :=
  if v.l = 0 then v.afterTap
  else if v.v1.toInt ≤ v.v2.toInt then { v with v1 := v.v1 + v.l, point := .writeTap 0x31#8 }
  else { v with v2 := v.v2 + v.l, point := .writeTap 0x32#8 }

def resume (v : Voinuoc) (r : Reply) : Voinuoc :=
  match v.point with
  | .down => { v with ch := 0, point := .openVoinuoc }
  | .openVoinuoc =>
    { v with fVoinuoc := r.value, done := if r.value = -1 then v.done else 0
             l := if r.value = -1 then v.l else 0
             point := if r.value = -1 then .upError else .readCh }
  | .readCh =>
    let ch := r.ch.getD v.ch
    if r.value = -2 then { v with ch := ch, point := .closeVoinuoc }
    else if ch = 0x2A#8 then { v with ch := ch, done := 1, point := .closeVoinuoc }
    else { v with ch := ch, l := addDigit v.l ch }
  | .closeVoinuoc => { v with point := .openOutput }
  | .openOutput =>
    { v with fOutput := r.value, point := if r.value = -1 then .closeError else .seekOutput }
  | .seekOutput => v.pour
  | .writeTap _ => v.afterTap
  | .writeEnd => { v with point := .closeOutput }
  | .writeBlanks => { v with point := .closeOutput }
  | .closeOutput => { v with point := .upSinhvien }
  | .upSinhvien => { v with point := .down }
  | .closeError => { v with point := .upError }
  | .upError => { v with point := .exit }
  | .exit => v

end Voinuoc

/-! ## A program that runs -/

/-- The state of a program. -/
inductive Local where
  | main (m : Main)
  | sinhvien (v : Sinhvien)
  | voinuoc (v : Voinuoc)
  deriving DecidableEq, Repr

namespace Local

def program : Local → Program
  | .main _ => .main
  | .sinhvien _ => .sinhvien
  | .voinuoc _ => .voinuoc

def start : Program → Local
  | .main => .main .start
  | .sinhvien => .sinhvien .start
  | .voinuoc => .voinuoc .start

def call : Local → UserCall
  | .main m => m.call
  | .sinhvien v => v.call
  | .voinuoc v => v.call

def resume (r : Reply) : Local → Local
  | .main m => .main (m.resume r)
  | .sinhvien v => .sinhvien (v.resume r)
  | .voinuoc v => .voinuoc (v.resume r)

end Local

end Nachos.Test
