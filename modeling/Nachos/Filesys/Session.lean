import Nachos.Filesys.Format
import Nachos.Lib.Run

/-!
# Using the file system

A session is the file system with the variables of its clients, each of which may point to an
`OpenFile`. An event is a call with its result. With each open file the session keeps the name it
was opened under and whether that name has been removed since; the code does not look at either.
-/

namespace Nachos.Filesys

inductive Call where
  | create (name : Name) (initialSize : ℕ)
  | remove (name : Name)
  | openFile (name : Name) (p : ℕ)
  | openType (name : Name) (type : ℤ) (p : ℕ)
  | seek (p : ℕ) (position : ℤ)
  | read (p : ℕ) (numBytes : ℤ)
  | readAt (p : ℕ) (numBytes position : ℤ)
  | write (p : ℕ) (source : ℕ → Byte) (numBytes : ℤ)
  | writeAt (p : ℕ) (source : ℕ → Byte) (numBytes position : ℤ)
  /-- `delete` of the `OpenFile` -/
  | close (p : ℕ)
  /-- `openState[i] = NULL` -/
  | clearSlot (i : ℕ)

inductive Result where
  | void
  | bool (b : Bool)
  | count (n : ℤ)
  | bytes (data : List Byte)
  deriving DecidableEq

structure Handle where
  file : OpenFile
  key : Name
  removed : Bool

structure Session where
  fs : FileSystem
  handles : ℕ → Option Handle

namespace Session

def setHandle (s : Session) (p : ℕ) (h : Option Handle) : Session :=
  { s with handles := Function.update s.handles p h }

def setDisk (s : Session) (d : Disk) : Session := { s with fs := { s.fs with disk := d } }

/-- The new file as a value of a client's variable. -/
def handle (name : Name) (f : OpenFile) : Handle :=
  { file := f, key := fileKey name, removed := false }

/-- The file `name` has been removed. -/
def markRemoved (name : Name) (h : Handle) : Handle :=
  if h.key = fileKey name then { h with removed := true } else h

/-- A call, its result and the session after it; `none` is a failed `ASSERT`, an index outside of
its array or the use of a pointer that is `NULL`. -/
def perform (s : Session) (heap : Heap) : Call → Option (Result × Session)
  | .create name initialSize => do
    let (success, fs) ← s.fs.create heap name initialSize
    some (.bool success, { s with fs := fs })
  | .remove name => do
    let (success, fs) ← s.fs.remove heap name
    some (.bool success, { fs := fs, handles := fun p =>
      if success then (s.handles p).map (markRemoved name) else s.handles p })
  | .openFile name p => do
    let f ← s.fs.openFile heap name none
    some (.bool f.isSome, s.setHandle p (f.map (handle name)))
  | .openType name type p => do
    let (f, fs) ← s.fs.openType heap name type
    some (.bool f.isSome, { s with fs := fs }.setHandle p (f.map (handle name)))
  | .seek p position => do
    let h ← s.handles p
    some (.void, s.setHandle p (some { h with file := h.file.seek position }))
  | .read p numBytes => do
    let h ← s.handles p
    let (data, f) ← h.file.read s.fs.disk heap.bytes numBytes
    some (.bytes data, s.setHandle p (some { h with file := f }))
  | .readAt p numBytes position => do
    let h ← s.handles p
    let data ← Indexed.readAt h.file.hdr s.fs.disk heap.bytes numBytes position
    some (.bytes data, s)
  | .write p source numBytes => do
    let h ← s.handles p
    let (n, f, d) ← h.file.write s.fs.disk heap.bytes source numBytes
    some (.count n, (s.setDisk d).setHandle p (some { h with file := f }))
  | .writeAt p source numBytes position => do
    let h ← s.handles p
    let (n, d) ← Indexed.writeAt h.file.hdr s.fs.disk heap.bytes source numBytes position
    some (.count n, s.setDisk d)
  | .close p => do
    let _ ← s.handles p
    some (.void, s.setHandle p none)
  | .clearSlot i =>
    some (.void, { s with fs := { s.fs with openState := Function.update s.fs.openState i none } })

end Session

/-- A call, with the heap it finds and its result. -/
structure Event where
  call : Call
  heap : Heap
  result : Result

/-- The call returns the result of the event. -/
def Session.step (s : Session) (e : Event) : Option Session :=
  (s.perform e.heap e.call).bind fun x => if x.1 = e.result then some x.2 else none

/-- The pointer is to an open file whose name has not been removed since. -/
def Session.Live (s : Session) (p : ℕ) : Prop :=
  ∃ h, s.handles p = some h ∧ h.removed = false

/-- What the callers see to: sizes are at most `MaxFileSize`, open files are used until they are
removed, a `Seek` is to an offset, and there is a free slot before a file is opened into one. -/
def Session.Allowed (s : Session) : Call → Prop
  | .create _ initialSize => initialSize ≤ maxFileSize
  | .openType .. => s.fs.findFreeSlot ≠ none
  | .seek p position => s.Live p ∧ 0 ≤ position ∧ position < 2 ^ 31
  | .read p _ | .readAt p _ _ | .write p _ _ | .writeAt p _ _ _ => s.Live p
  | .close p => s.handles p ≠ none
  | .remove _ | .openFile .. | .clearSlot _ => True

/-- The arguments of a request are `int`s. -/
def Call.Ints : Call → Prop
  | .read _ numBytes | .write _ _ numBytes => numBytes < 2 ^ 31
  | .readAt _ numBytes position | .writeAt _ _ numBytes position =>
    numBytes < 2 ^ 31 ∧ -2 ^ 31 ≤ position
  | _ => True

/-- The request of a call, if it is one on an open file, does not overflow. -/
def Session.Fits (s : Session) : Call → Prop
  | .read p numBytes | .write p _ numBytes =>
    ∀ h, s.handles p = some h → h.file.hdr.Fits numBytes h.file.seekPosition
  | .readAt p numBytes position | .writeAt p _ numBytes position =>
    ∀ h, s.handles p = some h → h.file.hdr.Fits numBytes position
  | _ => True

/-- The file system on a disk that has just been formatted, with no file open. -/
def Session.Init (s : Session) : Prop :=
  (∃ heap d, FileSystem.new heap d true = some s.fs) ∧ s.handles = fun _ => none

end Nachos.Filesys
