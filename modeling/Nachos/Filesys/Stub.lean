import Mathlib.Data.List.Basic
import Nachos.Machine.Basic

/-!
# The stub file system, `filesys.h` and `openfile.h` with `FILESYS_STUB`

Nachos files are files of the host. `Host` is the part of it that `sysdep.cc` uses: names, the
contents behind them and open descriptors. A descriptor number is not used twice. `none` is a failed
`ASSERT` of `sysdep.cc`, which aborts the simulator.
-/

namespace Nachos

/-! ## The host -/

/-- An open descriptor: the file and the position in it. -/
structure Descriptor where
  inode : ℕ
  offset : ℕ
  deriving DecidableEq, Repr

structure Host where
  names : Name → Option ℕ
  contents : ℕ → List Byte
  nextInode : ℕ
  fds : ℕ → Option Descriptor
  nextFd : ℕ
  /-- Names the host does not open, for lack of permission or of a directory. -/
  refuses : Name → Bool

namespace Host

/-- A host without files. -/
def empty : Host where
  names := fun _ => none
  contents := fun _ => []
  nextInode := 0
  fds := fun _ => none
  nextFd := 0
  refuses := fun _ => false

def setFd (h : Host) (fd : ℕ) (d : Option Descriptor) : Host :=
  { h with fds := Function.update h.fds fd d }

def newFd (h : Host) (inode : ℕ) : ℕ × Host :=
  (h.nextFd, { h.setFd h.nextFd (some { inode := inode, offset := 0 }) with
    nextFd := h.nextFd + 1 })

/-- `OpenForWrite`: the file is created, or truncated if it exists. -/
def openForWrite (h : Host) (name : Name) : Option (ℕ × Host) :=
  if h.refuses name then none
  else
    match h.names name with
    | some i => some ({ h with contents := Function.update h.contents i [] }.newFd i)
    | none =>
      some ({ h with
        names := Function.update h.names name (some h.nextInode)
        contents := Function.update h.contents h.nextInode []
        nextInode := h.nextInode + 1 }.newFd h.nextInode)

/-- `OpenForReadWrite(name, FALSE)`; `none` is the descriptor -1. -/
def openForReadWrite (h : Host) (name : Name) : Option (ℕ × Host) :=
  if h.refuses name then none else (h.names name).map h.newFd

/-- `Lseek(fd, offset, 0)`. -/
def lseek (h : Host) (fd : ℕ) (offset : ℤ) : Option Host :=
  match h.fds fd with
  | none => none
  | some d => if offset < 0 then none else some (h.setFd fd (some { d with offset := offset.toNat }))

/-- `Lseek(fd, 0, 2)`. -/
def lseekEnd (h : Host) (fd : ℕ) : Option Host :=
  match h.fds fd with
  | none => none
  | some d => some (h.setFd fd (some { d with offset := (h.contents d.inode).length }))

/-- `Tell`. -/
def tell (h : Host) (fd : ℕ) : ℤ :=
  match h.fds fd with
  | none => -1
  | some d => d.offset

/-- `ReadPartial`: the bytes read. -/
def readPartial (h : Host) (fd : ℕ) (nBytes : ℕ) : List Byte × Host :=
  match h.fds fd with
  | none => ([], h)
  | some d =>
    let bytes := ((h.contents d.inode).drop d.offset).take nBytes
    (bytes, h.setFd fd (some { d with offset := d.offset + bytes.length }))

/-- A file after `bytes` are written at `offset`; a gap before them is filled with zeros. -/
def overwrite (file : List Byte) (offset : ℕ) (bytes : List Byte) : List Byte :=
  if bytes = [] then file
  else (file ++ List.replicate (offset - file.length) 0).take offset ++ bytes ++
    file.drop (offset + bytes.length)

/-- `WriteFile`. -/
def writeFile (h : Host) (fd : ℕ) (bytes : List Byte) : Option Host :=
  match h.fds fd with
  | none => none
  | some d =>
    let file := overwrite (h.contents d.inode) d.offset bytes
    some ({ h with contents := Function.update h.contents d.inode file }.setFd fd
      (some { d with offset := d.offset + bytes.length }))

/-- `Close`. -/
def close (h : Host) (fd : ℕ) : Option Host :=
  match h.fds fd with
  | none => none
  | some _ => some (h.setFd fd none)

end Host

/-! ## `OpenFile` -/

structure OpenFile where
  type : ℤ
  file : ℕ
  currentOffset : ℤ
  deriving DecidableEq, Repr

namespace OpenFile

def seek (f : OpenFile) (h : Host) (pos : ℤ) : Option (OpenFile × Host) := do
  let h ← h.lseek f.file pos
  pure ({ f with currentOffset := h.tell f.file }, h)

def readAt (f : OpenFile) (h : Host) (numBytes : ℕ) (position : ℤ) :
    Option (List Byte × Host) := do
  let h ← h.lseek f.file position
  pure (h.readPartial f.file numBytes)

def writeAt (f : OpenFile) (h : Host) (from_ : List Byte) (position : ℤ) : Option Host := do
  let h ← h.lseek f.file position
  h.writeFile f.file from_

/-- `Read`: the bytes read, whose number it returns. -/
def read (f : OpenFile) (h : Host) (numBytes : ℕ) : Option (List Byte × OpenFile × Host) := do
  let (bytes, h) ← f.readAt h numBytes f.currentOffset
  pure (bytes, { f with currentOffset := f.currentOffset + bytes.length }, h)

/-- `Write`: returns the number of bytes. -/
def write (f : OpenFile) (h : Host) (from_ : List Byte) : Option (ℤ × OpenFile × Host) := do
  let h ← f.writeAt h from_ f.currentOffset
  pure (from_.length, { f with currentOffset := f.currentOffset + from_.length }, h)

def length (f : OpenFile) (h : Host) : Option (ℤ × Host) := do
  let h ← h.lseekEnd f.file
  let len := h.tell f.file
  let h ← h.lseek f.file f.currentOffset
  pure (len, h)

def getCurrentPos (f : OpenFile) (h : Host) : ℤ × OpenFile :=
  (h.tell f.file, { f with currentOffset := h.tell f.file })

end OpenFile

/-! ## `FileSystem` -/

/-- `openState` has the indices 0 to 9. -/
structure FileSystem where
  openState : ℕ → Option OpenFile
  host : Host

namespace FileSystem

/-- `Create`, with the file descriptor closed again. -/
def create (fs : FileSystem) (name : Name) : Option FileSystem := do
  let (fd, h) ← fs.host.openForWrite name
  let h ← h.close fd
  pure { fs with host := h }

/-- `Open(name, type)`; the version without a type uses 0. -/
def openFile (fs : FileSystem) (name : Name) (type : ℤ) : Option (OpenFile × FileSystem) :=
  (fs.host.openForReadWrite name).map fun (fd, h) =>
    ({ type := type, file := fd, currentOffset := 0 }, { fs with host := h })

/-- `FindFreeSlot`; `none` is -1. -/
def findFreeSlot (fs : FileSystem) : Option ℕ :=
  [2, 3, 4, 5, 6, 7, 8, 9].find? fun i => (fs.openState i).isNone

/-- `FileSystem(format)`: the consoles are files of the host as well. -/
def new (h : Host) : Option FileSystem := do
  let stdin := "stdin".toList.map fun c => BitVec.ofNat 8 c.toNat
  let stdout := "stdout".toList.map fun c => BitVec.ofNat 8 c.toNat
  let fs ← FileSystem.create { openState := fun _ => none, host := h } stdin
  let fs ← fs.create stdout
  let (f₀, fs) ← fs.openFile stdin 2
  let (f₁, fs) ← fs.openFile stdout 3
  pure { fs with openState := fun i => if i = 0 then some f₀ else if i = 1 then some f₁ else none }

def setSlot (fs : FileSystem) (i : ℕ) (f : Option OpenFile) : FileSystem :=
  { fs with openState := Function.update fs.openState i f }

def setHost (fs : FileSystem) (h : Host) : FileSystem := { fs with host := h }

end FileSystem

/-! ## What the operations do -/

namespace Host

variable {h h' : Host} {fd : ℕ}

@[simp] theorem setFd_contents (d : Option Descriptor) : (h.setFd fd d).contents = h.contents := rfl
@[simp] theorem setFd_names (d : Option Descriptor) : (h.setFd fd d).names = h.names := rfl
@[simp] theorem setFd_self (d : Option Descriptor) : (h.setFd fd d).fds fd = d := by
  simp [setFd]

theorem tell_of_some {d : Descriptor} (hd : h.fds fd = some d) : h.tell fd = d.offset := by
  unfold tell
  rw [hd]

theorem lseek_eq_some {pos : ℤ} (hl : h.lseek fd pos = some h') :
    ∃ d, h.fds fd = some d ∧ 0 ≤ pos ∧ h' = h.setFd fd (some { d with offset := pos.toNat }) := by
  unfold lseek at hl
  rcases hd : h.fds fd with _ | d
  · rw [hd] at hl; cases hl
  · rw [hd] at hl
    dsimp only at hl
    split_ifs at hl with hpos
    rw [Option.some.injEq] at hl
    exact ⟨d, rfl, not_lt.mp hpos, hl.symm⟩

theorem close_eq_some (hc : h.close fd = some h') : h' = h.setFd fd none := by
  unfold close at hc
  split at hc
  · cases hc
  · rw [Option.some.injEq] at hc
    exact hc.symm

theorem take_overwrite (file : List Byte) (offset : ℕ) (b : List Byte) :
    ((overwrite file offset b).drop offset).take b.length = b := by
  unfold overwrite
  split_ifs with hb
  · rw [hb]
    rfl
  · have hlen :
        ((file ++ List.replicate (offset - file.length) 0).take offset).length = offset := by
      rw [List.length_take, List.length_append, List.length_replicate]
      omega
    rw [List.append_assoc, List.drop_left' hlen, List.take_left]

theorem lseek_natCast {d : Descriptor} (hd : h.fds fd = some d) (position : ℕ) :
    h.lseek fd position = some (h.setFd fd (some { d with offset := position })) := by
  unfold lseek
  rw [hd]
  exact if_neg (by omega)

end Host

namespace OpenFile

variable {f f' : OpenFile} {h h' : Host}

/-- What is written is read back. -/
theorem readAt_writeAt {d : Descriptor} (hd : h.fds f.file = some d) (bytes : List Byte)
    (position : ℕ) :
    ∃ h' h'', f.writeAt h bytes position = some h' ∧
      f.readAt h' bytes.length position = some (bytes, h'') := by
  let h₁ := h.setFd f.file (some { d with offset := position })
  let file := Host.overwrite (h.contents d.inode) position bytes
  let h₂ := { h₁ with contents := Function.update h₁.contents d.inode file }.setFd f.file
    (some { d with offset := position + bytes.length })
  have hwrite : f.writeAt h bytes position = some h₂ := by
    unfold writeAt
    rw [Host.lseek_natCast hd]
    show h₁.writeFile f.file bytes = _
    unfold Host.writeFile
    rw [Host.setFd_self]
    rfl
  have hfile : h₂.contents d.inode = file := Function.update_self _ _ _
  let h₃ := h₂.setFd f.file (some { d with offset := position })
  have hread : f.readAt h₂ bytes.length position = some (h₃.readPartial f.file bytes.length) := by
    unfold readAt
    rw [Host.lseek_natCast (Host.setFd_self _)]
    rfl
  have hbytes : (h₃.readPartial f.file bytes.length).1 = bytes := by
    unfold Host.readPartial
    rw [Host.setFd_self]
    dsimp only
    rw [Host.setFd_contents, hfile, Host.take_overwrite]
  exact ⟨h₂, _, hwrite, hread.trans (congrArg some (Prod.ext hbytes rfl))⟩

/-- A seek to the position the file has already. -/
theorem lseek_currentOffset (ho : f.currentOffset = h.tell f.file)
    (hl : h.lseek f.file f.currentOffset = some h') :
    ∃ d, h.fds f.file = some d ∧ h' = h.setFd f.file (some d) := by
  obtain ⟨d, hd, _, rfl⟩ := Host.lseek_eq_some hl
  refine ⟨d, hd, ?_⟩
  rw [ho, Host.tell_of_some hd, Int.toNat_natCast]

theorem read_spec {n : ℕ} {bytes : List Byte} (ho : f.currentOffset = h.tell f.file)
    (hr : f.read h n = some (bytes, f', h')) :
    ∃ d, h.fds f.file = some d ∧ bytes.length ≤ n ∧ f'.file = f.file ∧
      h'.fds f.file = some { d with offset := d.offset + bytes.length } := by
  simp only [read, readAt, Option.bind_eq_bind, Option.bind_eq_some_iff, Option.pure_def,
    Option.some.injEq] at hr
  obtain ⟨_, ⟨h₁, hl, rfl⟩, hr⟩ := hr
  obtain ⟨d, hd, rfl⟩ := lseek_currentOffset ho hl
  simp only [Host.readPartial, Host.setFd_self, Host.setFd_contents, Prod.mk.injEq] at hr
  obtain ⟨rfl, rfl, rfl⟩ := hr
  refine ⟨d, hd, ?_, rfl, Host.setFd_self _⟩
  rw [List.length_take]
  exact Nat.min_le_left _ _

theorem write_spec {bytes : List Byte} {n : ℤ} (ho : f.currentOffset = h.tell f.file)
    (hw : f.write h bytes = some (n, f', h')) :
    ∃ d, h.fds f.file = some d ∧ n = bytes.length ∧ f'.file = f.file ∧
      h'.fds f.file = some { d with offset := d.offset + bytes.length } ∧
      h'.contents d.inode = Host.overwrite (h.contents d.inode) d.offset bytes := by
  simp only [write, writeAt, Option.bind_eq_bind, Option.bind_eq_some_iff, Option.pure_def,
    Option.some.injEq] at hw
  obtain ⟨h₂, ⟨h₁, hl, hw⟩, hr⟩ := hw
  obtain ⟨d, hd, rfl⟩ := lseek_currentOffset ho hl
  simp only [Host.writeFile, Host.setFd_self, Option.some.injEq] at hw
  simp only [Prod.mk.injEq] at hr
  obtain ⟨rfl, rfl, rfl⟩ := hr
  subst hw
  refine ⟨d, hd, rfl, rfl, Host.setFd_self _, ?_⟩
  simp

theorem length_spec {len : ℤ} (hl : f.length h = some (len, h')) :
    ∃ d, h.fds f.file = some d ∧ len = (h.contents d.inode).length ∧
      h'.contents = h.contents ∧ ∃ o, h'.fds f.file = some { d with offset := o } := by
  simp only [length, Option.bind_eq_bind, Option.bind_eq_some_iff, Option.pure_def,
    Option.some.injEq, Prod.mk.injEq] at hl
  obtain ⟨h₁, he, h₂, hs, rfl, rfl⟩ := hl
  unfold Host.lseekEnd at he
  rcases hd : h.fds f.file with _ | d
  · rw [hd] at he; cases he
  · rw [hd] at he
    simp only [Option.some.injEq] at he
    subst he
    obtain ⟨d', hd', _, rfl⟩ := Host.lseek_eq_some hs
    rw [Host.setFd_self, Option.some.injEq] at hd'
    subst hd'
    refine ⟨d, rfl, ?_, rfl, _, Host.setFd_self _⟩
    rw [Host.tell_of_some (Host.setFd_self _)]

theorem seek_spec {pos : ℤ} (hs : f.seek h pos = some (f', h')) :
    ∃ d, h.fds f.file = some d ∧ 0 ≤ pos ∧ f'.file = f.file ∧ h'.contents = h.contents ∧
      h'.fds f.file = some { d with offset := pos.toNat } := by
  simp only [seek, Option.bind_eq_bind, Option.bind_eq_some_iff, Option.pure_def,
    Option.some.injEq, Prod.mk.injEq] at hs
  obtain ⟨h₁, hl, rfl, rfl⟩ := hs
  obtain ⟨d, hd, hpos, rfl⟩ := Host.lseek_eq_some hl
  exact ⟨d, hd, hpos, rfl, rfl, Host.setFd_self _⟩

end OpenFile

namespace FileSystem

variable {fs fs' : FileSystem} {name : Name}

/-- A file that was created is there and empty. -/
theorem create_spec (h : fs.create name = some fs') :
    ∃ i, fs'.host.names name = some i ∧ fs'.host.contents i = [] := by
  simp only [create, Option.bind_eq_bind, Option.bind_eq_some_iff, Option.pure_def,
    Option.some.injEq] at h
  obtain ⟨⟨fd, h₁⟩, ho, h₂, hc, rfl⟩ := h
  obtain rfl := Host.close_eq_some hc
  unfold Host.openForWrite at ho
  split_ifs at ho
  rcases hn : fs.host.names name with _ | i
  · rw [hn] at ho
    simp only [Host.newFd, Option.some.injEq, Prod.mk.injEq] at ho
    obtain ⟨rfl, rfl⟩ := ho
    exact ⟨fs.host.nextInode, by simp [Host.setFd], by simp [Host.setFd]⟩
  · rw [hn] at ho
    simp only [Host.newFd, Option.some.injEq, Prod.mk.injEq] at ho
    obtain ⟨rfl, rfl⟩ := ho
    exact ⟨i, by simp [Host.setFd, hn], by simp [Host.setFd]⟩

theorem openFile_spec {type : ℤ} {f : OpenFile} (h : fs.openFile name type = some (f, fs')) :
    f.type = type ∧ fs'.openState = fs.openState ∧
      ∃ i, fs'.host.fds f.file = some { inode := i, offset := 0 } ∧
        fs'.host.names name = some i := by
  simp only [openFile, Option.map_eq_some_iff, Prod.mk.injEq] at h
  obtain ⟨⟨fd, h₁⟩, ho, rfl, rfl⟩ := h
  unfold Host.openForReadWrite at ho
  split_ifs at ho
  simp only [Option.map_eq_some_iff, Host.newFd, Prod.mk.injEq] at ho
  obtain ⟨i, hn, rfl, rfl⟩ := ho
  exact ⟨rfl, rfl, i, by simp [Host.setFd], by simpa [Host.setFd] using hn⟩

theorem findFreeSlot_spec {i : ℕ} (h : fs.findFreeSlot = some i) : fs.openState i = none := by
  have := List.find?_some h
  simpa using this

end FileSystem

end Nachos
