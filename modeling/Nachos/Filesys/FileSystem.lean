import Nachos.Filesys.Directory
import Nachos.Filesys.OpenFile

/-!
# The file system, `filesys.cc`

The FILESYS build. The bitmap of free sectors and the directory are files themselves, which are left
open while Nachos runs. Every operation fetches them, changes its copies, and writes the copies
back. `none` is a failed `ASSERT`. Memory comes off the heap with any contents (`Heap`).
-/

namespace Nachos

/-- `FreeMapSector` -/
abbrev freeMapSector : ℕ := 0

/-- `DirectorySector` -/
abbrev directorySector : ℕ := 1

/-- `FreeMapFileSize` -/
abbrev freeMapFileSize : ℕ := numSectors / 8

/-- `DirectoryFileSize` -/
abbrev directoryFileSize : ℕ := directoryEntrySize * numDirEntries

open Buffer

namespace Filesys

/-- What the new objects of an operation hold before they are written. -/
structure Heap where
  bytes : ℕ → Byte
  words : ℕ → Word
  entries : ℕ → DirectoryEntry
  hdr : FileHeader

/-- Memory full of zeros. -/
def Heap.zero : Heap where
  bytes := fun _ => 0
  words := fun _ => 0
  entries := fun _ => ⟨false, 0, fun _ => 0⟩
  hdr := ⟨0, 0, fun _ => 0⟩

end Filesys

open Filesys

/-! ## The bitmap and the directory as files -/

namespace BitMap

/-- `numWords` -/
def numWords (b : BitMap) : ℕ := divRoundUp b.numBits bitsInWord

/-- The bitmap of the sectors in an array of bytes. -/
def ofBytes (bytes : ℕ → Byte) : BitMap where
  numBits := numSectors
  map := fun i => wordAt bytes (4 * i)

/-- `BitMap::FetchFrom` -/
def fetchFrom (b : BitMap) (file : Filesys.OpenFile) (d : Disk) (junk : ℕ → Byte) : Option BitMap :=
  (Indexed.readAt file.hdr d junk (b.numWords * 4 : ℕ) 0).map fun bytes =>
    { b with
      map := fun i => wordAt (splice (bytesOf b.map) 0 bytes.length fun k => bytes.getD k 0) (4 * i) }

/-- `BitMap::WriteBack` -/
def writeBack (b : BitMap) (file : Filesys.OpenFile) (d : Disk) (junk : ℕ → Byte) : Option Disk :=
  (Indexed.writeAt file.hdr d junk (bytesOf b.map) (b.numWords * 4 : ℕ) 0).map Prod.snd

end BitMap

namespace Directory

/-- `Directory::Directory` -/
def new (entries : ℕ → DirectoryEntry) : Directory := fun i => { entries i with inUse := false }

/-- `Directory::FetchFrom` -/
def fetchFrom (t : Directory) (file : Filesys.OpenFile) (d : Disk) (junk : ℕ → Byte) :
    Option Directory :=
  (Indexed.readAt file.hdr d junk directoryFileSize 0).map fun bytes =>
    ofBytes (splice t.toBytes 0 bytes.length fun k => bytes.getD k 0)

/-- `Directory::WriteBack` -/
def writeBack (t : Directory) (file : Filesys.OpenFile) (d : Disk) (junk : ℕ → Byte) :
    Option Disk :=
  (Indexed.writeAt file.hdr d junk t.toBytes directoryFileSize 0).map Prod.snd

end Directory

namespace Filesys

/-! ## The operations -/

structure FileSystem where
  disk : Disk
  freeMapFile : OpenFile
  directoryFile : OpenFile
  openState : ℕ → Option OpenFile

namespace FileSystem

/-- `new Directory`, then `FetchFrom(directoryFile)` -/
def fetchDirectory (fs : FileSystem) (heap : Heap) : Option Directory :=
  (Directory.new heap.entries).fetchFrom fs.directoryFile fs.disk heap.bytes

/-- `new BitMap(NumSectors)`, then `FetchFrom(freeMapFile)` -/
def fetchFreeMap (fs : FileSystem) (heap : Heap) : Option BitMap :=
  (BitMap.new heap.words numSectors).fetchFrom fs.freeMapFile fs.disk heap.bytes

/-- The end of `FileSystem::Create`, once there is a sector for the header. -/
def createAt (fs : FileSystem) (heap : Heap) (directory : Directory) (freeMap : BitMap)
    (sector : ℤ) (name : Name) (initialSize : ℤ) : Option (Bool × FileSystem) :=
  match directory.add name sector with
  | none => some (false, fs)
  | some directory =>
    match heap.hdr.allocate freeMap initialSize with
    | none => some (false, fs)
    | some (hdr, freeMap) => do
      let d ← hdr.writeBack fs.disk sector
      let d ← directory.writeBack fs.directoryFile d heap.bytes
      let d ← freeMap.writeBack fs.freeMapFile d heap.bytes
      some (true, { fs with disk := d })

/-- `FileSystem::Create` -/
def create (fs : FileSystem) (heap : Heap) (name : Name) (initialSize : ℤ) :
    Option (Bool × FileSystem) := do
  let directory ← fs.fetchDirectory heap
  if directory.find name ≠ -1 then some (false, fs)
  else do
    let freeMap ← fs.fetchFreeMap heap
    if freeMap.find.1 = -1 then some (false, fs)
    else fs.createAt heap directory freeMap.find.2 freeMap.find.1 name initialSize

/-- `FileSystem::Open(char *)`, which leaves `type` unset; the inner `none` is `NULL`. -/
def openFile (fs : FileSystem) (heap : Heap) (name : Name) (type : Option ℤ) :
    Option (Option OpenFile) := do
  let directory ← fs.fetchDirectory heap
  if 0 ≤ directory.find name then (OpenFile.new fs.disk (directory.find name) type).map some
  else some none

/-- `FileSystem::FindFreeSlot`; `none` is -1. -/
def findFreeSlot (fs : FileSystem) : Option ℕ :=
  [2, 3, 4, 5, 6, 7, 8, 9].find? fun i => (fs.openState i).isNone

/-- `FileSystem::Open(char *, int)`. Its callers have found a free slot before; `none` is also a
write to `openState[-1]`. -/
def openType (fs : FileSystem) (heap : Heap) (name : Name) (type : ℤ) :
    Option (Option OpenFile × FileSystem) := do
  let freeSlot ← fs.findFreeSlot
  let openFile ← fs.openFile heap name (some type)
  match openFile with
  | some f => some (some f, { fs with openState := Function.update fs.openState freeSlot (some f) })
  | none => some (fs.openState freeSlot, fs)

/-- The end of `FileSystem::Remove`, once the file is found. -/
def removeAt (fs : FileSystem) (heap : Heap) (directory : Directory) (sector : ℤ) (name : Name) :
    Option (Bool × FileSystem) := do
  let fileHdr ← FileHeader.fetchFrom fs.disk sector
  let freeMap ← fs.fetchFreeMap heap
  let freeMap ← fileHdr.deallocate freeMap
  let freeMap ← (if freeMap.inRange sector then some (freeMap.clear sector.toNat) else none :
    Option BitMap)
  let d ← freeMap.writeBack fs.freeMapFile fs.disk heap.bytes
  let d ← ((directory.remove name).getD directory).writeBack fs.directoryFile d heap.bytes
  some (true, { fs with disk := d })

/-- `FileSystem::Remove` -/
def remove (fs : FileSystem) (heap : Heap) (name : Name) : Option (Bool × FileSystem) := do
  let directory ← fs.fetchDirectory heap
  if directory.find name = -1 then some (false, fs)
  else fs.removeAt heap directory (directory.find name) name

/-! ## The constructor -/

def stdin : Name := [0x73, 0x74, 0x64, 0x69, 0x6e]

def stdout : Name := [0x73, 0x74, 0x64, 0x6f, 0x75, 0x74]

/-- `freeMapFile` and `directoryFile` are opened; no other file is open yet. -/
def openSystem (d : Disk) : Option FileSystem := do
  let freeMapFile ← OpenFile.new d freeMapSector none
  let directoryFile ← OpenFile.new d directorySector none
  some { disk := d, freeMapFile, directoryFile, openState := fun _ => none }

/-- The headers, the bitmap and an empty directory are written to the disk. -/
def writeSystem (heap : Heap) (d : Disk) (mapHdr dirHdr : FileHeader) (freeMap : BitMap) :
    Option FileSystem := do
  let d ← mapHdr.writeBack d freeMapSector
  let d ← dirHdr.writeBack d directorySector
  let fs ← openSystem d
  let d ← freeMap.writeBack fs.freeMapFile fs.disk heap.bytes
  let d ← (Directory.new heap.entries).writeBack fs.directoryFile d heap.bytes
  some { fs with disk := d }

/-- The branch of the constructor that formats the disk. -/
def format (heap : Heap) (d : Disk) : Option FileSystem := do
  let (mapHdr, freeMap) ← heap.hdr.allocate
    (((BitMap.new heap.words numSectors).mark freeMapSector).mark directorySector) freeMapFileSize
  let (dirHdr, freeMap) ← heap.hdr.allocate freeMap directoryFileSize
  writeSystem heap d mapHdr dirHdr freeMap

/-- `openState[i] = this->Open(name, type)` -/
def openAt (fs : FileSystem) (heap : Heap) (i : ℕ) (name : Name) (type : ℤ) : Option FileSystem := do
  let (f, fs) ← fs.openType heap name type
  some { fs with openState := Function.update fs.openState i f }

/-- `FileSystem::FileSystem` -/
def new (heap : ℕ → Heap) (d : Disk) (isFormat : Bool) : Option FileSystem := do
  let fs ← (if isFormat then format (heap 0) d else openSystem d : Option FileSystem)
  let fs ← fs.openAt (heap 1) 0 stdin 2
  let fs ← fs.openAt (heap 2) 1 stdout 3
  let (_, fs) ← fs.create (heap 3) stdin 0
  let (_, fs) ← fs.create (heap 4) stdout 0
  some fs

end FileSystem

end Filesys

end Nachos
