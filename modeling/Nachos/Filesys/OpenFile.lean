import Nachos.Filesys.FileHdr
import Nachos.Lib.Buffer

/-!
# Open files, `openfile.cc`

`ReadAt` and `WriteAt` transfer whole sectors through a buffer; `WriteAt` reads the sectors it
overwrites in part before it writes them back. Buffers come off the heap with any contents (`junk`).

The two functions compute with `int`s, which wrap around: a sum `position + numBytes` that does is
negative, and the request is not clipped to the file. Every access to `dataSectors` and to a buffer
is made by its index; one outside of them is `none`.
-/

namespace Nachos

open Buffer

/-! ## `ReadAt` and `WriteAt` -/

/-- The bytes that are transferred, and the first and the last of their sectors. -/
structure Span where
  numBytes : ℤ
  firstSector : ℤ
  lastSector : ℤ
  deriving DecidableEq, Repr

/-- The start of both functions, in a file of `fileLength` bytes; `none` is a `return 0`. -/
def span (fileLength numBytes position : ℤ) : Option Span :=
  if numBytes ≤ 0 ∨ fileLength ≤ position then none
  else
    let n := if fileLength < asInt (position + numBytes) then asInt (fileLength - position)
      else numBytes
    some
      { numBytes := n
        firstSector := position.tdiv sectorSize
        lastSector := (asInt (position + n - 1)).tdiv sectorSize }

namespace Span

/-- `numSectors * SectorSize`, the size of `buf` -/
def bufferSize (s : Span) : ℤ := asInt (asInt (1 + s.lastSector - s.firstSector) * sectorSize)

/-- `position - (firstSector * SectorSize)` -/
def start (s : Span) (position : ℤ) : ℤ := position - s.firstSector * sectorSize

/-- The sectors are sectors of the file, and the bytes are in the buffer. -/
structure InRange (s : Span) (numSectors position : ℤ) : Prop where
  first : 0 ≤ s.firstSector
  order : s.firstSector ≤ s.lastSector
  last : s.lastSector < numSectors
  size : s.bufferSize = (s.lastSector + 1 - s.firstSector) * sectorSize
  low : 0 ≤ s.start position
  high : s.start position + s.numBytes ≤ s.bufferSize

end Span

namespace Indexed

/-- `ByteToSector` -/
def byteToSector (hdr : FileHeader) (offset : ℤ) : Option ℤ :=
  if 0 ≤ offset.tdiv sectorSize ∧ offset.tdiv sectorSize < hdr.numSectors then
    some (hdr.byteToSector offset.toNat)
  else none

/-- `&buf[i]` for `n` bytes of a buffer. -/
def slice (size i n : ℤ) : Option ℕ := if 0 ≤ i ∧ i + n ≤ size then some i.toNat else none

/-- The first `m` rounds of the loop that reads the sectors. -/
def readSectors (hdr : FileHeader) (d : Disk) (s : Span) (buf : ℕ → Byte) :
    ℕ → Option (ℕ → Byte)
  | 0 => some buf
  | m + 1 => do
    let buf ← readSectors hdr d s buf m
    let i := s.firstSector + m
    let sector ← byteToSector hdr (asInt (i * sectorSize))
    let index ← slice s.bufferSize (asInt ((i - s.firstSector) * sectorSize)) sectorSize
    let data ← d.readSector sector
    some (splice buf index sectorSize data)

/-- The first `m` rounds of the loop that writes the sectors. -/
def writeSectors (hdr : FileHeader) (d : Disk) (s : Span) (buf : ℕ → Byte) : ℕ → Option Disk
  | 0 => some d
  | m + 1 => do
    let d ← writeSectors hdr d s buf m
    let i := s.firstSector + m
    let sector ← byteToSector hdr (asInt (i * sectorSize))
    let index ← slice s.bufferSize (asInt ((i - s.firstSector) * sectorSize)) sectorSize
    d.writeSector sector fun k => buf (index + k)

/-- `OpenFile::ReadAt` -/
def readAt (hdr : FileHeader) (d : Disk) (junk : ℕ → Byte) (numBytes position : ℤ) :
    Option (List Byte) :=
  match span hdr.numBytes numBytes position with
  | none => some []
  | some s => do
    let buf ← readSectors hdr d s junk (s.lastSector + 1 - s.firstSector).toNat
    let index ← slice s.bufferSize (s.start position) s.numBytes
    some ((List.range s.numBytes.toNat).map fun j => buf (index + j))

/-- `ReadAt(&buf[i], SectorSize, position)` in `WriteAt` -/
def readInto (hdr : FileHeader) (d : Disk) (junk buf : ℕ → Byte) (size i position : ℤ) :
    Option (ℕ → Byte) := do
  let bytes ← readAt hdr d junk sectorSize position
  let index ← slice size i bytes.length
  some (splice buf index bytes.length fun k => bytes.getD k 0)

/-- The buffer of `WriteAt` before the new bytes are copied in. -/
def writeBuffer (hdr : FileHeader) (d : Disk) (junk : ℕ → Byte) (s : Span) (position : ℤ) :
    Option (ℕ → Byte) := do
  let firstAligned := position == s.firstSector * sectorSize
  let lastAligned := asInt (position + s.numBytes) == (s.lastSector + 1) * sectorSize
  let buf ← (if !firstAligned then
      readInto hdr d junk junk s.bufferSize 0 (s.firstSector * sectorSize)
    else some junk : Option (ℕ → Byte))
  if !lastAligned && (s.firstSector != s.lastSector || firstAligned) then
    readInto hdr d junk buf s.bufferSize ((s.lastSector - s.firstSector) * sectorSize)
      (s.lastSector * sectorSize)
  else some buf

/-- `OpenFile::WriteAt` with its result and the disk it leaves. -/
def writeAt (hdr : FileHeader) (d : Disk) (junk source : ℕ → Byte) (numBytes position : ℤ) :
    Option (ℤ × Disk) :=
  match span hdr.numBytes numBytes position with
  | none => some (0, d)
  | some s => do
    let buf ← writeBuffer hdr d junk s position
    let index ← slice s.bufferSize (s.start position) s.numBytes
    let d ← writeSectors hdr d s (splice buf index s.numBytes.toNat source)
      (s.lastSector + 1 - s.firstSector).toNat
    some (s.numBytes, d)

end Indexed

/-! ## `OpenFile` -/

namespace Filesys

/-- `OpenFile` of the FILESYS build; `type` is `none` when the constructor does not set it. -/
structure OpenFile where
  hdr : FileHeader
  seekPosition : ℤ
  type : Option ℤ

namespace OpenFile

/-- `OpenFile::OpenFile` -/
def new (d : Disk) (sector : ℤ) (type : Option ℤ) : Option OpenFile :=
  (FileHeader.fetchFrom d sector).map fun hdr =>
    { hdr := hdr, seekPosition := 0, type := type }

/-- `OpenFile::Seek` -/
def seek (f : OpenFile) (position : ℤ) : OpenFile := { f with seekPosition := position }

/-- `OpenFile::Read` -/
def read (f : OpenFile) (d : Disk) (junk : ℕ → Byte) (numBytes : ℤ) :
    Option (List Byte × OpenFile) :=
  (Indexed.readAt f.hdr d junk numBytes f.seekPosition).map fun bytes =>
    (bytes, f.seek (asInt (f.seekPosition + bytes.length)))

/-- `OpenFile::Write` -/
def write (f : OpenFile) (d : Disk) (junk source : ℕ → Byte) (numBytes : ℤ) :
    Option (ℤ × OpenFile × Disk) :=
  (Indexed.writeAt f.hdr d junk source numBytes f.seekPosition).map fun (n, d) =>
    (n, f.seek (asInt (f.seekPosition + n)), d)

/-- `OpenFile::Length` -/
def length (f : OpenFile) : ℤ := f.hdr.numBytes

end OpenFile

end Filesys

end Nachos
