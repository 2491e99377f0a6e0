import Mathlib.Data.List.GetD
import Nachos.Filesys.SynchDisk
import Nachos.Userprog.BitMap

/-!
# File headers, `filehdr.cc`

A file header fills one sector: the length of the file in bytes and in sectors, and the numbers of
its data sectors. The file system is used by one thread at a time, so that `ReadSector` and
`WriteSector` are functions on the sectors of the disk; `none` is a failed `ASSERT`.

`FileHeader.Describes` says what a header stands for: a length and a list of sectors.
-/

namespace Nachos

/-- `NumDirect` -/
abbrev numDirect : ℕ := (sectorSize - 2 * 4) / 4

/-- `MaxFileSize` -/
abbrev maxFileSize : ℕ := numDirect * sectorSize

/-! ## Sectors -/

abbrev Disk := ℕ → Sector

/-- `SynchDisk::ReadSector` -/
def Disk.readSector (d : Disk) (sectorNumber : ℤ) : Option Sector :=
  if 0 ≤ sectorNumber ∧ sectorNumber < numSectors then some (d sectorNumber.toNat) else none

/-- `SynchDisk::WriteSector` -/
def Disk.writeSector (d : Disk) (sectorNumber : ℤ) (data : Sector) : Option Disk :=
  if 0 ≤ sectorNumber ∧ sectorNumber < numSectors then
    some (Function.update d sectorNumber.toNat data)
  else none

theorem Disk.readSector_natCast (d : Disk) {s : ℕ} (hs : s < numSectors) :
    d.readSector s = some (d s) := by
  unfold Disk.readSector
  rw [if_pos ⟨Int.natCast_nonneg s, by exact_mod_cast hs⟩, Int.toNat_natCast]

theorem Disk.writeSector_natCast (d : Disk) {s : ℕ} (hs : s < numSectors) (data : Sector) :
    d.writeSector s data = some (Function.update d s data) := by
  unfold Disk.writeSector
  rw [if_pos ⟨Int.natCast_nonneg s, by exact_mod_cast hs⟩, Int.toNat_natCast]

/-! ## Arrays of words as bytes -/

/-- The bytes of an array of words. -/
def bytesOf (words : ℕ → Word) : ℕ → Byte := fun k => (words (k / 4)).extractLsb' (8 * (k % 4)) 8

theorem wordAt_bytesOf (words : ℕ → Word) (i : ℕ) : wordAt (bytesOf words) (4 * i) = words i := by
  have hbyte : ∀ j < 4, bytesOf words (4 * i + j) = (words i).extractLsb' (8 * j) 8 := by
    intro j hj
    unfold bytesOf
    rw [show (4 * i + j) / 4 = i by omega, show (4 * i + j) % 4 = j by omega]
  have h0 := hbyte 0 (by decide)
  rw [Nat.add_zero] at h0
  unfold wordAt
  rw [hbyte 3 (by decide), hbyte 2 (by decide), hbyte 1 (by decide), h0]
  exact append_extractLsb' (words i)

/-! ## The header -/

structure FileHeader where
  numBytes : ℤ
  numSectors : ℤ
  dataSectors : ℕ → ℤ

namespace FileHeader

/-- The header as an array of `int`s. -/
def words (h : FileHeader) : ℕ → Word
  | 0 => BitVec.ofInt 32 h.numBytes
  | 1 => BitVec.ofInt 32 h.numSectors
  | i + 2 => BitVec.ofInt 32 (h.dataSectors i)

/-- The sector that holds the header. -/
def toSector (h : FileHeader) : Sector := bytesOf h.words

/-- The header that a sector holds. -/
def ofSector (s : Sector) : FileHeader where
  numBytes := (wordAt s 0).toInt
  numSectors := (wordAt s 4).toInt
  dataSectors := fun i => (wordAt s (4 * (i + 2))).toInt

/-- `FileHeader::FetchFrom` -/
def fetchFrom (d : Disk) (sector : ℤ) : Option FileHeader := (d.readSector sector).map ofSector

/-- `FileHeader::WriteBack` -/
def writeBack (h : FileHeader) (d : Disk) (sector : ℤ) : Option Disk :=
  d.writeSector sector h.toSector

/-- `FileHeader::ByteToSector` -/
def byteToSector (h : FileHeader) (offset : ℕ) : ℤ := h.dataSectors (offset / sectorSize)

/-- The first `m` rounds of the loop in `Allocate`. -/
def allocateLoop (x : FileHeader × BitMap) : ℕ → FileHeader × BitMap
  | 0 => x
  | m + 1 =>
    let y := allocateLoop x m
    ({ y.1 with dataSectors := Function.update y.1.dataSectors m y.2.find.1 }, y.2.find.2)

/-- `divRoundUp(fileSize, SectorSize)`, which rounds a negative size towards zero. -/
def sectorsFor (fileSize : ℤ) : ℤ :=
  fileSize.tdiv sectorSize + if 0 < fileSize.tmod sectorSize then 1 else 0

/-- `FileHeader::Allocate` on a header with any contents; `none` is `FALSE`. The size is not
checked: beyond `MaxFileSize` the loop goes past the end of `dataSectors`. -/
def allocate (h : FileHeader) (freeMap : BitMap) (fileSize : ℤ) : Option (FileHeader × BitMap) :=
  if (freeMap.numClear : ℤ) < sectorsFor fileSize then none
  else some (allocateLoop ({ h with
    numBytes := fileSize
    numSectors := sectorsFor fileSize }, freeMap) (sectorsFor fileSize).toNat)

/-- The first `m` rounds of the loop in `Deallocate`; `none` is a failed `ASSERT`. -/
def deallocateLoop (h : FileHeader) (freeMap : BitMap) : ℕ → Option BitMap
  | 0 => some freeMap
  | m + 1 => do
    let freeMap ← deallocateLoop h freeMap m
    if freeMap.inRange (h.dataSectors m) && freeMap.test (h.dataSectors m).toNat then
      some (freeMap.clear (h.dataSectors m).toNat)
    else none

/-- `FileHeader::Deallocate` -/
def deallocate (h : FileHeader) (freeMap : BitMap) : Option BitMap :=
  h.deallocateLoop freeMap h.numSectors.toNat

/-! ## What a header stands for -/

/-- The header of a file of `length` bytes in the sectors `blocks`. -/
structure Describes (h : FileHeader) (length : ℕ) (blocks : List ℕ) : Prop where
  numBytes : h.numBytes = length
  numSectors : h.numSectors = blocks.length
  dataSectors : ∀ j, ∀ hj : j < blocks.length, h.dataSectors j = blocks[j]

variable {h : FileHeader} {length : ℕ} {blocks : List ℕ}

/-- A header is read back as it was written. -/
theorem Describes.ofSector_toSector (hd : h.Describes length blocks) (hlen : length ≤ maxFileSize)
    (hblocks : blocks.length ≤ numDirect) (hlt : ∀ b ∈ blocks, b < Nachos.numSectors) :
    (ofSector h.toSector).Describes length blocks := by
  have hlen' : length ≤ 64512 := hlen
  have hblocks' : blocks.length ≤ 126 := hblocks
  refine ⟨?_, ?_, fun j hj => ?_⟩
  · show (wordAt (bytesOf h.words) (4 * 0)).toInt = _
    rw [wordAt_bytesOf, ← hd.numBytes]
    exact toInt_ofInt_of_lt (by rw [hd.numBytes]; omega) (by rw [hd.numBytes]; omega)
  · show (wordAt (bytesOf h.words) (4 * 1)).toInt = _
    rw [wordAt_bytesOf, ← hd.numSectors]
    exact toInt_ofInt_of_lt (by rw [hd.numSectors]; omega) (by rw [hd.numSectors]; omega)
  · have hb : blocks[j] < 1024 := hlt _ (List.getElem_mem hj)
    show (wordAt (bytesOf h.words) (4 * (j + 2))).toInt = _
    rw [wordAt_bytesOf, ← hd.dataSectors j hj]
    exact toInt_ofInt_of_lt (by rw [hd.dataSectors j hj]; omega)
      (by rw [hd.dataSectors j hj]; omega)

/-! ## Allocation -/

/-- The loop takes the first clear sectors. -/
theorem allocateLoop_spec (h : FileHeader) {freeMap : BitMap} {m : ℕ} (hm : m ≤ freeMap.numClear) :
    (allocateLoop (h, freeMap) m).1.numBytes = h.numBytes ∧
    (allocateLoop (h, freeMap) m).1.numSectors = h.numSectors ∧
    (∀ j, ∀ hj : j < (freeMap.clearBits.take m).length,
      (allocateLoop (h, freeMap) m).1.dataSectors j = (freeMap.clearBits.take m)[j]) ∧
    (allocateLoop (h, freeMap) m).2.numBits = freeMap.numBits ∧
    (allocateLoop (h, freeMap) m).2.clearBits = freeMap.clearBits.drop m ∧
    ∀ i, (allocateLoop (h, freeMap) m).2.test i =
      (decide (i ∈ freeMap.clearBits.take m) || freeMap.test i) := by
  induction m with
  | zero => exact ⟨rfl, rfl, nofun, rfl, rfl, fun i => by simp [allocateLoop]⟩
  | succ m ih =>
    obtain ⟨h₁, h₂, h₃, h₄, h₅, h₆⟩ := ih (by omega)
    have hlen : m < freeMap.clearBits.length := by
      rw [BitMap.length_clearBits]
      omega
    have hdrop := List.drop_eq_getElem_cons hlen
    have htake := List.take_concat_get' freeMap.clearBits m hlen
    set x := allocateLoop (h, freeMap) m with hx
    have hfind : x.2.find = ((freeMap.clearBits[m] : ℤ), x.2.mark freeMap.clearBits[m]) :=
      BitMap.find_eq (h₅.trans hdrop)
    have hstep : allocateLoop (h, freeMap) (m + 1) =
        ({ x.1 with dataSectors := Function.update x.1.dataSectors m (freeMap.clearBits[m] : ℤ) },
          x.2.mark freeMap.clearBits[m]) := by
      simp only [allocateLoop]
      rw [← hx, hfind]
    rw [hstep]
    refine ⟨h₁, h₂, fun j hj => ?_, h₄, ?_, fun i => ?_⟩
    · show Function.update x.1.dataSectors m _ j = _
      by_cases hjm : j = m
      · subst hjm
        rw [Function.update_self, List.getElem_take]
      · rw [Function.update_of_ne hjm]
        have hj' : j < (freeMap.clearBits.take m).length := by
          rw [List.length_take] at hj ⊢
          omega
        rw [h₃ j hj', List.getElem_take, List.getElem_take]
    · exact BitMap.clearBits_mark_head (h₅.trans hdrop)
    · show (x.2.mark freeMap.clearBits[m]).test i = _
      rw [BitMap.test_mark, h₆, ← htake, ← Bool.or_assoc]
      congr 1
      rw [Bool.eq_iff_iff, Bool.or_eq_true, decide_eq_true_iff, decide_eq_true_iff,
        decide_eq_true_iff, List.mem_append, List.mem_singleton, or_comm]

theorem sectorsFor_natCast (fileSize : ℕ) :
    sectorsFor fileSize = (divRoundUp fileSize sectorSize : ℕ) := by
  unfold sectorsFor divRoundUp
  rw [Int.tdiv_eq_ediv_of_nonneg (Int.natCast_nonneg _),
    Int.tmod_eq_emod_of_nonneg (Int.natCast_nonneg _)]
  simp only [sectorSize]
  split_ifs <;> omega

/-- `Allocate` fails for lack of sectors, or takes the first clear ones. -/
theorem allocate_cases (h : FileHeader) (freeMap : BitMap) (fileSize : ℕ) :
    (freeMap.numClear < divRoundUp fileSize sectorSize ∧ h.allocate freeMap fileSize = none) ∨
    ∃ h' freeMap' blocks, h.allocate freeMap fileSize = some (h', freeMap') ∧
      h'.Describes fileSize blocks ∧ blocks.length = divRoundUp fileSize sectorSize ∧
      blocks.Nodup ∧ (∀ b ∈ blocks, b < freeMap.numBits ∧ freeMap.test b = false) ∧
      blocks = freeMap.clearBits.take (divRoundUp fileSize sectorSize) ∧
      freeMap'.numBits = freeMap.numBits ∧
      freeMap'.clearBits = freeMap.clearBits.drop (divRoundUp fileSize sectorSize) ∧
      ∀ i, freeMap'.test i = (decide (i ∈ blocks) || freeMap.test i) := by
  unfold allocate
  rw [sectorsFor_natCast, Int.toNat_natCast]
  by_cases hm : freeMap.numClear < divRoundUp fileSize sectorSize
  · exact .inl ⟨hm, if_pos (Int.ofNat_lt.mpr hm)⟩
  · rw [if_neg (mt Int.ofNat_lt.mp hm)]
    rw [Nat.not_lt] at hm
    obtain ⟨h₁, h₂, h₃, h₄, h₅, h₆⟩ := allocateLoop_spec { h with
      numBytes := fileSize
      numSectors := divRoundUp fileSize sectorSize } hm
    have hlen : (freeMap.clearBits.take (divRoundUp fileSize sectorSize)).length =
        divRoundUp fileSize sectorSize := by
      rw [List.length_take, BitMap.length_clearBits]
      exact Nat.min_eq_left hm
    refine .inr ⟨_, _, _, rfl, ⟨h₁, ?_, h₃⟩, hlen, ?_, fun b hb => ?_, rfl, h₄, h₅, h₆⟩
    · rw [hlen]
      exact h₂
    · exact freeMap.clearBits_nodup.sublist (List.take_sublist _ _)
    · exact BitMap.mem_clearBits.mp (List.mem_of_mem_take hb)

theorem deallocateLoop_spec {freeMap : BitMap} {m : ℕ} (hd : h.Describes length blocks)
    (hm : m ≤ blocks.length) (hnodup : blocks.Nodup)
    (hset : ∀ b ∈ blocks, b < freeMap.numBits ∧ freeMap.test b = true) :
    ∃ freeMap', h.deallocateLoop freeMap m = some freeMap' ∧
      freeMap'.numBits = freeMap.numBits ∧
      ∀ i, freeMap'.test i = (decide (i ∉ blocks.take m) && freeMap.test i) := by
  induction m with
  | zero => exact ⟨freeMap, rfl, rfl, fun i => by simp⟩
  | succ m ih =>
    obtain ⟨b, hloop, hbits, htest⟩ := ih (by omega)
    have hlt : m < blocks.length := hm
    obtain ⟨hrange, hmarked⟩ := hset _ (List.getElem_mem hlt)
    have htake := List.take_concat_get' blocks m hlt
    -- the sector has not been cleared by an earlier round
    have hnew : blocks[m] ∉ blocks.take m := by
      have hnd : (blocks.take m ++ [blocks[m]]).Nodup := by
        rw [htake]
        exact hnodup.sublist (List.take_sublist _ _)
      intro hmem
      exact (List.nodup_append.mp hnd).2.2 _ hmem _ (List.mem_singleton_self _) rfl
    have hok : (b.inRange (h.dataSectors m) && b.test (h.dataSectors m).toNat) = true := by
      rw [hd.dataSectors m hlt, Int.toNat_natCast, htest, hmarked, decide_eq_true hnew,
        BitMap.inRange, hbits]
      simpa using hrange
    refine ⟨b.clear blocks[m], ?_, hbits, fun i => ?_⟩
    · rw [deallocateLoop, hloop]
      show (if _ then _ else _) = _
      rw [if_pos hok, hd.dataSectors m hlt, Int.toNat_natCast]
    · rw [BitMap.test_clear, htest, ← Bool.and_assoc, ← htake]
      congr 1
      rw [Bool.eq_iff_iff, Bool.and_eq_true, decide_eq_true_iff, decide_eq_true_iff,
        decide_eq_true_iff, List.mem_append, List.mem_singleton, not_or, and_comm]

/-- `Deallocate` clears the data sectors, if all of them are marked. -/
theorem deallocate_spec {freeMap : BitMap} (hd : h.Describes length blocks) (hnodup : blocks.Nodup)
    (hset : ∀ b ∈ blocks, b < freeMap.numBits ∧ freeMap.test b = true) :
    ∃ freeMap', h.deallocate freeMap = some freeMap' ∧ freeMap'.numBits = freeMap.numBits ∧
      ∀ i, freeMap'.test i = (decide (i ∉ blocks) && freeMap.test i) := by
  obtain ⟨freeMap', h₁, h₂, h₃⟩ := deallocateLoop_spec hd (Nat.le_refl _) hnodup hset
  rw [List.take_length] at h₃
  refine ⟨freeMap', ?_, h₂, h₃⟩
  rw [deallocate, hd.numSectors, Int.toNat_natCast]
  exact h₁

end FileHeader

end Nachos
