import Nachos.Filesys.Consistency

/-!
# When `Create` succeeds

`FileSystem::Create` on any disk on which the two system files are open, whatever the bitmap and the
directory hold, and for any size. It returns `FALSE` for a name that exists and for lack of a
directory entry or of sectors. It does not look at the size itself.
-/

namespace Nachos

open Filesys

theorem BitMap.numClear_congr {b b' : BitMap} (hn : b.numBits = b'.numBits)
    (h : ∀ i < b.numBits, b.test i = b'.test i) : b.numClear = b'.numClear := by
  unfold BitMap.numClear
  rw [← hn]
  refine List.countP_congr fun i hi => ?_
  rw [h i (List.mem_range.mp hi)]

namespace Filesys.FileSystem

/-- The system files are open, in one sector each. -/
structure Mounted (fs : FileSystem) (mapBlock dirBlock : ℕ) : Prop where
  mapFile : fs.freeMapFile.hdr.Describes freeMapFileSize [mapBlock]
  dirFile : fs.directoryFile.hdr.Describes directoryFileSize [dirBlock]
  mapBlock_lt : mapBlock < numSectors
  dirBlock_lt : dirBlock < numSectors

/-- The directory on the disk. -/
def entriesAt (fs : FileSystem) (dirBlock : ℕ) : Directory :=
  Directory.ofBytes (fileByte fs.disk [dirBlock])

/-- The number of sectors that the bitmap on the disk has left. -/
def sectorsLeft (fs : FileSystem) (mapBlock : ℕ) : ℕ :=
  (BitMap.ofBytes (fileByte fs.disk [mapBlock])).numClear

/-- An entry in use has the name. -/
def NameTaken (fs : FileSystem) (dirBlock : ℕ) (name : Name) : Prop :=
  ∃ i < numDirEntries, ∃ sector, (fs.entriesAt dirBlock i).view = some (fileKey name, sector)

/-- An entry is not in use. -/
def EntryFree (fs : FileSystem) (dirBlock : ℕ) : Prop :=
  ∃ i < numDirEntries, (fs.entriesAt dirBlock i).view = none

/-- There is a sector for the header, and with it enough for the data. -/
def SectorsFree (fs : FileSystem) (mapBlock : ℕ) (initialSize : ℤ) : Prop :=
  0 < fs.sectorsLeft mapBlock ∧ 1 + FileHeader.sectorsFor initialSize ≤ fs.sectorsLeft mapBlock

/-- What `Create` checks. -/
def Passes (fs : FileSystem) (mapBlock dirBlock : ℕ) (name : Name) (initialSize : ℤ) : Prop :=
  ¬ fs.NameTaken dirBlock name ∧ fs.EntryFree dirBlock ∧ fs.SectorsFree mapBlock initialSize

/-- The size of a file whose sectors fit in a header. -/
def SizeOk (initialSize : ℤ) : Prop := 0 ≤ initialSize ∧ initialSize ≤ maxFileSize

variable {fs : FileSystem} {mapBlock dirBlock : ℕ}

theorem writeBack_exists {file : OpenFile} {s : ℕ}
    (hf : file.hdr.Describes directoryFileSize [s]) (hs : s < numSectors) (t : Directory) (d : Disk)
    (junk : ℕ → Byte) : ∃ d', t.writeBack file d junk = some d' := by
  have he : Extent directoryFileSize [s] := extent_singleton (by decide) (by decide) hs
  obtain ⟨d', hwrite, -, -⟩ := Indexed.writeAt_spec hf he d junk t.toBytes
    (FileHeader.fits_whole he)
  refine ⟨d', ?_⟩
  unfold Directory.writeBack
  rw [hwrite, Option.map_some]

/-- The lookup in a fetched directory. -/
theorem nameTaken_iff {t : Directory}
    (ht : ∀ i < numDirEntries, (t i).view = (fs.entriesAt dirBlock i).view) (name : Name) :
    fs.NameTaken dirBlock name ↔ t.findIndex name ≠ none := by
  constructor
  · rintro ⟨i, hi, sector, hview⟩ hnone
    refine Directory.findIndex_eq_none hnone hi sector ?_
    rw [ht i hi]
    exact hview
  · intro hsome
    obtain ⟨i, hi⟩ := Option.ne_none_iff_exists'.mp hsome
    obtain ⟨hlt, hview⟩ := Directory.findIndex_eq_some hi
    rw [ht i hlt] at hview
    exact ⟨i, hlt, _, hview⟩

/-- `Create` from the header's sector on. -/
theorem createAt_result (h : fs.Mounted mapBlock dirBlock) (heap : Heap) {t : Directory}
    {b : BitMap} {x : ℕ} (hbits : b.numBits = numSectors) (hx : x < numSectors)
    (hclear : b.test x = false) (name : Name) (initialSize : ℤ) :
    ∃ success fs', fs.createAt heap t (b.mark x) x name initialSize = some (success, fs') ∧
      (success = true ↔ t.add name x ≠ none ∧
        1 + FileHeader.sectorsFor initialSize ≤ b.numClear) ∧
      (success = false → fs' = fs) := by
  have hnum := BitMap.numClear_mark (hbits ▸ hx) hclear
  unfold createAt
  cases hadd : t.add name x with
  | none => exact ⟨false, fs, rfl, ⟨nofun, fun hand => absurd rfl hand.1⟩, fun _ => rfl⟩
  | some t' =>
    by_cases hlack : ((b.mark x).numClear : ℤ) < FileHeader.sectorsFor initialSize
    · have hnone : heap.hdr.allocate (b.mark x) initialSize = none := if_pos hlack
      simp only [hnone]
      refine ⟨false, fs, rfl, ⟨nofun, fun hand => ?_⟩, fun _ => rfl⟩
      omega
    · have hloop := FileHeader.allocateLoop_spec { heap.hdr with
        numBytes := initialSize
        numSectors := FileHeader.sectorsFor initialSize }
        (show (FileHeader.sectorsFor initialSize).toNat ≤ (b.mark x).numClear by omega)
      have hsome : heap.hdr.allocate (b.mark x) initialSize = some _ := if_neg hlack
      simp only [hsome]
      generalize FileHeader.allocateLoop _ _ = y at hloop ⊢
      have hwrite₁ : y.1.writeBack fs.disk x = some (Function.update fs.disk x y.1.toSector) :=
        Disk.writeSector_natCast _ hx _
      obtain ⟨d₂, hwrite₂⟩ := writeBack_exists h.dirFile h.dirBlock_lt t'
        (Function.update fs.disk x y.1.toSector) heap.bytes
      obtain ⟨d₃, hwrite₃, -, -⟩ := BitMap.writeBack_spec h.mapFile h.mapBlock_lt
        (hloop.2.2.2.1.trans hbits) d₂ heap.bytes
      refine ⟨true, { fs with disk := d₃ }, ?_, ⟨fun _ => ⟨nofun, by omega⟩, fun _ => rfl⟩, nofun⟩
      simp only [hwrite₁, hwrite₂, hwrite₃, Option.bind_eq_bind, Option.bind_some]

/-- `Create` returns `TRUE` exactly if its checks pass, and else leaves everything as it was. -/
theorem create_result (h : fs.Mounted mapBlock dirBlock) (heap : Heap) (name : Name)
    (initialSize : ℤ) :
    ∃ success fs', fs.create heap name initialSize = some (success, fs') ∧
      (success = true ↔ fs.Passes mapBlock dirBlock name initialSize) ∧
      (success = false → fs' = fs) := by
  obtain ⟨t, ht, hview⟩ := Directory.fetchFrom_spec h.dirFile h.dirBlock_lt
    (Directory.new heap.entries) fs.disk heap.bytes
  obtain ⟨b, hb, hbits, htest⟩ := BitMap.fetchFrom_spec h.mapFile h.mapBlock_lt
    (BitMap.new_numBits heap.words numSectors) fs.disk heap.bytes
  have hname := nameTaken_iff hview name
  have hleft : b.numClear = fs.sectorsLeft mapBlock :=
    BitMap.numClear_congr hbits fun i hi => htest i (hbits ▸ hi)
  have hcreate : fs.create heap name initialSize = if t.find name ≠ -1 then some (false, fs)
      else if b.find.1 = -1 then some (false, fs)
      else fs.createAt heap t b.find.2 b.find.1 name initialSize := by
    unfold create fetchDirectory fetchFreeMap
    rw [ht, hb]
    rfl
  rw [hcreate]
  by_cases hfind : t.find name = -1
  swap
  · -- the name is found
    rw [if_pos hfind]
    refine ⟨false, fs, rfl, ⟨nofun, fun hpass => absurd (hname.mpr fun hnone => hfind ?_) hpass.1⟩,
      fun _ => rfl⟩
    unfold Directory.find
    rw [hnone]
  rw [if_neg (not_not.mpr hfind)]
  rcases b.find_cases with ⟨hfull, hf⟩ | ⟨x, hx, hclear, hf⟩
  · -- no sector for the header
    have hzero : b.numClear = 0 := by
      rw [← BitMap.length_clearBits, hfull, List.length_nil]
    rw [hf, if_pos rfl]
    refine ⟨false, fs, rfl, ⟨nofun, fun hpass => ?_⟩, fun _ => rfl⟩
    have hpos := hpass.2.2.1
    rw [← hleft, hzero] at hpos
    exact absurd hpos (Nat.lt_irrefl 0)
  · rw [hf, if_neg (show (x : ℤ) ≠ -1 by omega)]
    have hpos := BitMap.numClear_mark hx hclear
    rw [hbits] at hx
    obtain ⟨success, fs', hat, hiff, hkeep⟩ := createAt_result h heap (t := t) hbits hx hclear name
      initialSize
    refine ⟨success, fs', hat, hiff.trans ?_, hkeep⟩
    unfold Passes SectorsFree EntryFree
    rw [hname, not_not, ← hleft]
    rcases t.add_cases name x with ⟨hadd, hreason⟩ | ⟨t', i, hadd, hi, hnone, hnew, -⟩
    · rw [hadd]
      constructor
      · rintro ⟨hne, -⟩
        exact absurd rfl hne
      · rintro ⟨hindex, ⟨i, hi, hfree⟩, -⟩
        rcases hreason with hsome | hall
        · rw [hindex] at hsome
          exact nomatch hsome
        · exact absurd ((hview i hi).trans hfree) (hall i hi)
    · rw [hadd]
      constructor
      · rintro ⟨-, hroom⟩
        refine ⟨?_, ⟨i, hi, (hview i hi).symm.trans hnone⟩, by omega, hroom⟩
        by_contra hsome
        obtain ⟨j, hj, sector, hj'⟩ := hname.mpr hsome
        exact hnew j hj sector ((hview j hj).trans hj')
      · rintro ⟨-, -, -, hroom⟩
        exact ⟨nofun, hroom⟩

/-- The result is as documented: `TRUE` if the name is new, an entry and the sectors are free and
the size fits in a header, and else `FALSE` with the disk as before. -/
def CreateExact (fs : FileSystem) (mapBlock dirBlock : ℕ) (heap : Heap) (name : Name)
    (initialSize : ℤ) : Prop :=
  ∃ success fs', fs.create heap name initialSize = some (success, fs') ∧
    (success = true ↔ ¬ fs.NameTaken dirBlock name ∧ fs.EntryFree dirBlock ∧ SizeOk initialSize ∧
      1 + FileHeader.sectorsFor initialSize ≤ fs.sectorsLeft mapBlock) ∧
    (success = false → fs'.disk = fs.disk)

/-- `Create` is as documented for the sizes that fit in a header, and where it fails anyway. -/
theorem createExact_iff (h : fs.Mounted mapBlock dirBlock) (heap : Heap) (name : Name)
    (initialSize : ℤ) :
    fs.CreateExact mapBlock dirBlock heap name initialSize ↔
      SizeOk initialSize ∨ ¬ fs.Passes mapBlock dirBlock name initialSize := by
  obtain ⟨success, fs', hcreate, hiff, hkeep⟩ := create_result h heap name initialSize
  have hpasses : SizeOk initialSize → (fs.Passes mapBlock dirBlock name initialSize ↔
      ¬ fs.NameTaken dirBlock name ∧ fs.EntryFree dirBlock ∧ SizeOk initialSize ∧
        1 + FileHeader.sectorsFor initialSize ≤ fs.sectorsLeft mapBlock) := by
    intro hsize
    have hnonneg : 0 ≤ FileHeader.sectorsFor initialSize := by
      obtain ⟨n, rfl⟩ := Int.eq_ofNat_of_zero_le hsize.1
      rw [FileHeader.sectorsFor_natCast]
      exact Int.natCast_nonneg _
    unfold Passes SectorsFree
    rw [and_iff_right hsize]
    constructor
    · rintro ⟨hname, hentry, -, hroom⟩
      exact ⟨hname, hentry, hroom⟩
    · rintro ⟨hname, hentry, hroom⟩
      exact ⟨hname, hentry, by omega, hroom⟩
  constructor
  · rintro ⟨success', fs'', hcreate', hexact, -⟩
    obtain ⟨rfl, -⟩ := Prod.mk.inj (Option.some.inj (hcreate.symm.trans hcreate'))
    by_cases hpass : fs.Passes mapBlock dirBlock name initialSize
    · exact .inl (hexact.mp (hiff.mpr hpass)).2.2.1
    · exact .inr hpass
  · intro hcond
    refine ⟨success, fs', hcreate, ?_, fun hf => by rw [hkeep hf]⟩
    rcases hcond with hsize | hfails
    · rw [hiff, hpasses hsize]
    · rw [hiff, iff_false_left hfails]
      rintro ⟨hname, hentry, hsize, hroom⟩
      exact hfails ((hpasses hsize).mpr ⟨hname, hentry, hsize, hroom⟩)

theorem Rep.mounted {L : Layout} (h : fs.Rep L) : fs.Mounted L.mapBlock L.dirBlock :=
  ⟨h.mapFile, h.dirFile, h.mapBlock_lt, h.dirBlock_lt⟩

/-- A formatted disk, on which there is room for a file `a`. -/
theorem exists_passes {size : ℕ} (hsize : size ≤ maxFileSize) :
    ∃ fs : FileSystem, fs.Mounted 2 3 ∧ fs.Passes 2 3 [0x61] size := by
  obtain ⟨fs, L, -, hrep, hfresh, -⟩ := FileSystem.new_spec (fun _ => Heap.zero) fun _ _ => 0
  obtain ⟨d', -, -, hcreate, -⟩ := FileSystem.Fresh.create hrep hfresh Heap.zero
    (show fileKey [0x61] ≠ stdin by decide) (show fileKey [0x61] ≠ stdout by decide) hsize
  obtain ⟨i, j, f, g, rfl, -⟩ := hfresh
  have hmounted : fs.Mounted 2 3 := hrep.mounted
  refine ⟨fs, hmounted, ?_⟩
  obtain ⟨success, fs', hresult, hiff, -⟩ := create_result hmounted Heap.zero [0x61] size
  obtain ⟨rfl, -⟩ := Prod.mk.inj (Option.some.inj (hresult.symm.trans hcreate))
  exact hiff.mp rfl

/-- A file of 600 bytes gets two sectors for them, and there has to be one more for the header. -/
theorem createExact_iff_two_sectors : ∃ fs : FileSystem, fs.Mounted 2 3 ∧
    fs.CreateExact 2 3 Heap.zero [0x61] 600 ∧
    (∃ fs', fs.create Heap.zero [0x61] 600 = some (true, fs')) ∧ 3 ≤ fs.sectorsLeft 2 := by
  obtain ⟨fs, hmounted, hpass⟩ := exists_passes (show 600 ≤ maxFileSize by decide)
  have hsize : SizeOk 600 := ⟨by decide, by decide⟩
  obtain ⟨success, fs', hcreate, hexact, hkeep⟩ :=
    (createExact_iff hmounted Heap.zero [0x61] 600).mpr (.inl hsize)
  have hroom : 1 + FileHeader.sectorsFor 600 ≤ fs.sectorsLeft 2 := hpass.2.2.2
  obtain rfl : success = true := hexact.mpr ⟨hpass.1, hpass.2.1, hsize, hroom⟩
  rw [show FileHeader.sectorsFor 600 = 2 by decide] at hroom
  exact ⟨fs, hmounted, ⟨true, fs', hcreate, hexact, hkeep⟩, ⟨fs', hcreate⟩, by omega⟩

/-- `Create` makes a file of -1 bytes. -/
theorem not_createExact : ∃ fs : FileSystem, fs.Mounted 2 3 ∧
    (∃ fs', fs.create Heap.zero [0x61] (-1) = some (true, fs')) ∧
    ¬ fs.CreateExact 2 3 Heap.zero [0x61] (-1) := by
  obtain ⟨fs, hmounted, hpass⟩ := exists_passes (Nat.zero_le maxFileSize)
  have hpass' : fs.Passes 2 3 [0x61] (-1) := hpass
  obtain ⟨success, fs', hcreate, hiff, -⟩ := create_result hmounted Heap.zero [0x61] (-1)
  obtain rfl : success = true := hiff.mpr hpass'
  refine ⟨fs, hmounted, ⟨fs', hcreate⟩, ?_⟩
  rintro ⟨success', fs'', hcreate', hexact, -⟩
  obtain ⟨rfl, -⟩ := Prod.mk.inj (Option.some.inj (hcreate.symm.trans hcreate'))
  exact absurd (hexact.mp rfl).2.2.1.1 (by decide)

end Filesys.FileSystem

end Nachos
