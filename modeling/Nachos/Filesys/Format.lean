import Nachos.Filesys.Operations

/-!
# Formatting the disk

The constructor of the file system, on any disk: it leaves an empty directory, to which the console
files are added.
-/

namespace Nachos.Filesys

/-- The layout of a disk that has just been formatted. -/
def Layout.formatted : Layout where
  mapBlock := 2
  dirBlock := 3
  files := fun _ => none

theorem Layout.used_formatted : Layout.formatted.used = [0, 1, 2, 3] := rfl

theorem Layout.valid_formatted : Layout.formatted.Valid where
  nodup := by
    rw [used_formatted]
    decide
  onDisk := by
    rw [used_formatted]
    decide
  count := nofun
  size := nofun
  keys := nofun

namespace FileSystem

/-- The free sectors while the disk is formatted. -/
theorem clearBits_formatted (words : ℕ → Word) :
    (((BitMap.new words numSectors).mark freeMapSector).mark directorySector).clearBits =
      List.range' 2 1022 := by
  have h : (BitMap.new words numSectors).clearBits = 0 :: List.range' 1 1023 := by
    rw [BitMap.clearBits_new, List.range_eq_range']
    exact List.range'_succ
  exact BitMap.clearBits_mark_head ((BitMap.clearBits_mark_head h).trans List.range'_succ)

/-- `Allocate` for a file of one sector. -/
theorem allocate_one (h : FileHeader) {b : BitMap} (size : ℕ) {s n : ℕ}
    (hsize : divRoundUp size sectorSize = 1) (hb : b.clearBits = List.range' s (n + 1)) :
    ∃ hdr b', h.allocate b size = some (hdr, b') ∧ hdr.Describes size [s] ∧
      b'.numBits = b.numBits ∧ b'.clearBits = List.range' (s + 1) n := by
  rw [List.range'_succ] at hb
  have hnum : b.numClear = n + 1 := by
    rw [← BitMap.length_clearBits, hb, List.length_cons, List.length_range']
  rcases h.allocate_cases b size with ⟨hlack, -⟩ |
    ⟨hdr, b', blocks, ha, hdesc, -, -, -, hblocks, hbits, hclear, -⟩
  · omega
  · rw [hsize, hb] at hblocks hclear
    subst hblocks
    exact ⟨hdr, b', ha, hdesc, hbits, hclear⟩

theorem openSystem_eq (d : Disk) :
    openSystem d = some { disk := d
                          freeMapFile := ⟨FileHeader.ofSector (d 0), 0, none⟩
                          directoryFile := ⟨FileHeader.ofSector (d 1), 0, none⟩
                          openState := fun _ => none } := by
  unfold openSystem OpenFile.new FileHeader.fetchFrom
  rw [Disk.readSector_natCast d (show freeMapSector < numSectors by decide),
    Disk.readSector_natCast d (show directorySector < numSectors by decide)]
  rfl

/-- The disk after the two system files have been written to it. -/
theorem writeSystem_spec (heap : Heap) (d : Disk) {mapHdr dirHdr : FileHeader} {b : BitMap}
    (hmap : mapHdr.Describes freeMapFileSize [2]) (hdir : dirHdr.Describes directoryFileSize [3])
    (hbits : b.numBits = numSectors) (hclear : b.clearBits = List.range' 4 1020) :
    ∃ fs, writeSystem heap d mapHdr dirHdr b = some fs ∧ fs.Rep Layout.formatted ∧
      fs.openState = fun _ => none := by
  have hwrite₁ : mapHdr.writeBack d freeMapSector = some (Function.update d 0 mapHdr.toSector) :=
    Disk.writeSector_natCast d (by decide) _
  obtain ⟨d₁, hd₁⟩ : ∃ d₁, d₁ = Function.update d 0 mapHdr.toSector := ⟨_, rfl⟩
  have hwrite₂ : dirHdr.writeBack d₁ directorySector =
      some (Function.update d₁ 1 dirHdr.toSector) := Disk.writeSector_natCast d₁ (by decide) _
  obtain ⟨d₂, hd₂⟩ : ∃ d₂, d₂ = Function.update d₁ 1 dirHdr.toSector := ⟨_, rfl⟩
  have hmapFile : (OpenFile.mk (FileHeader.ofSector (d₂ 0)) 0 none).hdr.Describes
      freeMapFileSize [2] := by
    show (FileHeader.ofSector (d₂ 0)).Describes _ _
    rw [hd₂, Function.update_of_ne (by decide), hd₁, Function.update_self]
    exact hmap.ofSector_toSector (by decide) (by decide) (by decide)
  have hdirFile : (OpenFile.mk (FileHeader.ofSector (d₂ 1)) 0 none).hdr.Describes
      directoryFileSize [3] := by
    show (FileHeader.ofSector (d₂ 1)).Describes _ _
    rw [hd₂, Function.update_self]
    exact hdir.ofSector_toSector (by decide) (by decide) (by decide)
  obtain ⟨d₃, hwrite₃, hframe₃, hmap₃⟩ := BitMap.writeBack_spec hmapFile (by decide) hbits d₂
    heap.bytes
  have hunused : ∀ i < numDirEntries, (Directory.new heap.entries i).inUse = true →
      -2 ^ 31 ≤ (Directory.new heap.entries i).sector ∧
        (Directory.new heap.entries i).sector < 2 ^ 31 := fun i _ huse => nomatch huse
  obtain ⟨d₄, hwrite₄, hframe₄, hdir₄⟩ := Directory.writeBack_spec hdirFile (by decide) hunused d₃
    heap.bytes
  have hframe : ∀ s, s ≠ 2 → s ≠ 3 → d₄ s = d₂ s := by
    intro s h₂ h₃
    rw [hframe₄ s h₃, hframe₃ s h₂]
  refine ⟨{ disk := d₄, freeMapFile := ⟨FileHeader.ofSector (d₂ 0), 0, none⟩
            directoryFile := ⟨FileHeader.ofSector (d₂ 1), 0, none⟩, openState := fun _ => none },
    ?_, ⟨Layout.valid_formatted, ?_, hmapFile, hdirFile⟩, rfl⟩
  · unfold writeSystem
    simp only [Option.bind_eq_bind]
    rw [hwrite₁, Option.bind_some, ← hd₁, hwrite₂, Option.bind_some, ← hd₂,
      openSystem_eq, Option.bind_some, hwrite₃, Option.bind_some, hwrite₄, Option.bind_some]
  · refine ⟨?_, ?_, fun s hs => ?_, fun i hi => ?_, nofun⟩
    · show (FileHeader.ofSector (d₄ 0)).Describes _ _
      rw [hframe 0 (by decide) (by decide)]
      exact hmapFile
    · show (FileHeader.ofSector (d₄ 1)).Describes _ _
      rw [hframe 1 (by decide) (by decide)]
      exact hdirFile
    · have hmaps : fileByte d₄ [2] = fileByte d₃ [2] := by
        refine fileByte_congr (hframe₄ 0 (by decide)) fun s hs => ?_
        rw [List.mem_singleton] at hs
        rw [hs]
        exact hframe₄ 2 (by decide)
      have hs' : s < 1024 := hs
      have hmem : s ∈ b.clearBits ↔ 4 ≤ s := by
        rw [hclear, List.mem_range'_1]
        omega
      have htest : b.test s = true ↔ ¬ 4 ≤ s := by
        rw [← hmem, BitMap.mem_clearBits, hbits, ← Bool.not_eq_false]
        exact not_congr ⟨fun h => ⟨hs, h⟩, And.right⟩
      show (BitMap.ofBytes (fileByte d₄ [2])).test s = true ↔ s ∈ [0, 1, 2, 3]
      rw [hmaps, hmap₃ s hs, htest]
      simp only [List.mem_cons, List.not_mem_nil, or_false]
      omega
    · show (Directory.ofBytes (fileByte d₄ [3]) i).view = none
      rw [hdir₄ i hi]
      exact (Directory.view_eq_none _).mpr rfl

theorem format_spec (heap : Heap) (d : Disk) :
    ∃ fs, format heap d = some fs ∧ fs.Rep Layout.formatted ∧ fs.openState = fun _ => none := by
  obtain ⟨mapHdr, b₁, hmap, hmapDesc, hbits₁, hclear₁⟩ :=
    allocate_one heap.hdr freeMapFileSize rfl (clearBits_formatted heap.words)
  obtain ⟨dirHdr, b₂, hdir, hdirDesc, hbits₂, hclear₂⟩ :=
    allocate_one heap.hdr directoryFileSize rfl hclear₁
  have hbits : b₂.numBits = numSectors := by
    rw [hbits₂, hbits₁, BitMap.mark_numBits, BitMap.mark_numBits, BitMap.new_numBits]
  obtain ⟨fs, hwrite, hrep, hopen⟩ := writeSystem_spec heap d hmapDesc hdirDesc hbits hclear₂
  refine ⟨fs, ?_, hrep, hopen⟩
  unfold format
  simp only [Option.bind_eq_bind]
  rw [hmap, Option.bind_some]
  dsimp only
  rw [hdir, Option.bind_some]
  exact hwrite

/-! ## The constructor -/

theorem openAt_none {fs : FileSystem} {L : Layout} (h : fs.Rep L) (heap : Heap) (i : ℕ)
    (name : Name) (type : ℤ) (hopen : fs.openState = fun _ => none)
    (hkey : ∀ i < numDirEntries, ∀ f, L.files i = some f → f.key ≠ fileKey name) :
    fs.openAt heap i name type = some fs := by
  have hslot : fs.findFreeSlot = some 2 := by
    unfold findFreeSlot
    rw [hopen]
    rfl
  have hnull : fs.openFile heap name (some type) = some none := by
    rcases openFile_spec h heap name (some type) with ⟨hnull, -⟩ | ⟨j, f, -, hj, hf, hk, -, -⟩
    · exact hnull
    · exact absurd hk (hkey j hj f hf)
  have htype : fs.openType heap name type = some (none, fs) := by
    unfold openType
    rw [hslot, hnull]
    show some (fs.openState 2, fs) = _
    rw [hopen]
  have hsame : Function.update fs.openState i none = fs.openState := by
    rw [hopen]
    exact Function.update_eq_self i _
  unfold openAt
  rw [htype]
  show some { fs with openState := Function.update fs.openState i none } = some fs
  rw [hsame]

theorem length_used_put {L : Layout} {i : ℕ} {f : FileRec} (hi : i < numDirEntries)
    (hnone : L.files i = none) (hput : (L.put i (some f)).Valid) :
    (L.put i (some f)).used.length = 1 + divRoundUp f.length sectorSize + L.used.length := by
  rw [(Layout.used_put_some hi hnone f).length_eq, List.length_append, FileRec.sectors,
    List.length_cons, hput.count i hi f (L.put_files_self i _)]
  omega

/-- The layout of a file system on a formatted disk: the console files are empty. -/
def Fresh (L : Layout) : Prop :=
  ∃ i j f g, L = (Layout.formatted.put i (some f)).put j (some g) ∧ i < numDirEntries ∧
    j < numDirEntries ∧ j ≠ i ∧ f.key = stdin ∧ f.length = 0 ∧ g.key = stdout ∧ g.length = 0 ∧
    L.used.length = 6

theorem new_spec (heap : ℕ → Heap) (d : Disk) :
    ∃ fs L, new heap d true = some fs ∧ fs.Rep L ∧ Fresh L ∧ fs.openState = fun _ => none := by
  obtain ⟨fs, hformat, hrep, hopen⟩ := format_spec (heap 0) d
  have hin := openAt_none hrep (heap 1) 0 stdin 2 hopen nofun
  have hout := openAt_none hrep (heap 2) 1 stdout 3 hopen nofun
  obtain ⟨d₁, i, f, hcreate₁, hi, hnone, hkey₁, hlen₁, hrep₁⟩ :=
    create_success hrep (heap 3) stdin 0 (Nat.zero_le _) nofun
      ⟨0, by decide, rfl⟩ (by rw [Layout.used_formatted]; decide)
  have hused₁ := length_used_put hi hnone hrep₁.valid
  rw [hlen₁, Layout.used_formatted] at hused₁
  have hother : ∀ k < numDirEntries, ∀ f', (Layout.formatted.put i (some f)).files k = some f' →
      f'.key ≠ fileKey stdout := by
    intro k _ f' hk
    by_cases hki : k = i
    · subst hki
      rw [Layout.put_files_self] at hk
      cases hk
      rw [hkey₁]
      decide
    · rw [Layout.put_files_of_ne hki] at hk
      exact nomatch hk
  have hslot : ∃ k < numDirEntries, (Layout.formatted.put i (some f)).files k = none := by
    by_cases h0 : i = 0
    · exact ⟨1, by decide, Layout.put_files_of_ne (by omega) _⟩
    · exact ⟨0, by decide, Layout.put_files_of_ne (by omega) _⟩
  obtain ⟨d₂, j, g, hcreate₂, hj, hnone₂, hkey₂, hlen₂, hrep₂⟩ :=
    create_success hrep₁ (heap 4) stdout 0 (Nat.zero_le _) hother hslot
      (by rw [hused₁]; decide)
  have hused₂ := length_used_put hj hnone₂ hrep₂.valid
  rw [hlen₂, hused₁] at hused₂
  have hji : j ≠ i := by
    rintro rfl
    rw [Layout.put_files_self] at hnone₂
    exact nomatch hnone₂
  refine ⟨{ fs with disk := d₂ }, _, ?_, hrep₂,
    ⟨i, j, f, g, rfl, hi, hj, hji, hkey₁, hlen₁, hkey₂, hlen₂, hused₂⟩, hopen⟩
  rw [Int.natCast_zero] at hcreate₁ hcreate₂
  unfold new
  simp only [Option.bind_eq_bind, if_true]
  rw [hformat, Option.bind_some, hin, Option.bind_some, hout, Option.bind_some, hcreate₁,
    Option.bind_some, hcreate₂, Option.bind_some]

/-- There is room for another file. -/
theorem Fresh.create {fs : FileSystem} {L : Layout} (h : fs.Rep L) (hfresh : Fresh L) (heap : Heap)
    {name : Name} {size : ℕ} (hin : fileKey name ≠ stdin) (hout : fileKey name ≠ stdout)
    (hsize : size ≤ maxFileSize) :
    ∃ d' i f, fs.create heap name size = some (true, { fs with disk := d' }) ∧
      i < numDirEntries ∧ L.files i = none ∧ f.key = fileKey name ∧ f.length = size ∧
      Rep { fs with disk := d' } (L.put i (some f)) := by
  obtain ⟨i, j, f, g, rfl, hi, hj, hji, hkf, -, hkg, -, hused⟩ := hfresh
  have hfiles : ∀ k, k ≠ i → k ≠ j →
      ((Layout.formatted.put i (some f)).put j (some g)).files k = none := by
    intro k hki hkj
    rw [Layout.put_files_of_ne hkj, Layout.put_files_of_ne hki]
    rfl
  refine create_success h heap name size hsize (fun k _ x hx hkey => ?_) ?_ ?_
  · by_cases hkj : k = j
    · subst hkj
      rw [Layout.put_files_self] at hx
      cases hx
      exact hout (hkey.symm.trans hkg)
    · by_cases hki : k = i
      · subst hki
        rw [Layout.put_files_of_ne hkj, Layout.put_files_self] at hx
        cases hx
        exact hin (hkey.symm.trans hkf)
      · rw [hfiles k hki hkj] at hx
        exact nomatch hx
  · have hslot : ∃ k < 3, k ≠ i ∧ k ≠ j := by
      by_contra hno
      push Not at hno
      have h0 := hno 0 (by decide)
      have h1 := hno 1 (by decide)
      have h2 := hno 2 (by decide)
      omega
    obtain ⟨k, hk, hki, hkj⟩ := hslot
    exact ⟨k, Nat.lt_of_lt_of_le hk (by decide), hfiles k hki hkj⟩
  · have hroom : divRoundUp size sectorSize ≤ 126 := divRoundUp_le_numDirect hsize
    rw [hused]
    show 6 + (1 + divRoundUp size sectorSize) ≤ 1024
    omega

end FileSystem

end Nachos.Filesys
