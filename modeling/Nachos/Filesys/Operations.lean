import Nachos.Filesys.Layout

/-!
# What the operations of the file system do

`FileSystem.Rep fs L`: the disk holds the layout `L`, and the two system files are open. Each
operation is specified in terms of the layout: `create_spec`, `openFile_spec`, `remove_spec`,
`Rep.writeAt`, `format_spec`. None of them can fail an `ASSERT`.
-/

namespace Nachos

open Buffer Filesys

/-! ## The system files -/

/-- The bytes that `FetchFrom` has read. -/
theorem splice_read_apply (buf : ℕ → Byte) {n k : ℕ} (c : ℕ → Byte) (hk : k < n) :
    splice buf 0 ((List.range n).map c).length (fun k => ((List.range n).map c).getD k 0) k = c k := by
  rw [List.length_map, List.length_range, splice_inside (Nat.zero_le k) (by omega), Nat.sub_zero,
    List.getD_eq_getElem _ _ (by simpa using hk), List.getElem_map, List.getElem_range]

theorem clip_self (n : ℕ) : clip n n 0 = n := by
  unfold clip
  omega

/-- A whole file of the disk. -/
theorem FileHeader.fits_whole {hdr : FileHeader} {length : ℕ} {blocks : List ℕ}
    (he : Extent length blocks) : hdr.Fits length 0 := by
  have hlen : length ≤ 524288 := he.length_le
  exact .inr (.inr ⟨le_rfl, by omega⟩)

theorem extent_singleton {length s : ℕ} (h₀ : 0 < length) (h₁ : length ≤ sectorSize)
    (hs : s < numSectors) : Extent length [s] where
  count := by
    simp only [sectorSize] at h₁
    unfold divRoundUp
    simp only [sectorSize, List.length_singleton]
    split_ifs <;> omega
  nodup := List.nodup_singleton s
  onDisk := by simpa using hs

section

variable {file : Filesys.OpenFile} {s : ℕ}

theorem BitMap.numWords_eq {b : BitMap} {n : ℕ} (hn : bitsInWord ∣ n) (hb : b.numBits = n) :
    b.numWords * 4 = n / 8 := by
  unfold BitMap.numWords divRoundUp
  simp only [bitsInWord] at *
  rw [hb]
  split_ifs <;> omega

/-- A bitmap of whole words fills its file. -/
theorem BitMap.fetchFrom_bits {n : ℕ} {blocks : List ℕ} (hn : bitsInWord ∣ n)
    (hf : file.hdr.Describes (n / 8) blocks) (he : Extent (n / 8) blocks)
    {b : BitMap} (hb : b.numBits = n) (d : Disk) (junk : ℕ → Byte) :
    ∃ b', b.fetchFrom file d junk = some b' ∧ b'.numBits = n ∧
      ∀ i < n, b'.test i = (BitMap.ofBytes (fileByte d blocks)).test i := by
  unfold BitMap.fetchFrom
  rw [BitMap.numWords_eq hn hb, Indexed.readAt_spec hf he d junk (FileHeader.fits_whole he),
    Int.toNat_zero, clip_self, Option.map_some]
  refine ⟨_, rfl, hb, fun i hi => ?_⟩
  rw [BitMap.test_eq_getLsbD, BitMap.test_eq_getLsbD]
  refine congrArg (BitVec.getLsbD · (i % bitsInWord)) (wordAt_congr fun j hj => ?_)
  have hk : 4 * (i / bitsInWord) + j < n / 8 := by
    simp only [bitsInWord] at *
    omega
  rw [splice_read_apply _ _ hk, Nat.zero_add]

theorem BitMap.fetchFrom_spec (hf : file.hdr.Describes freeMapFileSize [s]) (hs : s < numSectors)
    {b : BitMap} (hb : b.numBits = numSectors) (d : Disk) (junk : ℕ → Byte) :
    ∃ b', b.fetchFrom file d junk = some b' ∧ b'.numBits = numSectors ∧
      ∀ i < numSectors, b'.test i = (BitMap.ofBytes (fileByte d [s])).test i :=
  BitMap.fetchFrom_bits (by decide) hf (extent_singleton (by decide) (by decide) hs) hb d junk

theorem BitMap.writeBack_bits {n : ℕ} {blocks : List ℕ} (hn : bitsInWord ∣ n)
    (hf : file.hdr.Describes (n / 8) blocks) (he : Extent (n / 8) blocks)
    {b : BitMap} (hb : b.numBits = n) (d : Disk) (junk : ℕ → Byte) :
    ∃ d', b.writeBack file d junk = some d' ∧ (∀ s', s' ∉ blocks → d' s' = d s') ∧
      ∀ i < n, (BitMap.ofBytes (fileByte d' blocks)).test i = b.test i := by
  unfold BitMap.writeBack
  obtain ⟨d', hwrite, hframe, hbytes⟩ := Indexed.writeAt_spec hf he d junk (bytesOf b.map)
    (FileHeader.fits_whole he)
  rw [Int.toNat_zero, clip_self] at hbytes
  refine ⟨d', ?_, hframe, fun i hi => ?_⟩
  · rw [BitMap.numWords_eq hn hb, hwrite, Option.map_some]
  · rw [BitMap.test_eq_getLsbD, BitMap.test_eq_getLsbD]
    refine congrArg (BitVec.getLsbD · (i % bitsInWord)) ?_
    rw [← wordAt_bytesOf b.map (i / bitsInWord)]
    refine wordAt_congr fun j hj => ?_
    have hk : 4 * (i / bitsInWord) + j < n / 8 := by
      simp only [bitsInWord] at *
      omega
    rw [hbytes _ hk, if_pos ⟨Nat.zero_le _, by omega⟩, Nat.sub_zero]

theorem BitMap.writeBack_spec (hf : file.hdr.Describes freeMapFileSize [s]) (hs : s < numSectors)
    {b : BitMap} (hb : b.numBits = numSectors) (d : Disk) (junk : ℕ → Byte) :
    ∃ d', b.writeBack file d junk = some d' ∧ (∀ s', s' ≠ s → d' s' = d s') ∧
      ∀ i < numSectors, (BitMap.ofBytes (fileByte d' [s])).test i = b.test i := by
  obtain ⟨d', hwrite, hframe, hbits⟩ := BitMap.writeBack_bits (by decide) hf
    (extent_singleton (by decide) (by decide) hs) hb d junk
  exact ⟨d', hwrite, fun s' hs' => hframe s' (by simpa using hs'), hbits⟩

theorem Directory.fetchFrom_spec (hf : file.hdr.Describes directoryFileSize [s])
    (hs : s < numSectors) (t : Directory) (d : Disk) (junk : ℕ → Byte) :
    ∃ t', t.fetchFrom file d junk = some t' ∧
      ∀ i < numDirEntries, (t' i).view = (Directory.ofBytes (fileByte d [s]) i).view := by
  unfold Directory.fetchFrom
  have he : Extent directoryFileSize [s] := extent_singleton (by decide) (by decide) hs
  rw [Indexed.readAt_spec hf he d junk (FileHeader.fits_whole he), Int.toNat_zero, clip_self,
    Option.map_some]
  refine ⟨_, rfl, fun i hi => ?_⟩
  have hi' : i < 10 := hi
  refine DirectoryEntry.view_ofBytes_congr fun j hj => ?_
  have hj' : j < 20 := hj
  have hk : directoryEntrySize * i + j < directoryFileSize := show 20 * i + j < 200 by omega
  rw [splice_read_apply _ _ hk, Nat.zero_add]

theorem Directory.writeBack_spec (hf : file.hdr.Describes directoryFileSize [s])
    (hs : s < numSectors) {t : Directory}
    (ht : ∀ i < numDirEntries, (t i).inUse = true → -2 ^ 31 ≤ (t i).sector ∧ (t i).sector < 2 ^ 31)
    (d : Disk) (junk : ℕ → Byte) :
    ∃ d', t.writeBack file d junk = some d' ∧ (∀ s', s' ≠ s → d' s' = d s') ∧
      ∀ i < numDirEntries, (Directory.ofBytes (fileByte d' [s]) i).view = (t i).view := by
  unfold Directory.writeBack
  have he : Extent directoryFileSize [s] := extent_singleton (by decide) (by decide) hs
  obtain ⟨d', hwrite, hframe, hbytes⟩ := Indexed.writeAt_spec hf he d junk t.toBytes
    (FileHeader.fits_whole he)
  rw [Int.toNat_zero, clip_self] at hbytes
  refine ⟨d', ?_, fun s' hs' => hframe s' (by simpa using hs'), fun i hi => ?_⟩
  · rw [hwrite, Option.map_some]
  · have hi' : i < 10 := hi
    rw [← Directory.view_ofBytes_toBytes (ht i hi)]
    refine DirectoryEntry.view_ofBytes_congr fun j hj => ?_
    have hj' : j < 20 := hj
    show fileByte d' [s] (20 * i + j) = t.toBytes (20 * i + j)
    rw [hbytes _ (show 20 * i + j < 200 by omega), if_pos, Nat.sub_zero]
    exact ⟨Nat.zero_le _, show _ < 0 + 200 by omega⟩

end

namespace Filesys

/-- The table holds the entries of the layout. -/
def Views (t : Directory) (L : Layout) : Prop :=
  ∀ i < numDirEntries, (t i).view = (L.files i).map fun f => (f.key, (f.sector : ℤ))

namespace Views

variable {t t' : Directory} {L : Layout} {name : Name} {i : ℕ} {f : FileRec}

/-- `Find` in the terms of the layout. -/
theorem find_cases (h : Views t L) (name : Name) :
    (t.findIndex name = none ∧ t.find name = -1 ∧
      ∀ i < numDirEntries, ∀ f, L.files i = some f → f.key ≠ fileKey name) ∨
    ∃ i f, i < numDirEntries ∧ L.files i = some f ∧ f.key = fileKey name ∧
      t.findIndex name = some i ∧ t.find name = f.sector := by
  cases hf : t.findIndex name with
  | none =>
    refine .inl ⟨rfl, ?_, fun i hi f hfile hkey => ?_⟩
    · unfold Directory.find
      rw [hf]
    · refine Directory.findIndex_eq_none hf hi f.sector ?_
      rw [h i hi, hfile, Option.map_some, hkey]
  | some i =>
    obtain ⟨hi, hv⟩ := Directory.findIndex_eq_some hf
    rw [h i hi] at hv
    obtain ⟨f, hfile, heq⟩ := Option.map_eq_some_iff.mp hv
    obtain ⟨hkey, hsector⟩ := Prod.mk.inj heq
    refine .inr ⟨i, f, hi, hfile, hkey, rfl, ?_⟩
    unfold Directory.find
    rw [hf]
    exact hsector.symm

/-- The sector numbers of the entries in use are small. -/
theorem sector_lt (h : Views t L) (hv : L.Valid) (hi : i < numDirEntries)
    (huse : (t i).inUse = true) : -2 ^ 31 ≤ (t i).sector ∧ (t i).sector < 2 ^ 31 := by
  have hview := h i hi
  unfold DirectoryEntry.view at hview
  rw [if_pos huse] at hview
  obtain ⟨f, hfile, heq⟩ := Option.map_eq_some_iff.mp hview.symm
  have hlt : f.sector < 1024 := hv.onDisk _ (Layout.mem_used hi hfile List.mem_cons_self)
  have hsector : (f.sector : ℤ) = (t i).sector := (Prod.mk.inj heq).2
  omega

/-- One entry is changed. -/
theorem put (h : Views t L) {o : Option FileRec}
    (hnew : (t' i).view = o.map fun f => (f.key, (f.sector : ℤ)))
    (hkeep : ∀ j, j ≠ i → t' j = t j) : Views t' (L.put i o) := by
  intro j hj
  by_cases hji : j = i
  · subst hji
    rw [Layout.put_files_self]
    exact hnew
  · rw [Layout.put_files_of_ne hji, hkeep j hji]
    exact h j hj

end Views

namespace FileSystem

/-- The file system with the layout `L`. -/
structure Rep (fs : FileSystem) (L : Layout) : Prop where
  valid : L.Valid
  stored : L.Stored fs.disk
  mapFile : fs.freeMapFile.hdr.Describes freeMapFileSize [L.mapBlock]
  dirFile : fs.directoryFile.hdr.Describes directoryFileSize [L.dirBlock]

variable {fs : FileSystem} {L : Layout} {i : ℕ} {f : FileRec}

namespace Rep

theorem mapBlock_lt (h : fs.Rep L) : L.mapBlock < numSectors :=
  h.valid.onDisk _ (Layout.mem_used_system L.mem_system_mapBlock)

theorem dirBlock_lt (h : fs.Rep L) : L.dirBlock < numSectors :=
  h.valid.onDisk _ (Layout.mem_used_system L.mem_system_dirBlock)

theorem fetchDirectory (h : fs.Rep L) (heap : Heap) :
    ∃ t, fs.fetchDirectory heap = some t ∧ Views t L := by
  obtain ⟨t, hfetch, hview⟩ := Directory.fetchFrom_spec h.dirFile h.dirBlock_lt
    (Directory.new heap.entries) fs.disk heap.bytes
  exact ⟨t, hfetch, fun i hi => (hview i hi).trans (h.stored.entries i hi)⟩

theorem fetchFreeMap (h : fs.Rep L) (heap : Heap) :
    ∃ b, fs.fetchFreeMap heap = some b ∧ b.numBits = numSectors ∧
      ∀ s < numSectors, b.test s = true ↔ s ∈ L.used := by
  obtain ⟨b, hfetch, hbits, htest⟩ := BitMap.fetchFrom_spec h.mapFile h.mapBlock_lt
    (BitMap.new_numBits heap.words numSectors) fs.disk heap.bytes
  refine ⟨b, hfetch, hbits, fun s hs => ?_⟩
  rw [htest s hs]
  exact h.stored.bits s hs

end Rep

/-! ## `Open` -/

theorem openFile_spec (h : fs.Rep L) (heap : Heap) (name : Name) (type : Option ℤ) :
    (fs.openFile heap name type = some none ∧
      ∀ i < numDirEntries, ∀ f, L.files i = some f → f.key ≠ fileKey name) ∨
    ∃ i f hdr, i < numDirEntries ∧ L.files i = some f ∧ f.key = fileKey name ∧
      hdr.Describes f.length f.blocks ∧
      fs.openFile heap name type = some (some { hdr := hdr, seekPosition := 0, type := type }) := by
  obtain ⟨t, hfetch, hview⟩ := h.fetchDirectory heap
  have hopen : fs.openFile heap name type =
      if 0 ≤ t.find name then (OpenFile.new fs.disk (t.find name) type).map some
      else some none := by
    unfold openFile
    rw [hfetch]
    rfl
  rw [hopen]
  rcases hview.find_cases name with ⟨-, hfind, hkey⟩ | ⟨i, f, hi, hfile, hkey, -, hfind⟩
  · rw [hfind]
    exact .inl ⟨rfl, hkey⟩
  · refine .inr ⟨i, f, _, hi, hfile, hkey, h.stored.headers i hi f hfile, ?_⟩
    have hlt := h.valid.onDisk _ (Layout.mem_used hi hfile List.mem_cons_self)
    rw [hfind, if_pos (Int.natCast_nonneg _)]
    unfold OpenFile.new FileHeader.fetchFrom
    rw [Disk.readSector_natCast _ hlt]
    rfl

/-! ## `Create` -/

theorem divRoundUp_le_numDirect {size : ℕ} (h : size ≤ maxFileSize) :
    divRoundUp size sectorSize ≤ numDirect := by
  have h' : size ≤ 64512 := h
  show divRoundUp size 512 ≤ 126
  unfold divRoundUp
  split_ifs <;> omega

/-- `Create` once the name is known to be new and `x` is the sector of the header. -/
theorem createAt_spec (h : fs.Rep L) (heap : Heap) {t : Directory} {b : BitMap} {name : Name}
    {size x : ℕ} (hview : Views t L) (hindex : t.findIndex name = none)
    (hkey : ∀ i < numDirEntries, ∀ f, L.files i = some f → f.key ≠ fileKey name)
    (hbits : b.numBits = numSectors) (htest : ∀ s < numSectors, b.test s = true ↔ s ∈ L.used)
    (hx : x < numSectors) (hclear : b.test x = false) (hsize : size ≤ maxFileSize) :
    (fs.createAt heap t (b.mark x) x name size = some (false, fs) ∧
      ((∀ i < numDirEntries, L.files i ≠ none) ∨
        numSectors < L.used.length + (1 + divRoundUp size sectorSize))) ∨
    ∃ d' i f, fs.createAt heap t (b.mark x) x name size = some (true, { fs with disk := d' }) ∧
      i < numDirEntries ∧ L.files i = none ∧ f.key = fileKey name ∧ f.length = size ∧
      (∀ s ∈ f.sectors, s ∉ L.used) ∧ Rep { fs with disk := d' } (L.put i (some f)) ∧
      ∀ s ∈ L.used, s ∉ L.system → d' s = fs.disk s := by
  unfold createAt
  rcases t.add_cases name x with ⟨hadd, hreason⟩ | ⟨t', i, hadd, hi, hnone, -, hnew, -, hkeep⟩
  · rw [hadd]
    refine .inl ⟨rfl, .inl fun i hi hfile => ?_⟩
    rcases hreason with hsome | hfull
    · rw [hindex] at hsome
      exact Bool.false_ne_true hsome
    · refine hfull i hi ?_
      rw [hview i hi, hfile, Option.map_none]
  rw [hadd]
  rcases heap.hdr.allocate_cases (b.mark x) size with ⟨hlack, ha⟩ |
    ⟨hdr, b', blocks, ha, hdesc, hlen, hnodup, hfree, -, hbits', -, htest'⟩
  · have hnum := h.valid.numClear hbits htest
    have hmark := BitMap.numClear_mark (hbits ▸ hx) hclear
    refine .inl ⟨?_, .inr (by omega)⟩
    simp only [ha]
  have hslot : L.files i = none := by
    have hv := hview i hi
    rw [hnone] at hv
    exact Option.map_eq_none_iff.mp hv.symm
  have hxused : x ∉ L.used := fun hmem => by
    rw [(htest x hx).mpr hmem] at hclear
    exact nomatch hclear
  have hblocks : ∀ s ∈ blocks, s < numSectors ∧ s ∉ L.used ∧ s ≠ x := by
    intro s hs
    obtain ⟨hlt, hts⟩ := hfree s hs
    rw [BitMap.mark_numBits, hbits] at hlt
    rw [BitMap.test_mark, Bool.or_eq_false_iff, decide_eq_false_iff_not] at hts
    refine ⟨hlt, fun hmem => ?_, hts.1⟩
    rw [(htest s hlt).mpr hmem] at hts
    exact nomatch hts.2
  set f : FileRec := ⟨fileKey name, x, size, blocks⟩ with hf
  have hsectors : ∀ s ∈ f.sectors, s < numSectors ∧ s ∉ L.used := by
    intro s hs
    rcases List.mem_cons.mp hs with rfl | hs
    · exact ⟨hx, hxused⟩
    · exact ⟨(hblocks s hs).1, (hblocks s hs).2.1⟩
  have hv' : (L.put i (some f)).Valid := h.valid.put_some hi hslot
    (List.nodup_cons.mpr ⟨fun hmem => (hblocks x hmem).2.2 rfl, hnodup⟩) hsectors hlen hsize hkey
  have hview' : Views t' (L.put i (some f)) := hview.put hnew hkeep
  have hslot' : (L.put i (some f)).files i = some f := L.put_files_self i _
  obtain ⟨hx0, -, hxmap, hxdir⟩ := hv'.ne_system hi hslot' (s := x) List.mem_cons_self
  obtain ⟨h0map, h0dir⟩ := h.valid.headers_ne_blocks (s := freeMapSector) (.inl rfl)
  -- the three writes
  have hwrite₁ : hdr.writeBack fs.disk x = some (Function.update fs.disk x hdr.toSector) :=
    Disk.writeSector_natCast _ hx _
  obtain ⟨d₂, hwrite₂, hframe₂, hentries⟩ := Directory.writeBack_spec h.dirFile h.dirBlock_lt
    (fun j hj => hview'.sector_lt hv' hj) (Function.update fs.disk x hdr.toSector) heap.bytes
  obtain ⟨d₃, hwrite₃, hframe₃, hmap⟩ := BitMap.writeBack_spec h.mapFile h.mapBlock_lt
    (hbits'.trans hbits) d₂ heap.bytes
  have hframe : ∀ s, s ≠ L.mapBlock → s ≠ L.dirBlock → s ≠ x → d₃ s = fs.disk s := by
    intro s hm hd hsx
    rw [hframe₃ s hm, hframe₂ s hd, Function.update_of_ne hsx]
  refine .inr ⟨d₃, i, f, ?_, hi, hslot, rfl, rfl, fun s hs => (hsectors s hs).2,
    ⟨hv', ?_, h.mapFile, h.dirFile⟩, fun s hs hsys => ?_⟩
  · simp only [ha, hwrite₁, hwrite₂, hwrite₃, Option.bind_eq_bind, Option.bind_some]
  · refine h.stored.put h.valid hv' hi (fun s hs => ?_) (fun j hj => ?_) (fun g hg => ?_)
      fun s hm hd hsf => hframe s hm hd (hsf f rfl)
    · rw [hmap s hs, htest', BitMap.test_mark, (Layout.used_put_some hi hslot f).mem_iff,
        Bool.or_eq_true, Bool.or_eq_true, decide_eq_true_iff, decide_eq_true_iff, htest s hs,
        List.mem_append]
      show _ ↔ s ∈ x :: blocks ∨ _
      rw [List.mem_cons]
      exact or_left_comm.trans or_assoc.symm
    · have hdirs : fileByte d₃ [L.dirBlock] = fileByte d₂ [L.dirBlock] := by
        refine fileByte_congr (hframe₃ _ h0map) fun s hs => ?_
        rw [List.mem_singleton] at hs
        rw [hs]
        exact hframe₃ _ h.valid.mapBlock_ne_dirBlock.symm
      rw [hdirs, hentries j hj]
      exact hview' j hj
    · cases hg
      show (FileHeader.ofSector (d₃ x)).Describes size blocks
      rw [hframe₃ x hxmap, hframe₂ x hxdir, Function.update_self]
      refine hdesc.ofSector_toSector hsize ?_ fun s hs => (hblocks s hs).1
      rw [hlen]
      exact divRoundUp_le_numDirect hsize
  · refine hframe s ?_ ?_ fun heq => hxused (heq ▸ hs)
    · exact fun heq => hsys (heq ▸ L.mem_system_mapBlock)
    · exact fun heq => hsys (heq ▸ L.mem_system_dirBlock)

/-- `Create` fails if the name exists, or for lack of entries or of sectors, and then changes
nothing. Else it puts a new file into an unused entry; no other file changes. -/
theorem create_spec (h : fs.Rep L) (heap : Heap) (name : Name) {size : ℕ}
    (hsize : size ≤ maxFileSize) :
    (fs.create heap name size = some (false, fs) ∧
      ((∃ i < numDirEntries, ∃ f, L.files i = some f ∧ f.key = fileKey name) ∨
        (∀ i < numDirEntries, L.files i ≠ none) ∨
        numSectors < L.used.length + (1 + divRoundUp size sectorSize))) ∨
    ∃ d' i f, fs.create heap name size = some (true, { fs with disk := d' }) ∧
      i < numDirEntries ∧ L.files i = none ∧ f.key = fileKey name ∧ f.length = size ∧
      (∀ j < numDirEntries, ∀ g, L.files j = some g → g.key ≠ fileKey name) ∧
      (∀ s ∈ f.sectors, s ∉ L.used) ∧ Rep { fs with disk := d' } (L.put i (some f)) ∧
      ∀ s ∈ L.used, s ∉ L.system → d' s = fs.disk s := by
  obtain ⟨t, ht, hview⟩ := h.fetchDirectory heap
  obtain ⟨b, hb, hbits, htest⟩ := h.fetchFreeMap heap
  have hcreate : fs.create heap name size = if t.find name ≠ -1 then some (false, fs)
      else if b.find.1 = -1 then some (false, fs)
      else fs.createAt heap t b.find.2 b.find.1 name size := by
    unfold create
    rw [ht, hb]
    rfl
  rw [hcreate]
  rcases hview.find_cases name with ⟨hindex, hfind, hkey⟩ | ⟨i, f, hi, hfile, hkey, -, hfind⟩
  swap
  · refine .inl ⟨if_pos ?_, .inl ⟨i, hi, f, hfile, hkey⟩⟩
    rw [hfind]
    omega
  rw [if_neg (not_not.mpr hfind)]
  rcases b.find_cases with ⟨hfull, hf⟩ | ⟨x, hx, hclear, hf⟩
  · refine .inl ⟨if_pos (by rw [hf]), .inr (.inr ?_)⟩
    have hnum := h.valid.numClear hbits htest
    have hzero : b.numClear = 0 := by
      rw [← BitMap.length_clearBits, hfull, List.length_nil]
    omega
  · rw [hf, if_neg (show (x : ℤ) ≠ -1 by omega)]
    rw [hbits] at hx
    rcases createAt_spec h heap hview hindex hkey hbits htest hx hclear hsize with
      ⟨hfalse, hreason⟩ | ⟨d', i, f, htrue, hi, hslot, hk, hlen, hnew, hrep, hframe⟩
    · exact .inl ⟨hfalse, .inr hreason⟩
    · exact .inr ⟨d', i, f, htrue, hi, hslot, hk, hlen, hkey, hnew, hrep, hframe⟩

/-- A new name is created if there is an entry and there are sectors for it. -/
theorem create_success (h : fs.Rep L) (heap : Heap) (name : Name) (size : ℕ)
    (hsize : size ≤ maxFileSize)
    (hkey : ∀ i < numDirEntries, ∀ f, L.files i = some f → f.key ≠ fileKey name)
    (hslot : ∃ i < numDirEntries, L.files i = none)
    (hroom : L.used.length + (1 + divRoundUp size sectorSize) ≤ numSectors) :
    ∃ d' i f, fs.create heap name size = some (true, { fs with disk := d' }) ∧
      i < numDirEntries ∧ L.files i = none ∧ f.key = fileKey name ∧ f.length = size ∧
      Rep { fs with disk := d' } (L.put i (some f)) := by
  rcases create_spec h heap name hsize with ⟨-, ⟨i, hi, f, hf, hk⟩ | hfull | hlack⟩ |
    ⟨d', i, f, hcreate, hi, hnone, hk, hlen, -, -, hrep, -⟩
  · exact absurd hk (hkey i hi f hf)
  · obtain ⟨i, hi, hnone⟩ := hslot
    exact absurd hnone (hfull i hi)
  · omega
  · exact ⟨d', i, f, hcreate, hi, hnone, hk, hlen, hrep⟩

/-! ## `Remove` -/

/-- `Remove` once the file is found. -/
theorem removeAt_spec (h : fs.Rep L) (heap : Heap) {t : Directory} {name : Name}
    (hview : Views t L) (hi : i < numDirEntries) (hfile : L.files i = some f)
    (hindex : t.findIndex name = some i) :
    ∃ d', fs.removeAt heap t f.sector name = some (true, { fs with disk := d' }) ∧
      Rep { fs with disk := d' } (L.put i none) ∧
      ∀ s, s ∉ L.system → d' s = fs.disk s := by
  obtain ⟨b, hb, hbits, htest⟩ := h.fetchFreeMap heap
  have hlt : f.sector < numSectors := h.valid.onDisk _ (Layout.mem_used hi hfile List.mem_cons_self)
  have hextent := h.valid.extent hi hfile
  have hmarked : ∀ s ∈ f.blocks, s < b.numBits ∧ b.test s = true := by
    intro s hs
    rw [hbits]
    exact ⟨hextent.onDisk s hs, (htest s (hextent.onDisk s hs)).mpr
      (Layout.mem_used hi hfile (List.mem_cons_of_mem _ hs))⟩
  obtain ⟨b', hdealloc, hbits', htest'⟩ := FileHeader.deallocate_spec
    (h.stored.headers i hi f hfile) hextent.nodup hmarked
  obtain ⟨t', hremove, hunused, -, hkeep⟩ := Directory.remove_spec hindex
  have hv' : (L.put i none).Valid := h.valid.put_none hi hfile
  have hview' : Views t' (L.put i none) := hview.put hunused hkeep
  have hperm := Layout.used_put_none hi hfile
  obtain ⟨h0map, h0dir⟩ := h.valid.headers_ne_blocks (s := freeMapSector) (.inl rfl)
  -- the two writes
  have hbits'' : (b'.clear f.sector).numBits = numSectors := hbits'.trans hbits
  obtain ⟨d₁, hwrite₁, hframe₁, hmap⟩ := BitMap.writeBack_spec h.mapFile h.mapBlock_lt hbits''
    fs.disk heap.bytes
  obtain ⟨d₂, hwrite₂, hframe₂, hentries⟩ := Directory.writeBack_spec h.dirFile h.dirBlock_lt
    (fun j hj => hview'.sector_lt hv' hj) d₁ heap.bytes
  have hframe : ∀ s, s ≠ L.mapBlock → s ≠ L.dirBlock → d₂ s = fs.disk s := by
    intro s hm hd
    rw [hframe₂ s hd, hframe₁ s hm]
  refine ⟨d₂, ?_, ⟨hv', ?_, h.mapFile, h.dirFile⟩, fun s hsys => ?_⟩
  · have hfetch : FileHeader.fetchFrom fs.disk f.sector =
        some (FileHeader.ofSector (fs.disk f.sector)) := by
      unfold FileHeader.fetchFrom
      rw [Disk.readSector_natCast _ hlt, Option.map_some]
    have hrange : b'.inRange f.sector = true := by
      unfold BitMap.inRange
      rw [hbits', hbits, Bool.and_eq_true, decide_eq_true_iff, decide_eq_true_iff]
      exact ⟨Int.natCast_nonneg _, by exact_mod_cast hlt⟩
    unfold removeAt
    simp only [hfetch, hb, hdealloc, hrange, hremove, hwrite₁, hwrite₂, Option.bind_eq_bind,
      Option.bind_some, Option.getD_some, if_true, Int.toNat_natCast]
  · refine h.stored.put h.valid hv' hi (fun s hs => ?_) (fun j hj => ?_) nofun
      fun s hm hd _ => hframe s hm hd
    · have hmaps : fileByte d₂ [L.mapBlock] = fileByte d₁ [L.mapBlock] := by
        refine fileByte_congr (hframe₂ _ h0dir) fun s hs => ?_
        rw [List.mem_singleton] at hs
        rw [hs]
        exact hframe₂ _ h.valid.mapBlock_ne_dirBlock
      have hnodup := hperm.nodup_iff.mp h.valid.nodup
      rw [hmaps, hmap s hs, BitMap.test_clear, htest', Bool.and_eq_true, Bool.and_eq_true,
        decide_eq_true_iff, decide_eq_true_iff, htest s hs, hperm.mem_iff, List.mem_append]
      constructor
      · rintro ⟨hne, hblocks, hs | hs⟩
        · exact absurd hs (List.not_mem_cons_of_ne_of_not_mem hne hblocks)
        · exact hs
      · intro hs
        have hnot : s ∉ f.sectors := fun hmem => (List.nodup_append.mp hnodup).2.2 s hmem s hs rfl
        exact ⟨List.ne_of_not_mem_cons hnot, List.not_mem_of_not_mem_cons hnot, .inr hs⟩
    · rw [hentries j hj]
      exact hview' j hj
  · refine hframe s ?_ ?_
    · exact fun heq => hsys (heq ▸ L.mem_system_mapBlock)
    · exact fun heq => hsys (heq ▸ L.mem_system_dirBlock)

/-- `Remove` takes the file out of the directory and frees its sectors; no other file changes. -/
theorem remove_spec (h : fs.Rep L) (heap : Heap) (name : Name) :
    (fs.remove heap name = some (false, fs) ∧
      ∀ i < numDirEntries, ∀ f, L.files i = some f → f.key ≠ fileKey name) ∨
    ∃ d' i f, fs.remove heap name = some (true, { fs with disk := d' }) ∧ i < numDirEntries ∧
      L.files i = some f ∧ f.key = fileKey name ∧ Rep { fs with disk := d' } (L.put i none) ∧
      ∀ s, s ∉ L.system → d' s = fs.disk s := by
  obtain ⟨t, ht, hview⟩ := h.fetchDirectory heap
  have hremove : fs.remove heap name = if t.find name = -1 then some (false, fs)
      else fs.removeAt heap t (t.find name) name := by
    unfold remove
    rw [ht]
    rfl
  rw [hremove]
  rcases hview.find_cases name with ⟨-, hfind, hkey⟩ | ⟨i, f, hi, hfile, hkey, hindex, hfind⟩
  · exact .inl ⟨if_pos hfind, hkey⟩
  · rw [hfind, if_neg (show (f.sector : ℤ) ≠ -1 by omega)]
    obtain ⟨d', hrm, hrep, hframe⟩ := removeAt_spec h heap hview hi hfile hindex
    exact .inr ⟨d', i, f, hrm, hi, hfile, hkey, hrep, hframe⟩

/-! ## `WriteAt` -/

/-- A file's data sectors tell nothing about the layout. -/
theorem Rep.writeAt (h : fs.Rep L) (hi : i < numDirEntries) (hfile : L.files i = some f)
    {hdr : FileHeader} (hd : hdr.Describes f.length f.blocks) (junk source : ℕ → Byte)
    {numBytes position : ℤ} (hfits : hdr.Fits numBytes position) :
    ∃ d', Indexed.writeAt hdr fs.disk junk source numBytes position =
        some ((clip f.length numBytes position.toNat : ℤ), d') ∧
      Rep { fs with disk := d' } L ∧ (∀ s, s ∉ f.blocks → d' s = fs.disk s) ∧
      ∀ offset < f.length, fileByte d' f.blocks offset =
        if position.toNat ≤ offset ∧
            offset < position.toNat + clip f.length numBytes position.toNat then
          source (offset - position.toNat)
        else fileByte fs.disk f.blocks offset := by
  obtain ⟨d', hwrite, hframe, hbytes⟩ := Indexed.writeAt_spec hd (h.valid.extent hi hfile)
    fs.disk junk source hfits
  refine ⟨d', hwrite, ⟨h.valid, ?_, h.mapFile, h.dirFile⟩, hframe, hbytes⟩
  refine h.stored.congr (fun s hs => hframe s fun hmem => ?_) fun j hj g hg =>
    hframe _ fun hmem => ?_
  · exact h.valid.notMem_system hi hfile (List.mem_cons_of_mem _ hmem) hs
  · -- a header sector among the data sectors would belong to the same file twice
    have hij := h.valid.eq_of_mem hj hi hg hfile List.mem_cons_self (List.mem_cons_of_mem _ hmem)
    subst hij
    rw [hfile] at hg
    cases hg
    exact (List.nodup_cons.mp (h.valid.sectors_nodup hi hfile)).1 hmem

end FileSystem

end Filesys

end Nachos
