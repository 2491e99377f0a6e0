import Nachos.Filesys.Simulation

/-!
# Consistency of the disk

What a disk holds, read off the disk alone: the headers, the bitmap, the directory, and the contents
of the file of a name. A disk is `Consistent` if the bitmap marks the sectors that are in use and no
others, and no sector is in use twice.
-/

namespace Nachos.Filesys

/-! ## Reading the disk -/

def storedHeader (d : Disk) (sector : ℤ) : FileHeader := FileHeader.ofSector (d sector.toNat)

/-- The byte of the file with the header. -/
def storedByte (d : Disk) (hdr : FileHeader) (offset : ℕ) : Byte :=
  d (hdr.byteToSector offset).toNat (offset % sectorSize)

/-- The bitmap in the free-map file. -/
def storedMap (d : Disk) : BitMap := BitMap.ofBytes (storedByte d (storedHeader d freeMapSector))

def storedDirectory (d : Disk) : Directory :=
  Directory.ofBytes (storedByte d (storedHeader d directorySector))

/-- The data sectors of the file with the header. -/
def blockList (hdr : FileHeader) : List ℤ := (List.range hdr.numSectors.toNat).map hdr.dataSectors

/-- The sectors of the file of a directory entry. -/
def entrySectors (d : Disk) (i : ℕ) : List ℤ :=
  if (storedDirectory d i).inUse then
    (storedDirectory d i).sector :: blockList (storedHeader d (storedDirectory d i).sector)
  else []

/-- The sectors in use. -/
def occupied (d : Disk) : List ℤ :=
  [(freeMapSector : ℤ), (directorySector : ℤ)] ++ blockList (storedHeader d freeMapSector) ++
    blockList (storedHeader d directorySector) ++ Slots.all (entrySectors d) numDirEntries

/-- The sectors of the headers. -/
def IsHeader (d : Disk) (sector : ℤ) : Prop :=
  sector = freeMapSector ∨ sector = directorySector ∨
    ∃ i < numDirEntries, (storedDirectory d i).inUse = true ∧ sector = (storedDirectory d i).sector

structure Consistent (d : Disk) : Prop where
  marks : ∀ s < numSectors, (storedMap d).test s = true ↔ (s : ℤ) ∈ occupied d
  nodup : (occupied d).Nodup
  onDisk : ∀ s ∈ occupied d, 0 ≤ s ∧ s < numSectors
  headers : ∀ sector, IsHeader d sector → ∃ n : ℕ, (storedHeader d sector).numBytes = n ∧
    (storedHeader d sector).numSectors = divRoundUp n sectorSize

/-- The contents of the file that `Open` finds under a name. -/
def lookup (d : Disk) (name : Name) : Option (List Byte) :=
  ((storedDirectory d).findIndex name).map fun i =>
    let hdr := storedHeader d (storedDirectory d i).sector
    (List.range hdr.numBytes.toNat).map (storedByte d hdr)

/-! ## The disk of a layout -/

variable {d : Disk} {L : Layout} {i : ℕ}

theorem blockList_eq {h : FileHeader} {length : ℕ} {blocks : List ℕ}
    (hd : h.Describes length blocks) : blockList h = blocks.map Nat.cast := by
  refine List.ext_getElem ?_ fun k h₁ h₂ => ?_
  · rw [blockList, List.length_map, List.length_map, List.length_range, hd.numSectors,
      Int.toNat_natCast]
  · rw [List.length_map] at h₂
    simp only [blockList, List.getElem_map, List.getElem_range]
    exact hd.dataSectors k h₂

theorem storedByte_eq {h : FileHeader} {length : ℕ} {blocks : List ℕ}
    (hd : h.Describes length blocks) {offset : ℕ} (ho : offset / sectorSize < blocks.length) :
    storedByte d h offset = fileByte d blocks offset := by
  unfold storedByte fileByte FileHeader.byteToSector
  rw [hd.dataSectors _ ho, Int.toNat_natCast, List.getD_eq_getElem _ _ ho]

namespace Layout.Stored

theorem view_stored (hs : L.Stored d) (hi : i < numDirEntries) :
    (storedDirectory d i).view = (L.files i).map fun f => (f.key, (f.sector : ℤ)) := by
  rw [← hs.entries i hi]
  refine DirectoryEntry.view_ofBytes_congr fun j hj => storedByte_eq hs.dirHdr ?_
  have hi' : i < 10 := hi
  have hj' : j < 20 := hj
  show (20 * i + j) / 512 < 1
  omega

theorem views_stored (hs : L.Stored d) : Views (storedDirectory d) L := fun _ hi => hs.view_stored hi

/-- The entries of the directory. -/
theorem stored_cases (hs : L.Stored d) (hi : i < numDirEntries) :
    (L.files i = none ∧ (storedDirectory d i).inUse = false) ∨
    ∃ f, L.files i = some f ∧ (storedDirectory d i).inUse = true ∧
      (storedDirectory d i).sector = f.sector ∧
      (storedHeader d (storedDirectory d i).sector).Describes f.length f.blocks := by
  have hview := hs.view_stored hi
  cases hf : L.files i with
  | none =>
    rw [hf, Option.map_none] at hview
    exact .inl ⟨rfl, (Directory.view_eq_none _).mp hview⟩
  | some f =>
    rw [hf, Option.map_some] at hview
    unfold DirectoryEntry.view at hview
    split_ifs at hview with huse
    have hsector : (storedDirectory d i).sector = f.sector :=
      (Prod.mk.inj (Option.some.inj hview)).2
    refine .inr ⟨f, rfl, huse, hsector, ?_⟩
    rw [hsector]
    exact hs.headers i hi f hf

theorem entrySectors_eq (hs : L.Stored d) (hi : i < numDirEntries) :
    entrySectors d i = (L.owned i).map Nat.cast := by
  unfold entrySectors owned
  rcases hs.stored_cases hi with ⟨hf, huse⟩ | ⟨f, hf, huse, hsector, hdesc⟩
  · rw [hf, huse]
    rfl
  · rw [hf, if_pos huse, blockList_eq hdesc, hsector]
    rfl

theorem occupied_eq (hs : L.Stored d) : occupied d = L.used.map Nat.cast := by
  have hmap := blockList_eq (show (storedHeader d freeMapSector).Describes _ _ from hs.mapHdr)
  have hdir := blockList_eq (show (storedHeader d directorySector).Describes _ _ from hs.dirHdr)
  have hslots : Slots.all (entrySectors d) numDirEntries =
      (Slots.all L.owned numDirEntries).map Nat.cast := by
    unfold Slots.all
    rw [List.map_flatMap]
    exact List.flatMap_congr fun i hi => hs.entrySectors_eq (List.mem_range.mp hi)
  unfold occupied used
  rw [hmap, hdir, hslots, List.map_append]
  rfl

theorem consistent (hs : L.Stored d) (hv : L.Valid) : Consistent d := by
  have hinj : Function.Injective (Nat.cast : ℕ → ℤ) := Nat.cast_injective
  refine ⟨fun s hlt => ?_, ?_, fun s hmem => ?_, fun sector hh => ?_⟩
  · rw [hs.occupied_eq, List.mem_map_of_injective hinj, ← hs.bits s hlt]
    have hlt' : s < 1024 := hlt
    have htest : (storedMap d).test s = (BitMap.ofBytes (fileByte d [L.mapBlock])).test s := by
      rw [BitMap.test_eq_getLsbD, BitMap.test_eq_getLsbD]
      refine congrArg (BitVec.getLsbD · (s % bitsInWord)) (wordAt_congr fun j hj => ?_)
      refine storedByte_eq hs.mapHdr ?_
      show (4 * (s / 32) + j) / 512 < 1
      omega
    rw [htest]
  · rw [hs.occupied_eq]
    exact hv.nodup.map hinj
  · rw [hs.occupied_eq] at hmem
    obtain ⟨k, hk, rfl⟩ := List.mem_map.mp hmem
    exact ⟨Int.natCast_nonneg k, by exact_mod_cast hv.onDisk k hk⟩
  · rcases hh with rfl | rfl | ⟨i, hi, huse, rfl⟩
    · exact ⟨freeMapFileSize, hs.mapHdr.numBytes, hs.mapHdr.numSectors⟩
    · exact ⟨directoryFileSize, hs.dirHdr.numBytes, hs.dirHdr.numSectors⟩
    · rcases hs.stored_cases hi with ⟨-, hfalse⟩ | ⟨f, hf, -, -, hdesc⟩
      · rw [hfalse] at huse
        exact nomatch huse
      · refine ⟨f.length, hdesc.numBytes, ?_⟩
        rw [hdesc.numSectors, hv.count i hi f hf]

theorem lookup_eq_some (hs : L.Stored d) (hv : L.Valid) {name : Name} {c : List Byte} :
    lookup d name = some c ↔ ∃ f, L.At (fileKey name) f ∧ f.content d = c := by
  unfold lookup
  rcases hs.views_stored.find_cases name with ⟨hindex, -, hkey⟩ | ⟨i, f, hi, hf, hkey, hindex, -⟩
  · rw [hindex, Option.map_none]
    constructor
    · exact nofun
    · rintro ⟨f, hat, -⟩
      exact absurd hat (Sim.not_at hkey f)
  · have hat : L.At (fileKey name) f := ⟨i, hi, hf, hkey⟩
    rcases hs.stored_cases hi with ⟨hnone, -⟩ | ⟨f', hf', -, -, hdesc⟩
    · rw [hf] at hnone
      exact nomatch hnone
    obtain rfl : f = f' := Option.some.inj (hf.symm.trans hf')
    have hcontent : (List.range (storedHeader d (storedDirectory d i).sector).numBytes.toNat).map
        (storedByte d (storedHeader d (storedDirectory d i).sector)) = f.content d := by
      rw [hdesc.numBytes, Int.toNat_natCast]
      exact List.map_congr_left fun k hk =>
        storedByte_eq hdesc ((hv.extent hi hf).lt (List.mem_range.mp hk))
    rw [hindex, Option.map_some]
    show some _ = some c ↔ _
    rw [hcontent, Option.some.injEq]
    constructor
    · exact fun hc => ⟨f, hat, hc⟩
    · rintro ⟨g, hg, hc⟩
      rw [hat.unique hv hg]
      exact hc

end Layout.Stored

/-! ## Sessions -/

/-- After the disk has been formatted the map has the console files. -/
theorem Session.Init.sim {s : Session} (h : s.Init) : ∃ L, Sim s L FileMap.initial := by
  obtain ⟨⟨heap, d, hnew⟩, hhandles⟩ := h
  obtain ⟨fs, L, hnew', hrep, hfresh, -⟩ := FileSystem.new_spec heap d
  obtain rfl : s.fs = fs := Option.some.inj (hnew.symm.trans hnew')
  have hvalid := hrep.valid
  obtain ⟨i, j, f, g, rfl, hi, hj, hji, hkf, hlf, hkg, hlg, -⟩ := hfresh
  have hnone : (Layout.formatted.put i (some f)).files j = none := Layout.put_files_of_ne hji _
  have hat : ∀ key h, ((Layout.formatted.put i (some f)).put j (some g)).At key h ↔
      (key = FileSystem.stdout ∧ h = g) ∨ key = FileSystem.stdin ∧ h = f := by
    intro key h
    have hempty : ¬ Layout.formatted.At key h := by
      rintro ⟨k, -, hk, -⟩
      cases hk
    rw [Layout.at_put_some hj hnone, Layout.at_put_some hi rfl, hkf, hkg, or_iff_left hempty]
  have hcontent : ∀ h : FileRec, h.length = 0 → h.content s.fs.disk = [] := by
    intro h hl
    rw [FileRec.content, hl]
    rfl
  have hnull : ∀ p, s.handles p = none := fun p => congrFun hhandles p
  refine ⟨_, hrep, fun key c => ?_, fun p => ?_, fun p x hx => ?_, fun p x hx => ?_⟩
  · simp only [hat]
    show (if key = FileSystem.stdin ∨ key = FileSystem.stdout then some [] else none) = some c ↔ _
    split_ifs with hkey
    · rw [Option.some.injEq]
      constructor
      · rintro rfl
        rcases hkey with hin | hout
        · exact ⟨f, .inr ⟨hin, rfl⟩, hcontent f hlf⟩
        · exact ⟨g, .inl ⟨hout, rfl⟩, hcontent g hlg⟩
      · rintro ⟨h, ⟨-, rfl⟩ | ⟨-, rfl⟩, hc⟩
        · rw [← hc, hcontent h hlg]
        · rw [← hc, hcontent h hlf]
    · constructor
      · rintro ⟨⟩
      · rintro ⟨h, ⟨hout, -⟩ | ⟨hin, -⟩, -⟩
        · exact absurd (.inr hout) hkey
        · exact absurd (.inl hin) hkey
  · rw [hnull]
    rfl
  · rw [hnull] at hx
    cases hx
  · rw [hnull] at hx
    cases hx

/-- A step is a call that returns the result of the event. -/
theorem Session.step_eq_some {s s' : Session} {e : Event} :
    s.step e = some s' ↔ s.perform e.heap e.call = some (e.result, s') := by
  unfold Session.step
  rw [Option.bind_eq_some_iff]
  constructor
  · rintro ⟨⟨r, s₁⟩, hp, hr⟩
    dsimp only at hr
    split_ifs at hr with heq
    cases hr
    rw [← heq]
    exact hp
  · intro hp
    exact ⟨_, hp, if_pos rfl⟩

/-- One event is one step of the map. -/
theorem Sim.step {s s' : Session} {L : Layout} {m : FileMap} {e : Event} (h : Sim s L m)
    (ha : s.Allowed e.call) (hf : s.Fits e.call) (hs : s.step e = some s') :
    ∃ L' m', m.Step e.call e.result m' ∧ Sim s' L' m' := by
  obtain ⟨r, s₁, L', m', hp, hstep, hsim⟩ := h.perform_spec ha hf e.heap
  rw [Session.step_eq_some] at hs
  obtain ⟨rfl, rfl⟩ := Prod.mk.inj (Option.some.inj (hp.symm.trans hs))
  exact ⟨L', m', hstep, hsim⟩

/-- The sessions that come about by allowed calls without an overflow. -/
abbrev Session.Reached (s : Session) : Prop :=
  Run.ReachBy Session.step (fun s e => s.Allowed e.call ∧ s.Fits e.call) Session.Init s

theorem Session.Reached.sim {s : Session} (h : s.Reached) : ∃ L m, Sim s L m := by
  refine h.inv (fun s => ∃ L m, Sim s L m) (fun s hs => ?_) fun s e s' hi ha hs => ?_
  · obtain ⟨L, hsim⟩ := hs.sim
    exact ⟨L, _, hsim⟩
  · obtain ⟨L, m, hsim⟩ := hi
    obtain ⟨L', m', -, hsim'⟩ := hsim.step ha.1 ha.2 hs
    exact ⟨L', m', hsim'⟩

/-- Whatever files are created, written and removed, as long as no request overflows, the disk is
consistent, no `ASSERT` fails and no index leaves its array. -/
theorem disk_consistent {s : Session} (h : s.Reached) :
    Consistent s.fs.disk ∧
      ∀ call heap, s.Allowed call → s.Fits call → ∃ r s', s.perform heap call = some (r, s') := by
  obtain ⟨L, m, hsim⟩ := h.sim
  refine ⟨hsim.rep.stored.consistent hsim.rep.valid, fun call heap ha hf => ?_⟩
  obtain ⟨r, s', -, -, hp, -, -⟩ := hsim.perform_spec ha hf heap
  exact ⟨r, s', hp⟩

/-- A file `a` of 600 bytes is created on the formatted disk and opened. -/
def createAndOpen : List Event :=
  [⟨.create [0x61] 600, Heap.zero, .bool true⟩, ⟨.openFile [0x61] 0, Heap.zero, .bool true⟩]

/-- The file `a` is open in the variable 0. -/
structure Opened (s : Session) (L : Layout) (f : FileRec) (x : Handle) : Prop where
  rep : s.fs.Rep L
  file : L.At [0x61] f
  length : f.length = 600
  handle : s.handles 0 = some x
  removed : x.removed = false
  header : x.file.hdr.Describes f.length f.blocks

theorem exec_createAndOpen : ∃ s₀ s L f x, Session.Init s₀ ∧
    Run.exec Session.step s₀ createAndOpen = some s ∧ Opened s L f x := by
  obtain ⟨fs, L, hnew, hrep, hfresh, -⟩ := FileSystem.new_spec (fun _ => Heap.zero) fun _ _ => 0
  obtain ⟨d', i, f, hcreate, hi, hnone, hkey, hlen, hrep'⟩ := FileSystem.Fresh.create hrep hfresh
    Heap.zero (show fileKey [0x61] ≠ FileSystem.stdin by decide)
    (show fileKey [0x61] ≠ FileSystem.stdout by decide) (show 600 ≤ maxFileSize by decide)
  have hat : (L.put i (some f)).At [0x61] f := ⟨i, hi, L.put_files_self i _, hkey⟩
  obtain ⟨j, g, hdr, hj, hg, hgkey, hdesc, hopen⟩ :=
    (FileSystem.openFile_spec hrep' Heap.zero [0x61] none).resolve_left fun hno =>
      hno.2 i hi f (L.put_files_self i _) hkey
  obtain rfl : f = g := hat.unique hrep'.valid ⟨j, hj, hg, hgkey⟩
  have h₁ : Session.step ⟨fs, fun _ => none⟩ ⟨.create [0x61] 600, Heap.zero, .bool true⟩ =
      some ⟨{ fs with disk := d' }, fun _ => none⟩ := by
    rw [Session.step_eq_some, Session.perform, hcreate]
    rfl
  let x : Handle := Session.handle [0x61] { hdr := hdr, seekPosition := 0, type := none }
  let s : Session := Session.setHandle ⟨{ fs with disk := d' }, fun _ => none⟩ 0 (some x)
  have h₂ : Session.step ⟨{ fs with disk := d' }, fun _ => none⟩
      ⟨.openFile [0x61] 0, Heap.zero, .bool true⟩ = some s := by
    rw [Session.step_eq_some, Session.perform, hopen]
    rfl
  refine ⟨⟨fs, fun _ => none⟩, s, L.put i (some f), f, x, ⟨⟨_, _, hnew⟩, rfl⟩, ?_,
    ⟨hrep', hat, hlen, rfl, rfl, hdesc⟩⟩
  rw [createAndOpen, Run.exec_cons, h₁, Option.bind_some, Run.exec_cons, h₂]
  rfl

theorem exists_opened : ∃ s L f x, Session.Reached s ∧ Opened s L f x := by
  obtain ⟨s₀, s, L, f, x, h₀, he, ho⟩ := exec_createAndOpen
  refine ⟨s, L, f, x, ⟨s₀, createAndOpen, h₀, ?_, he⟩, ho⟩
  exact ⟨⟨show 600 ≤ maxFileSize by decide, trivial⟩, fun _ _ => ⟨⟨trivial, trivial⟩, fun _ _ =>
    trivial⟩⟩

/-- The file that has been opened has 600 bytes in two sectors. -/
theorem Opened.size {s : Session} {L : Layout} {f : FileRec} {x : Handle} (h : Opened s L f x) :
    x.file.hdr.numBytes = 600 ∧ x.file.hdr.numSectors = 2 := by
  obtain ⟨i, hi, hfile, -⟩ := h.file
  have he := h.rep.valid.extent hi hfile
  rw [h.header.numBytes, h.header.numSectors, he.count, h.length]
  exact ⟨rfl, rfl⟩

/-- After `Create` and `Open`, and then `WriteAt` of the last 100 bytes. -/
theorem disk_consistent_written : ∃ s : Session, s.Reached ∧ Consistent s.fs.disk ∧
    ∀ source heap, ∃ r s', s.perform heap (.writeAt 0 source 100 500) = some (r, s') := by
  obtain ⟨s, L, f, x, hs, ho⟩ := exists_opened
  obtain ⟨hconsistent, hcalls⟩ := disk_consistent hs
  refine ⟨s, hs, hconsistent, fun source heap => hcalls _ heap ⟨x, ho.handle, ho.removed⟩ ?_⟩
  exact fun _ _ => .inr (.inr ⟨by decide, by decide⟩)

/-- `WriteAt` of `2 ^ 31 - 512` bytes at the offset 512: the sum is negative as an `int`, nothing is
clipped, and the loop goes from the second and last sector of the file to the sector 4194303. -/
theorem writeAt_overflows : ∃ s x, Session.Reached s ∧ s.handles 0 = some x ∧
    x.file.hdr.numBytes = 600 ∧ x.file.hdr.numSectors = 2 ∧
    span 600 2147483136 512 =
      some { numBytes := 2147483136, firstSector := 1, lastSector := 4194303 } ∧
    ∀ source, s.Allowed (.writeAt 0 source 2147483136 512) ∧
      ∀ heap, s.perform heap (.writeAt 0 source 2147483136 512) = none := by
  obtain ⟨s, L, f, x, hs, ho⟩ := exists_opened
  obtain ⟨hbytes, hsectors⟩ := ho.size
  have hspan : span 600 2147483136 512 =
      some { numBytes := 2147483136, firstSector := 1, lastSector := 4194303 } := by decide
  refine ⟨s, x, hs, ho.handle, hbytes, hsectors, hspan, fun source =>
    ⟨⟨x, ho.handle, ho.removed⟩, fun heap => ?_⟩⟩
  have hnone : Indexed.writeAt x.file.hdr s.fs.disk heap.bytes source 2147483136 512 = none := by
    refine Option.eq_none_iff_forall_ne_some.mpr fun y hy => ?_
    obtain ⟨-, -, buf, hwrite⟩ := Indexed.writeAt_some (hbytes ▸ hspan) hy
    refine Indexed.round_of_writeSectors (i := 1) hwrite (by decide) ?_
    rw [Indexed.byteToSector, hsectors]
    exact if_neg (by decide)
  rw [Session.perform, ho.handle]
  show Option.bind (Indexed.writeAt _ _ _ _ _ _) _ = none
  rw [hnone]
  rfl

end Nachos.Filesys
