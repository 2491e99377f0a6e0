import Mathlib.Data.Finset.Card
import Nachos.Filesys.ByteTransfer
import Nachos.Filesys.FileSystem
import Nachos.Lib.Slots

/-!
# What is on the disk

`Layout` says where things are: the data sectors of the two system files and, for each directory
entry in use, the file it stands for. In a `Valid` layout no sector serves two purposes.
`Layout.Stored` says that a disk holds a layout, in the terms of the code's own reading functions:
headers, bitmap and directory are fetched as the layout has them.
-/

namespace Nachos.Filesys

open Buffer

/-- A file: the characters of its name that count, its header sector, its length and its data
sectors. -/
structure FileRec where
  key : Name
  sector : ℕ
  length : ℕ
  blocks : List ℕ

def FileRec.sectors (f : FileRec) : List ℕ := f.sector :: f.blocks

structure Layout where
  mapBlock : ℕ
  dirBlock : ℕ
  files : ℕ → Option FileRec

namespace Layout

/-- The sectors of the file in a slot of the directory. -/
def owned (L : Layout) (i : ℕ) : List ℕ := (L.files i).elim [] FileRec.sectors

def system (L : Layout) : List ℕ := [freeMapSector, directorySector, L.mapBlock, L.dirBlock]

/-- The sectors in use. -/
def used (L : Layout) : List ℕ := L.system ++ Slots.all L.owned numDirEntries

/-- Slot `i` is given another contents. -/
def put (L : Layout) (i : ℕ) (f : Option FileRec) : Layout :=
  { L with files := Function.update L.files i f }

structure Valid (L : Layout) : Prop where
  nodup : L.used.Nodup
  onDisk : ∀ s ∈ L.used, s < numSectors
  count : ∀ i < numDirEntries, ∀ f, L.files i = some f →
    f.blocks.length = divRoundUp f.length sectorSize
  size : ∀ i < numDirEntries, ∀ f, L.files i = some f → f.length ≤ maxFileSize
  keys : ∀ i < numDirEntries, ∀ j < numDirEntries, ∀ f g, L.files i = some f → L.files j = some g →
    f.key = g.key → i = j

/-- The disk holds the layout. -/
structure Stored (L : Layout) (d : Disk) : Prop where
  mapHdr : (FileHeader.ofSector (d freeMapSector)).Describes freeMapFileSize [L.mapBlock]
  dirHdr : (FileHeader.ofSector (d directorySector)).Describes directoryFileSize [L.dirBlock]
  bits : ∀ s < numSectors,
    (BitMap.ofBytes (fileByte d [L.mapBlock])).test s = true ↔ s ∈ L.used
  entries : ∀ i < numDirEntries, (Directory.ofBytes (fileByte d [L.dirBlock]) i).view =
    (L.files i).map fun f => (f.key, (f.sector : ℤ))
  headers : ∀ i < numDirEntries, ∀ f, L.files i = some f →
    (FileHeader.ofSector (d f.sector)).Describes f.length f.blocks

variable {L : Layout} {d d' : Disk} {i j : ℕ} {f g : FileRec}

/-! ## Sectors in use -/

theorem owned_of_some (h : L.files i = some f) : L.owned i = f.sectors := by
  unfold owned
  rw [h, Option.elim_some]

theorem mem_used_system {s : ℕ} (h : s ∈ L.system) : s ∈ L.used := List.mem_append_left _ h

theorem mem_used (hi : i < numDirEntries) (hf : L.files i = some f) {s : ℕ} (hs : s ∈ f.sectors) :
    s ∈ L.used := by
  refine List.mem_append_right _ (Slots.mem_all.mpr ⟨i, hi, ?_⟩)
  rw [owned_of_some hf]
  exact hs

theorem mem_system_mapBlock (L : Layout) : L.mapBlock ∈ L.system := by simp [system]

theorem mem_system_dirBlock (L : Layout) : L.dirBlock ∈ L.system := by simp [system]

theorem owned_put (L : Layout) (i : ℕ) (f : Option FileRec) :
    (L.put i f).owned = Function.update L.owned i (f.elim [] FileRec.sectors) := by
  funext j
  unfold owned put
  by_cases hj : j = i
  · subst hj
    simp only [Function.update_self]
  · simp only [Function.update_of_ne hj]

theorem put_files_self (L : Layout) (i : ℕ) (f : Option FileRec) : (L.put i f).files i = f :=
  Function.update_self ..

theorem put_files_of_ne (h : j ≠ i) (f : Option FileRec) : (L.put i f).files j = L.files j :=
  Function.update_of_ne h ..

theorem put_put (L : Layout) (i : ℕ) (f g : Option FileRec) : (L.put i f).put i g = L.put i g := by
  unfold put
  simp only [Function.update_idem]

theorem put_self (h : L.files i = some f) : L.put i (some f) = L := by
  unfold put
  rw [← h, Function.update_eq_self]

/-- A file is put into an empty slot. -/
theorem used_put_some (hi : i < numDirEntries) (h : L.files i = none) (f : FileRec) :
    (L.put i (some f)).used.Perm (f.sectors ++ L.used) := by
  have hempty : L.owned i = [] := by
    unfold owned
    rw [h, Option.elim_none]
  have hperm := Slots.all_update_perm hi hempty f.sectors
  have howned : (L.put i (some f)).owned = Function.update L.owned i f.sectors := L.owned_put i _
  unfold used
  rw [howned]
  calc L.system ++ Slots.all (Function.update L.owned i f.sectors) numDirEntries
      |>.Perm (L.system ++ (f.sectors ++ Slots.all L.owned numDirEntries)) :=
        hperm.append_left _
    _ |>.Perm (f.sectors ++ (L.system ++ Slots.all L.owned numDirEntries)) := by
        rw [← List.append_assoc, ← List.append_assoc]
        exact List.perm_append_comm.append_right _

/-- A slot is emptied. -/
theorem used_put_none (hi : i < numDirEntries) (h : L.files i = some f) :
    L.used.Perm (f.sectors ++ (L.put i none).used) := by
  have hperm := used_put_some hi (L.put_files_self i none) f
  rw [put_put, put_self h] at hperm
  exact hperm

namespace Valid

theorem put_some (hv : L.Valid) (hi : i < numDirEntries) (h : L.files i = none)
    (hnodup : f.sectors.Nodup) (hnew : ∀ s ∈ f.sectors, s < numSectors ∧ s ∉ L.used)
    (hcount : f.blocks.length = divRoundUp f.length sectorSize) (hsize : f.length ≤ maxFileSize)
    (hkey : ∀ j < numDirEntries, ∀ g, L.files j = some g → g.key ≠ f.key) :
    (L.put i (some f)).Valid := by
  have hperm := used_put_some hi h f
  have hcases : ∀ j g, (L.put i (some f)).files j = some g → (j = i ∧ g = f) ∨ L.files j = some g := by
    intro j g hg
    by_cases hj : j = i
    · subst hj
      rw [put_files_self] at hg
      exact .inl ⟨rfl, (Option.some.inj hg).symm⟩
    · rw [put_files_of_ne hj] at hg
      exact .inr hg
  refine ⟨?_, fun s hs => ?_, fun j hj g hg => ?_, fun j hj g hg => ?_,
    fun j hj k hk g g' hg hg' heq => ?_⟩
  · rw [hperm.nodup_iff, List.nodup_append]
    refine ⟨hnodup, hv.nodup, fun s hs s' hs' heq => ?_⟩
    exact (hnew s hs).2 (heq ▸ hs')
  · rcases List.mem_append.mp (hperm.mem_iff.mp hs) with hs | hs
    · exact (hnew s hs).1
    · exact hv.onDisk s hs
  · rcases hcases j g hg with ⟨-, rfl⟩ | hg
    · exact hcount
    · exact hv.count j hj g hg
  · rcases hcases j g hg with ⟨-, rfl⟩ | hg
    · exact hsize
    · exact hv.size j hj g hg
  · rcases hcases j g hg with ⟨rfl, rfl⟩ | hj' <;> rcases hcases k g' hg' with ⟨rfl, rfl⟩ | hk'
    · rfl
    · exact absurd heq.symm (hkey k hk g' hk')
    · exact absurd heq (hkey j hj g hj')
    · exact hv.keys j hj k hk g g' hj' hk' heq

theorem put_none (hv : L.Valid) (hi : i < numDirEntries) (h : L.files i = some f) :
    (L.put i none).Valid := by
  have hperm := used_put_none hi h
  have hnodup : (f.sectors ++ (L.put i none).used).Nodup := hperm.nodup_iff.mp hv.nodup
  have hfiles : ∀ j g, (L.put i none).files j = some g → L.files j = some g := by
    intro j g hg
    by_cases hj : j = i
    · subst hj
      rw [put_files_self] at hg
      exact nomatch hg
    · rwa [put_files_of_ne hj] at hg
  refine ⟨(List.nodup_append.mp hnodup).2.1, fun s hs => ?_,
    fun j hj g hg => hv.count j hj g (hfiles j g hg), fun j hj g hg => hv.size j hj g (hfiles j g hg),
    fun j hj k hk g g' hg hg' => hv.keys j hj k hk g g' (hfiles j g hg) (hfiles k g' hg')⟩
  exact hv.onDisk s (hperm.mem_iff.mpr (List.mem_append_right _ hs))

/-- The sectors of a file are no system sectors. -/
theorem notMem_system (hv : L.Valid) (hi : i < numDirEntries) (hf : L.files i = some f) {s : ℕ}
    (hs : s ∈ f.sectors) : s ∉ L.system := by
  intro hsys
  have hmem : s ∈ Slots.all L.owned numDirEntries := by
    refine Slots.mem_all.mpr ⟨i, hi, ?_⟩
    rw [owned_of_some hf]
    exact hs
  exact (List.nodup_append.mp hv.nodup).2.2 s hsys s hmem rfl

theorem system_nodup (hv : L.Valid) : L.system.Nodup := (List.nodup_append.mp hv.nodup).1

theorem sectors_nodup (hv : L.Valid) (hi : i < numDirEntries) (hf : L.files i = some f) :
    f.sectors.Nodup := by
  have h := Slots.nodup_own (List.nodup_append.mp hv.nodup).2.1 hi
  rwa [owned_of_some hf] at h

/-- A sector belongs to one file only. -/
theorem eq_of_mem (hv : L.Valid) (hi : i < numDirEntries) (hj : j < numDirEntries)
    (hf : L.files i = some f) (hg : L.files j = some g) {s : ℕ} (hs : s ∈ f.sectors)
    (hs' : s ∈ g.sectors) : i = j := by
  rw [← owned_of_some hf] at hs
  rw [← owned_of_some hg] at hs'
  exact Slots.eq_of_mem (List.nodup_append.mp hv.nodup).2.1 hi hj hs hs'

theorem extent (hv : L.Valid) (hi : i < numDirEntries) (hf : L.files i = some f) :
    Extent f.length f.blocks where
  count := hv.count i hi f hf
  nodup := (List.nodup_cons.mp (hv.sectors_nodup hi hf)).2
  onDisk := fun s hs => hv.onDisk s (mem_used hi hf (List.mem_cons_of_mem _ hs))

/-- The number of sectors a bitmap has left. -/
theorem numClear (hv : L.Valid) {b : BitMap} (hn : b.numBits = numSectors)
    (hb : ∀ s < numSectors, b.test s = true ↔ s ∈ L.used) :
    b.numClear + L.used.length = numSectors := by
  have hclear : b.clearBits.toFinset = Finset.range numSectors \ L.used.toFinset := by
    ext s
    rw [List.mem_toFinset, BitMap.mem_clearBits, hn, Finset.mem_sdiff, Finset.mem_range,
      List.mem_toFinset, ← Bool.not_eq_true]
    constructor
    · rintro ⟨hs, ht⟩
      exact ⟨hs, fun hu => ht ((hb s hs).mpr hu)⟩
    · rintro ⟨hs, hu⟩
      exact ⟨hs, fun ht => hu ((hb s hs).mp ht)⟩
  have hsub : L.used.toFinset ⊆ Finset.range numSectors := fun s hs =>
    Finset.mem_range.mpr (hv.onDisk s (List.mem_toFinset.mp hs))
  have hcard := Finset.card_sdiff_add_card_eq_card hsub
  rw [← hclear, List.toFinset_card_of_nodup b.clearBits_nodup,
    List.toFinset_card_of_nodup hv.nodup, Finset.card_range, BitMap.length_clearBits] at hcard
  exact hcard

theorem mapBlock_ne_dirBlock (hv : L.Valid) : L.mapBlock ≠ L.dirBlock := by
  have h := hv.system_nodup
  simp only [system, List.nodup_cons, List.mem_cons, List.not_mem_nil, or_false, not_or] at h
  exact h.2.2.1

/-- The header sectors of the system files hold no data. -/
theorem headers_ne_blocks (hv : L.Valid) {s : ℕ} (hs : s = freeMapSector ∨ s = directorySector) :
    s ≠ L.mapBlock ∧ s ≠ L.dirBlock := by
  have h := hv.system_nodup
  simp only [system, List.nodup_cons, List.mem_cons, List.not_mem_nil, or_false, not_or] at h
  rcases hs with rfl | rfl
  · exact h.1.2
  · exact h.2.1

/-- A file's sectors are not those of the system files. -/
theorem ne_system (hv : L.Valid) (hi : i < numDirEntries) (hf : L.files i = some f) {s : ℕ}
    (hs : s ∈ f.sectors) : s ≠ freeMapSector ∧ s ≠ directorySector ∧ s ≠ L.mapBlock ∧
      s ≠ L.dirBlock := by
  have h := hv.notMem_system hi hf hs
  simpa only [system, List.mem_cons, List.not_mem_nil, or_false, not_or] using h

end Valid

/-! ## The disk of another layout -/

namespace Stored

/-- The disk is changed, but in no sector that tells the layout. -/
theorem congr (hs : L.Stored d) (hsystem : ∀ s ∈ L.system, d' s = d s)
    (hheaders : ∀ i < numDirEntries, ∀ f, L.files i = some f → d' f.sector = d f.sector) :
    L.Stored d' := by
  have h₀ : d' 0 = d 0 := hsystem 0 (by simp [system])
  have h₁ : d' 1 = d 1 := hsystem 1 (by simp [system])
  have hmap : fileByte d' [L.mapBlock] = fileByte d [L.mapBlock] :=
    fileByte_congr h₀ (by simpa using hsystem _ L.mem_system_mapBlock)
  have hdir : fileByte d' [L.dirBlock] = fileByte d [L.dirBlock] :=
    fileByte_congr h₀ (by simpa using hsystem _ L.mem_system_dirBlock)
  refine ⟨?_, ?_, ?_, ?_, fun i hi f hf => ?_⟩
  · rw [h₀]
    exact hs.mapHdr
  · rw [h₁]
    exact hs.dirHdr
  · rw [hmap]
    exact hs.bits
  · rw [hdir]
    exact hs.entries
  · rw [hheaders i hi f hf]
    exact hs.headers i hi f hf

/-- One slot is changed: the bitmap, the directory and the header of the slot have been written. -/
theorem put (hs : L.Stored d) (hv : L.Valid) {o : Option FileRec} (hv' : (L.put i o).Valid)
    (hi : i < numDirEntries)
    (hbits : ∀ s < numSectors,
      (BitMap.ofBytes (fileByte d' [L.mapBlock])).test s = true ↔ s ∈ (L.put i o).used)
    (hentries : ∀ j < numDirEntries, (Directory.ofBytes (fileByte d' [L.dirBlock]) j).view =
      ((L.put i o).files j).map fun f => (f.key, (f.sector : ℤ)))
    (hheader : ∀ f, o = some f → (FileHeader.ofSector (d' f.sector)).Describes f.length f.blocks)
    (hframe : ∀ s, s ≠ L.mapBlock → s ≠ L.dirBlock → (∀ f, o = some f → s ≠ f.sector) →
      d' s = d s) :
    (L.put i o).Stored d' := by
  have hsystem : ∀ s, s = freeMapSector ∨ s = directorySector → d' s = d s := by
    intro s hs₀
    obtain ⟨hm, hd⟩ := hv.headers_ne_blocks hs₀
    refine hframe s hm hd fun f hf heq => ?_
    have hne := hv'.ne_system hi ((L.put_files_self i o).trans hf) List.mem_cons_self
    rcases hs₀ with rfl | rfl
    · exact hne.1 heq.symm
    · exact hne.2.1 heq.symm
  refine ⟨?_, ?_, hbits, hentries, fun j hj g hg => ?_⟩
  · rw [hsystem _ (.inl rfl)]
    exact hs.mapHdr
  · rw [hsystem _ (.inr rfl)]
    exact hs.dirHdr
  · by_cases hji : j = i
    · subst hji
      rw [put_files_self] at hg
      exact hheader g hg
    · have hg' := hg
      rw [put_files_of_ne hji] at hg'
      obtain ⟨-, -, hm, hd⟩ := hv.ne_system hj hg' (List.mem_cons_self)
      rw [hframe g.sector hm hd]
      · exact hs.headers j hj g hg'
      · intro f hf heq
        have hfi : (L.put i o).files i = some f := (L.put_files_self i o).trans hf
        refine hji (hv'.eq_of_mem hj hi hg hfi List.mem_cons_self ?_)
        rw [heq]
        exact List.mem_cons_self

end Stored

end Layout

end Nachos.Filesys
