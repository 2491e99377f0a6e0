import Nachos.Filesys.OpenFile

/-!
# The sectors of a request

The loops of `ReadAt` and `WriteAt` once more, on offsets in the file instead of `int`s
(`Offsets`). They need no test of an index, and `ByteTransfer` shows that the code does the same as
long as a request ends below `2 ^ 31`.

`fileByte` is the byte of a file at an offset, wherever its sector lies. `Offsets.readAt_spec` and
`Offsets.writeAt_spec` say what the loops do in these terms.
-/

namespace Nachos

open Buffer

/-! ## The loops on offsets -/

namespace Offsets

/-- `ReadSector` for the first `m` sectors from `firstSector` on, into `buf`. -/
def readSectors (hdr : FileHeader) (d : Disk) (firstSector : ℕ) (buf : ℕ → Byte) :
    ℕ → Option (ℕ → Byte)
  | 0 => some buf
  | m + 1 => do
    let buf ← readSectors hdr d firstSector buf m
    let data ← d.readSector (hdr.byteToSector ((firstSector + m) * sectorSize))
    some (splice buf (m * sectorSize) sectorSize data)

/-- `WriteSector` for the first `m` sectors from `firstSector` on, out of `buf`. -/
def writeSectors (hdr : FileHeader) (d : Disk) (firstSector : ℕ) (buf : ℕ → Byte) : ℕ → Option Disk
  | 0 => some d
  | m + 1 => do
    let d ← writeSectors hdr d firstSector buf m
    d.writeSector (hdr.byteToSector ((firstSector + m) * sectorSize))
      fun k => buf (m * sectorSize + k)

/-- `ReadAt`: the bytes that are copied to `into`. -/
def readAt (hdr : FileHeader) (d : Disk) (junk : ℕ → Byte) (numBytes : ℤ) (position : ℕ) :
    Option (List Byte) :=
  if numBytes ≤ 0 ∨ hdr.numBytes ≤ position then some []
  else do
    let n := if hdr.numBytes < position + numBytes then (hdr.numBytes - position).toNat
      else numBytes.toNat
    let firstSector := position / sectorSize
    let lastSector := (position + n - 1) / sectorSize
    let buf ← readSectors hdr d firstSector junk (1 + lastSector - firstSector)
    some ((List.range n).map fun j => buf (position - firstSector * sectorSize + j))

/-- `ReadAt(&buf[start], SectorSize, position)` -/
def readInto (hdr : FileHeader) (d : Disk) (junk buf : ℕ → Byte) (start position : ℕ) :
    Option (ℕ → Byte) :=
  (readAt hdr d junk sectorSize position).map fun bytes =>
    splice buf start bytes.length fun k => bytes.getD k 0

/-- The buffer of `WriteAt`: the first and the last sector are read in, if they are to be partially
modified. -/
def writeBuffer (hdr : FileHeader) (d : Disk) (junk : ℕ → Byte) (n position : ℕ) :
    Option (ℕ → Byte) := do
  let firstSector := position / sectorSize
  let lastSector := (position + n - 1) / sectorSize
  let firstAligned := position == firstSector * sectorSize
  let lastAligned := position + n == (lastSector + 1) * sectorSize
  let buf ← (if !firstAligned then readInto hdr d junk junk 0 (firstSector * sectorSize)
    else some junk : Option (ℕ → Byte))
  if !lastAligned && (firstSector != lastSector || firstAligned) then
    readInto hdr d junk buf ((lastSector - firstSector) * sectorSize) (lastSector * sectorSize)
  else some buf

/-- `WriteAt` with its result and the disk it leaves. -/
def writeAt (hdr : FileHeader) (d : Disk) (junk source : ℕ → Byte) (numBytes : ℤ) (position : ℕ) :
    Option (ℕ × Disk) :=
  if numBytes ≤ 0 ∨ hdr.numBytes ≤ position then some (0, d)
  else do
    let n := if hdr.numBytes < position + numBytes then (hdr.numBytes - position).toNat
      else numBytes.toNat
    let firstSector := position / sectorSize
    let lastSector := (position + n - 1) / sectorSize
    let buf ← writeBuffer hdr d junk n position
    let d ← writeSectors hdr d firstSector
      (splice buf (position - firstSector * sectorSize) n source) (1 + lastSector - firstSector)
    some (n, d)

end Offsets

/-! ## The bytes of a file -/

/-- The byte at an offset of the file in the sectors `blocks`. -/
def fileByte (d : Disk) (blocks : List ℕ) (offset : ℕ) : Byte :=
  d (blocks.getD (offset / sectorSize) 0) (offset % sectorSize)

theorem fileByte_congr {d d' : Disk} {blocks : List ℕ} (h₀ : d' 0 = d 0)
    (h : ∀ s ∈ blocks, d' s = d s) : fileByte d' blocks = fileByte d blocks := by
  funext offset
  unfold fileByte
  rcases Nat.lt_or_ge (offset / sectorSize) blocks.length with hlt | hge
  · rw [List.getD_eq_getElem _ _ hlt, h _ (List.getElem_mem hlt)]
  · rw [List.getD_eq_default _ _ hge, h₀]

/-- The number of bytes that are transferred, out of `numBytes` at `position`. -/
def clip (length : ℕ) (numBytes : ℤ) (position : ℕ) : ℕ := min numBytes.toNat (length - position)

/-- The sectors of a file: as many as its length needs, and all of them on the disk. -/
structure Extent (length : ℕ) (blocks : List ℕ) : Prop where
  count : blocks.length = divRoundUp length sectorSize
  nodup : blocks.Nodup
  onDisk : ∀ b ∈ blocks, b < numSectors

theorem lt_divRoundUp {length offset : ℕ} (h : offset < length) :
    offset / sectorSize < divRoundUp length sectorSize := by
  unfold divRoundUp
  simp only [sectorSize]
  split_ifs <;> omega

theorem Extent.lt {length : ℕ} {blocks : List ℕ} (h : Extent length blocks) {offset : ℕ}
    (ho : offset < length) : offset / sectorSize < blocks.length := by
  rw [h.count]
  exact lt_divRoundUp ho

/-- The test at the start of `ReadAt` and `WriteAt`. -/
theorem clip_eq {length : ℕ} {numBytes : ℤ} {position : ℕ} :
    ((numBytes ≤ 0 ∨ (length : ℤ) ≤ position) → clip length numBytes position = 0) ∧
    (¬ (numBytes ≤ 0 ∨ (length : ℤ) ≤ position) →
      (if (length : ℤ) < position + numBytes then ((length : ℤ) - position).toNat
        else numBytes.toNat) = clip length numBytes position ∧
      0 < clip length numBytes position ∧ position + clip length numBytes position ≤ length) := by
  unfold clip
  constructor
  · intro h
    omega
  · intro h
    refine ⟨?_, by omega, by omega⟩
    split_ifs <;> omega

/-- An offset in the buffer that starts with the sector of `position`. -/
theorem offset_in_buffer (position j : ℕ) :
    position / sectorSize + (position - position / sectorSize * sectorSize + j) / sectorSize =
      (position + j) / sectorSize ∧
    (position - position / sectorSize * sectorSize + j) % sectorSize =
      (position + j) % sectorSize := by
  simp only [sectorSize]
  omega

section Specs

variable {hdr : FileHeader} {length : ℕ} {blocks : List ℕ} {d : Disk}

/-- The sector of a block of the file. -/
theorem FileHeader.Describes.byteToSector (hd : hdr.Describes length blocks) {i : ℕ}
    (hi : i < blocks.length) : hdr.byteToSector (i * sectorSize) = blocks[i] := by
  unfold FileHeader.byteToSector
  rw [Nat.mul_div_cancel i (by decide)]
  exact hd.dataSectors i hi

namespace Offsets

theorem readSectors_spec (hd : hdr.Describes length blocks) (he : Extent length blocks)
    (d : Disk) (buf : ℕ → Byte) {first m : ℕ} (hm : first + m ≤ blocks.length) :
    readSectors hdr d first buf m =
      some (fill buf sectorSize (fun i => d (blocks.getD (first + i) 0)) m) := by
  induction m with
  | zero => rfl
  | succ m ih =>
    have hlt : first + m < blocks.length := by omega
    have hread : d.readSector (hdr.byteToSector ((first + m) * sectorSize)) =
        some (d blocks[first + m]) := by
      rw [hd.byteToSector hlt]
      exact d.readSector_natCast (he.onDisk _ (List.getElem_mem hlt))
    rw [readSectors, ih (by omega)]
    show ((d.readSector _).bind fun data => _) = _
    rw [hread, Option.bind_some, fill, List.getD_eq_getElem blocks 0 hlt]

/-- `ReadAt` reads the bytes of the file. -/
theorem readAt_spec (hd : hdr.Describes length blocks) (he : Extent length blocks)
    (d : Disk) (junk : ℕ → Byte) (numBytes : ℤ) (position : ℕ) :
    readAt hdr d junk numBytes position = some
      ((List.range (clip length numBytes position)).map fun j =>
        fileByte d blocks (position + j)) := by
  unfold readAt
  rw [hd.numBytes]
  by_cases hc : numBytes ≤ 0 ∨ (length : ℤ) ≤ position
  · rw [if_pos hc, clip_eq.1 hc]
    rfl
  · obtain ⟨hn, hpos, hle⟩ := clip_eq.2 hc
    rw [if_neg hc, hn]
    set n := clip length numBytes position
    have hlast : (position + n - 1) / sectorSize < blocks.length := he.lt (by omega)
    have hspan : position / sectorSize + (1 + (position + n - 1) / sectorSize - position / sectorSize) =
        (position + n - 1) / sectorSize + 1 := by
      simp only [sectorSize]
      omega
    show ((readSectors hdr d _ junk _).bind fun buf => _) = _
    rw [readSectors_spec hd he d junk (by omega), Option.bind_some]
    refine congrArg some (List.map_congr_left fun j hj => ?_)
    have hj' := List.mem_range.mp hj
    obtain ⟨hsector, hoffset⟩ := offset_in_buffer position j
    rw [fill_apply (by decide), if_pos]
    · unfold fileByte
      rw [← hsector, ← hoffset]
    · simp only [sectorSize]
      omega

theorem readInto_spec (hd : hdr.Describes length blocks) (he : Extent length blocks)
    (d : Disk) (junk buf : ℕ → Byte) (start position : ℕ) :
    ∃ buf', readInto hdr d junk buf start position = some buf' ∧
      (∀ k < sectorSize, position + k < length → buf' (start + k) = fileByte d blocks (position + k)) ∧
      ∀ k, k < start ∨ start + sectorSize ≤ k → buf' k = buf k := by
  unfold readInto
  rw [readAt_spec hd he, Option.map_some]
  set n := clip length (sectorSize : ℕ) position with hn
  have hn' : n = min sectorSize (length - position) := rfl
  refine ⟨_, rfl, fun k hk hlt => ?_, fun k hk => ?_⟩
  · rw [List.length_map, List.length_range, splice_inside (by omega) (by omega),
      Nat.add_sub_cancel_left, List.getD_eq_getElem _ _ (by simp; omega), List.getElem_map,
      List.getElem_range]
  · rw [List.length_map, List.length_range]
    exact splice_outside (by omega) _ _

theorem writeSectors_spec (hd : hdr.Describes length blocks) (he : Extent length blocks)
    (d : Disk) (buf : ℕ → Byte) (first m : ℕ) (hm : first + m ≤ blocks.length) :
    ∃ d', writeSectors hdr d first buf m = some d' ∧
      (∀ s, s ∉ blocks → d' s = d s) ∧
      ∀ i, ∀ hi : i < blocks.length, d' blocks[i] =
        if first ≤ i ∧ i < first + m then fun k => buf ((i - first) * sectorSize + k)
        else d blocks[i] := by
  induction m with
  | zero =>
    refine ⟨d, rfl, fun _ _ => rfl, fun i hi => ?_⟩
    rw [if_neg (by omega)]
  | succ m ih =>
    obtain ⟨d₁, hwrite, hout, hin⟩ := ih (by omega)
    have hlt : first + m < blocks.length := by omega
    refine ⟨Function.update d₁ blocks[first + m] fun k => buf (m * sectorSize + k), ?_, fun s hs => ?_,
      fun i hi => ?_⟩
    · rw [writeSectors, hwrite]
      show d₁.writeSector _ _ = _
      rw [hd.byteToSector hlt]
      exact d₁.writeSector_natCast (he.onDisk _ (List.getElem_mem hlt)) _
    · have hne : s ≠ blocks[first + m] := by
        rintro rfl
        exact hs (List.getElem_mem hlt)
      rw [Function.update_of_ne hne]
      exact hout s hs
    · by_cases hi' : i = first + m
      · subst hi'
        rw [Function.update_self, if_pos (by omega), Nat.add_sub_cancel_left]
      · have hne : blocks[i] ≠ blocks[first + m] := fun e => hi' ((he.nodup.getElem_inj_iff).mp e)
        rw [Function.update_of_ne hne, hin i hi]
        by_cases hr : first ≤ i ∧ i < first + m
        · rw [if_pos hr, if_pos (by omega)]
        · rw [if_neg hr, if_neg (by omega)]

/-- The part of the buffer that `WriteAt` does not overwrite is the file's own. -/
theorem writeBuffer_spec (hd : hdr.Describes length blocks) (he : Extent length blocks)
    (d : Disk) (junk : ℕ → Byte) {n : ℕ} (hn : 0 < n) (position : ℕ) :
    ∃ buf, writeBuffer hdr d junk n position = some buf ∧
      ∀ offset < length, position / sectorSize ≤ offset / sectorSize →
        offset / sectorSize ≤ (position + n - 1) / sectorSize →
        ¬ (position ≤ offset ∧ offset < position + n) →
        buf (offset - position / sectorSize * sectorSize) = fileByte d blocks offset := by
  have hfirst : position / sectorSize * sectorSize ≤ position := Nat.div_mul_le_self _ _
  have hle : position / sectorSize ≤ (position + n - 1) / sectorSize :=
    Nat.div_le_div_right (by omega)
  unfold writeBuffer
  set first := position / sectorSize with hf
  set last := (position + n - 1) / sectorSize with hl
  -- the first sector
  obtain ⟨buf₁, hread₁, hbuf₁⟩ : ∃ buf₁, (if !(position == first * sectorSize) then
      readInto hdr d junk junk 0 (first * sectorSize) else some junk) = some buf₁ ∧
      (position ≠ first * sectorSize → ∀ k < sectorSize, first * sectorSize + k < length →
        buf₁ k = fileByte d blocks (first * sectorSize + k)) := by
    by_cases ha : position = first * sectorSize
    · exact ⟨junk, by rw [beq_iff_eq.mpr ha]; rfl, fun hne => absurd ha hne⟩
    · obtain ⟨buf₁, h₁, h₂, -⟩ := readInto_spec hd he d junk junk 0 (first * sectorSize)
      refine ⟨buf₁, by rw [beq_eq_false_iff_ne.mpr ha]; exact h₁, fun _ k hk hlt => ?_⟩
      rw [← h₂ k hk hlt, Nat.zero_add]
  -- the last sector
  obtain ⟨buf₂, hread₂, hlast₂, hkeep₂⟩ : ∃ buf₂, (if !(position + n == (last + 1) * sectorSize) &&
      (first != last || position == first * sectorSize) then
        readInto hdr d junk buf₁ ((last - first) * sectorSize) (last * sectorSize)
      else some buf₁) = some buf₂ ∧
      (position + n ≠ (last + 1) * sectorSize → first ≠ last ∨ position = first * sectorSize →
        ∀ k < sectorSize, last * sectorSize + k < length →
          buf₂ ((last - first) * sectorSize + k) = fileByte d blocks (last * sectorSize + k)) ∧
      ∀ k, (first = last ∧ position ≠ first * sectorSize) ∨ k < (last - first) * sectorSize →
        buf₂ k = buf₁ k := by
    by_cases hc : position + n ≠ (last + 1) * sectorSize ∧
        (first ≠ last ∨ position = first * sectorSize)
    · obtain ⟨buf₂, h₁, h₂, h₃⟩ := readInto_spec hd he d junk buf₁ ((last - first) * sectorSize)
        (last * sectorSize)
      refine ⟨buf₂, ?_, fun _ _ => h₂, fun k hk => ?_⟩
      · rw [if_pos (by simpa [bne_iff_ne] using hc)]
        exact h₁
      · rcases hk with hk | hk
        · exact absurd hk (by tauto)
        · exact h₃ k (.inl hk)
    · refine ⟨buf₁, ?_, fun h₁ h₂ => absurd ⟨h₁, h₂⟩ hc, fun _ _ => rfl⟩
      rw [if_neg (by simpa [bne_iff_ne] using hc)]
  refine ⟨buf₂, ?_, fun offset ho hge hle' hout => ?_⟩
  · show (Option.bind _ fun buf => _) = _
    rw [hread₁, Option.bind_some]
    exact hread₂
  simp only [sectorSize] at *
  rcases Nat.lt_or_ge offset position with hlt | hge'
  · -- before the new bytes: the first sector was read in
    have hk : buf₁ (offset - first * 512) = fileByte d blocks offset := by
      rw [hbuf₁ (by omega) _ (by omega) (by omega)]
      congr 1
      omega
    rw [← hk]
    exact hkeep₂ _ (by omega)
  · -- after them: the last sector was read in, or it is the first one
    by_cases hc : first ≠ last ∨ position = first * 512
    · have hk := hlast₂ (by omega) hc (offset - last * 512) (by omega) (by omega)
      rw [show (last - first) * 512 + (offset - last * 512) = offset - first * 512 by omega,
        show last * 512 + (offset - last * 512) = offset by omega] at hk
      exact hk
    · rw [hkeep₂ _ (by omega), hbuf₁ (by omega) _ (by omega) (by omega)]
      congr 1
      omega

/-- `WriteAt` changes the bytes of the file it is given, and no other sector. -/
theorem writeAt_spec (hd : hdr.Describes length blocks) (he : Extent length blocks)
    (d : Disk) (junk source : ℕ → Byte) (numBytes : ℤ) (position : ℕ) :
    ∃ d', writeAt hdr d junk source numBytes position = some (clip length numBytes position, d') ∧
      (∀ s, s ∉ blocks → d' s = d s) ∧
      ∀ offset < length, fileByte d' blocks offset =
        if position ≤ offset ∧ offset < position + clip length numBytes position then
          source (offset - position)
        else fileByte d blocks offset := by
  unfold writeAt
  rw [hd.numBytes]
  by_cases hc : numBytes ≤ 0 ∨ (length : ℤ) ≤ position
  · rw [if_pos hc, clip_eq.1 hc]
    refine ⟨d, rfl, fun _ _ => rfl, fun offset _ => ?_⟩
    rw [if_neg (by omega)]
  obtain ⟨hn, hpos, hle⟩ := clip_eq.2 hc
  rw [if_neg hc, hn]
  set n := clip length numBytes position
  have hlast : (position + n - 1) / sectorSize < blocks.length := he.lt (by omega)
  have hspan : position / sectorSize +
      (1 + (position + n - 1) / sectorSize - position / sectorSize) =
      (position + n - 1) / sectorSize + 1 := by
    simp only [sectorSize]
    omega
  obtain ⟨buf, hbuf, hrest⟩ := writeBuffer_spec hd he d junk hpos position
  obtain ⟨d', hwrite, hout, hin⟩ := writeSectors_spec hd he d
    (splice buf (position - position / sectorSize * sectorSize) n source) (position / sectorSize)
    (1 + (position + n - 1) / sectorSize - position / sectorSize) (by omega)
  refine ⟨d', ?_, hout, fun offset ho => ?_⟩
  · show (Option.bind _ fun buf => _) = _
    rw [hbuf, Option.bind_some]
    show (Option.bind _ fun d => _) = _
    rw [hwrite, Option.bind_some]
  · have hq := he.lt ho
    have hbyte : ∀ d₁ : Disk, fileByte d₁ blocks offset =
        d₁ (blocks[offset / sectorSize]) (offset % sectorSize) := by
      intro d₁
      rw [fileByte, List.getD_eq_getElem blocks 0 hq]
    by_cases hs : position / sectorSize ≤ offset / sectorSize ∧
        offset / sectorSize ≤ (position + n - 1) / sectorSize
    · -- the sector was written
      have hindex : (offset / sectorSize - position / sectorSize) * sectorSize +
          offset % sectorSize = offset - position / sectorSize * sectorSize := by
        simp only [sectorSize] at *
        omega
      rw [hbyte d', hin _ hq, if_pos (by omega), hindex]
      by_cases hnew : position ≤ offset ∧ offset < position + n
      · rw [if_pos hnew, splice_inside]
        · congr 1
          simp only [sectorSize] at *
          omega
        · simp only [sectorSize] at *
          omega
        · simp only [sectorSize] at *
          omega
      · rw [if_neg hnew, splice_outside]
        · exact hrest offset ho hs.1 hs.2 hnew
        · simp only [sectorSize] at *
          omega
    · rw [hbyte d', hbyte d, hin _ hq, if_neg (by omega), if_neg]
      simp only [sectorSize] at *
      omega

end Offsets

end Specs

end Nachos
