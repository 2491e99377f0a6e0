import Nachos.Filesys.SectorLoops

/-!
# The indices of `ReadAt` and `WriteAt`

For a position that is not negative and a request that ends below `2 ^ 31` no sum of the two
functions wraps around, and they do what the loops on offsets do. `transfer_bytes` says what they
transfer. `Fits` is the condition on a request for it.
-/

namespace Nachos

open Buffer

/-! ## Requests inside of an `int` -/

theorem Extent.length_le {length : ℕ} {blocks : List ℕ} (he : Extent length blocks) :
    length ≤ numSectors * sectorSize := by
  have hblocks : blocks.length ≤ numSectors := by
    have hsub : blocks ⊆ List.range numSectors := fun b hb => List.mem_range.mpr (he.onDisk b hb)
    have hle := (he.nodup.subperm hsub).length_le
    rwa [List.length_range] at hle
  have hcover := le_divRoundUp_mul length (show 0 < sectorSize by decide)
  rw [← he.count] at hcover
  exact hcover.trans (Nat.mul_le_mul_right _ hblocks)

section Requests

variable {hdr : FileHeader} {length : ℕ} {blocks : List ℕ} {numBytes : ℤ} {position : ℕ}

/-- The span of `n` bytes at `position`. -/
def spanOf (n position : ℕ) : Span where
  numBytes := n
  firstSector := (position / sectorSize : ℕ)
  lastSector := ((position + n - 1) / sectorSize : ℕ)

theorem span_eq_none {position : ℤ} (hc : numBytes ≤ 0 ∨ (length : ℤ) ≤ position) :
    span length numBytes position = none := if_pos hc

theorem span_eq_some (he : Extent length blocks) (hint : position + numBytes < 2 ^ 31)
    (hc : ¬ (numBytes ≤ 0 ∨ (length : ℤ) ≤ position)) :
    span length numBytes position = some (spanOf (clip length numBytes position) position) := by
  obtain ⟨hn, hpos, hle⟩ := clip_eq.2 hc
  have hlen : length ≤ 524288 := he.length_le
  unfold span
  rw [if_neg hc, asInt_eq (by omega) hint, asInt_eq (by omega) (by omega)]
  have hnum : (if (length : ℤ) < position + numBytes then (length : ℤ) - position else numBytes) =
      clip length numBytes position := by
    rw [← hn]
    split_ifs <;> omega
  rw [hnum]
  dsimp only
  rw [asInt_eq (by omega) (by omega)]
  have hlast : (position : ℤ) + clip length numBytes position - 1 =
      (position + clip length numBytes position - 1 : ℕ) := by omega
  unfold spanOf
  rw [hlast, Int.ofNat_tdiv, Int.ofNat_tdiv]

theorem spanOf_inRange (he : Extent length blocks) {n : ℕ} (hn : 0 < n)
    (hle : position + n ≤ length) : (spanOf n position).InRange blocks.length position := by
  have hfile := he.lt (show position + n - 1 < length by omega)
  have hcount : blocks.length ≤ 1024 := by
    have hlen : length ≤ 524288 := he.length_le
    rw [he.count, divRoundUp, show sectorSize = 512 from rfl]
    split_ifs <;> omega
  have hlast : (position + n - 1) / 512 < 1024 := Nat.lt_of_lt_of_le hfile hcount
  have horder : position / 512 ≤ (position + n - 1) / 512 := Nat.div_le_div_right (by omega)
  have hnum : asInt (1 + ((position + n - 1) / 512 : ℕ) - (position / 512 : ℕ)) =
      1 + ((position + n - 1) / 512 : ℕ) - (position / 512 : ℕ) :=
    asInt_eq (by omega) (by omega)
  have hsize : (spanOf n position).bufferSize =
      (((position + n - 1) / 512 : ℕ) + 1 - (position / 512 : ℕ)) * 512 := by
    show asInt (asInt (1 + ((position + n - 1) / 512 : ℕ) - (position / 512 : ℕ)) * 512) = _
    rw [hnum, asInt_eq (by omega) (by omega)]
    omega
  constructor
  · exact Int.natCast_nonneg _
  · exact Int.ofNat_le.mpr horder
  · exact Int.ofNat_lt.mpr hfile
  · exact hsize
  · show 0 ≤ (position : ℤ) - (position / 512 : ℕ) * 512
    omega
  · rw [hsize]
    show (position : ℤ) - (position / 512 : ℕ) * 512 + n ≤ _
    omega

/-- The rounds of both loops. -/
def rounds (n position : ℕ) : ℕ := 1 + (position + n - 1) / sectorSize - position / sectorSize

theorem rounds_eq (n position : ℕ) : ((spanOf n position).lastSector + 1 -
    (spanOf n position).firstSector).toNat = rounds n position := by
  show (((position + n - 1) / 512 : ℕ) + 1 - (position / 512 : ℕ) : ℤ).toNat =
    1 + (position + n - 1) / 512 - position / 512
  omega

section Rounds

variable {n m : ℕ} {d : Disk} {buf : ℕ → Byte}

/-- The sector and the place in the buffer of a round. -/
theorem round_indices (hd : hdr.Describes length blocks) (he : Extent length blocks) (hn : 0 < n)
    (hle : position + n ≤ length) (hm : m < rounds n position) :
    Indexed.byteToSector hdr (asInt (((spanOf n position).firstSector + m) * sectorSize)) =
        some (hdr.byteToSector ((position / sectorSize + m) * sectorSize)) ∧
      Indexed.slice (spanOf n position).bufferSize (asInt (((spanOf n position).firstSector + m -
        (spanOf n position).firstSector) * sectorSize)) sectorSize = some (m * sectorSize) := by
  have hr := spanOf_inRange he hn hle
  have hlen : length ≤ 524288 := he.length_le
  have hm : m < 1 + (position + n - 1) / 512 - position / 512 := hm
  have hfirst : (spanOf n position).firstSector = (position / 512 : ℕ) := rfl
  have hlast : (spanOf n position).lastSector = ((position + n - 1) / 512 : ℕ) := rfl
  have hin := hr.last
  rw [hlast] at hin
  have hoffset : asInt (((spanOf n position).firstSector + m) * sectorSize) =
      ((position / 512 + m) * 512 : ℕ) := by
    have harg : ((spanOf n position).firstSector + m) * (sectorSize : ℕ) =
        ((position / 512 + m) * 512 : ℕ) := by
      rw [hfirst, ← Nat.cast_add, ← Nat.cast_mul]
    rw [harg, asInt_eq (by omega) (by omega)]
  have hindex : asInt (((spanOf n position).firstSector + m - (spanOf n position).firstSector) *
      sectorSize) = (m * 512 : ℕ) := by
    have harg : ((spanOf n position).firstSector + m - (spanOf n position).firstSector) *
        (sectorSize : ℕ) = (m * 512 : ℕ) := by
      rw [add_sub_cancel_left, ← Nat.cast_mul]
    rw [harg, asInt_eq (by omega) (by omega)]
  constructor
  · rw [hoffset, Indexed.byteToSector, hd.numSectors, Int.toNat_natCast]
    have hdiv : (((position / 512 + m) * 512 : ℕ) : ℤ).tdiv sectorSize =
        (position / 512 + m : ℕ) := by
      rw [← Int.ofNat_tdiv, Nat.mul_div_cancel _ (show 0 < sectorSize by decide)]
    rw [hdiv, if_pos ⟨Int.natCast_nonneg _, by omega⟩]
  · rw [hindex, Indexed.slice, hr.size, hlast, hfirst, Int.toNat_natCast, if_pos]
    constructor
    · exact Int.natCast_nonneg _
    · show ((m * 512 : ℕ) : ℤ) + 512 ≤ (_ + 1 - _) * 512
      omega

theorem readSectors_eq (hd : hdr.Describes length blocks) (he : Extent length blocks)
    (hn : 0 < n) (hle : position + n ≤ length) (hm : m ≤ rounds n position) :
    Indexed.readSectors hdr d (spanOf n position) buf m =
      Offsets.readSectors hdr d (position / sectorSize) buf m := by
  induction m with
  | zero => rfl
  | succ m ih =>
    obtain ⟨hsector, hindex⟩ := round_indices hd he hn hle hm
    rw [Indexed.readSectors, Offsets.readSectors, ih (Nat.le_of_succ_le hm)]
    simp only [hsector, hindex, Option.bind_eq_bind, Option.bind_some]

theorem writeSectors_eq (hd : hdr.Describes length blocks) (he : Extent length blocks)
    (hn : 0 < n) (hle : position + n ≤ length) (hm : m ≤ rounds n position) :
    Indexed.writeSectors hdr d (spanOf n position) buf m =
      Offsets.writeSectors hdr d (position / sectorSize) buf m := by
  induction m with
  | zero => rfl
  | succ m ih =>
    obtain ⟨hsector, hindex⟩ := round_indices hd he hn hle hm
    rw [Indexed.writeSectors, Offsets.writeSectors, ih (Nat.le_of_succ_le hm)]
    simp only [hsector, hindex, Option.bind_eq_bind, Option.bind_some]

end Rounds

theorem slice_start (he : Extent length blocks) {n : ℕ} (hn : 0 < n) (hle : position + n ≤ length) :
    Indexed.slice (spanOf n position).bufferSize ((spanOf n position).start position)
      (spanOf n position).numBytes = some (position - position / sectorSize * sectorSize) := by
  have hr := spanOf_inRange he hn hle
  rw [Indexed.slice, if_pos ⟨hr.low, hr.high⟩]
  refine congrArg some ?_
  show ((position : ℤ) - (position / 512 : ℕ) * 512).toNat = position - position / 512 * 512
  omega

/-- `ReadAt` keeps to its indices. -/
theorem readAt_eq (hd : hdr.Describes length blocks) (he : Extent length blocks) (d : Disk)
    (junk : ℕ → Byte) (hint : position + numBytes < 2 ^ 31) :
    Indexed.readAt hdr d junk numBytes position = Offsets.readAt hdr d junk numBytes position := by
  unfold Indexed.readAt Offsets.readAt
  rw [hd.numBytes]
  by_cases hc : numBytes ≤ 0 ∨ (length : ℤ) ≤ position
  · rw [span_eq_none hc, if_pos hc]
  · obtain ⟨hn, hpos, hle⟩ := clip_eq.2 hc
    rw [span_eq_some he hint hc, if_neg hc, hn]
    dsimp only
    rw [rounds_eq, readSectors_eq hd he hpos hle le_rfl, slice_start he hpos hle]
    rfl

theorem readInto_eq (hd : hdr.Describes length blocks) (he : Extent length blocks) (d : Disk)
    (junk buf : ℕ → Byte) {size : ℤ} {i : ℕ} (hi : i + sectorSize ≤ size)
    (hposition : position < length) :
    Indexed.readInto hdr d junk buf size i position = Offsets.readInto hdr d junk buf i position := by
  have hlen : length ≤ 524288 := he.length_le
  have hint : (position : ℤ) + (sectorSize : ℕ) < 2 ^ 31 := by
    show (position : ℤ) + 512 < 2 ^ 31
    omega
  unfold Indexed.readInto Offsets.readInto
  rw [readAt_eq hd he d junk hint, Offsets.readAt_spec hd he, Option.map_some]
  simp only [Option.bind_eq_bind, Option.bind_some, List.length_map, List.length_range]
  have hclip : clip length (sectorSize : ℕ) position ≤ sectorSize := Nat.min_le_left _ _
  rw [Indexed.slice, if_pos ⟨Int.natCast_nonneg _, by omega⟩, Int.toNat_natCast]
  rfl

theorem beq_natCast (a b : ℕ) : ((a : ℤ) == (b : ℤ)) = (a == b) := by
  rw [Bool.eq_iff_iff, beq_iff_eq, beq_iff_eq, Int.natCast_inj]

theorem writeBuffer_eq (hd : hdr.Describes length blocks) (he : Extent length blocks) (d : Disk)
    (junk : ℕ → Byte) {n : ℕ} (hn : 0 < n) (hle : position + n ≤ length) :
    Indexed.writeBuffer hdr d junk (spanOf n position) position =
      Offsets.writeBuffer hdr d junk n position := by
  have hlen : length ≤ 524288 := he.length_le
  have horder : position / 512 ≤ (position + n - 1) / 512 := Nat.div_le_div_right (by omega)
  have hsize := (spanOf_inRange he hn hle).size
  -- the numbers of the code as natural numbers
  have hfirst : (spanOf n position).firstSector * (sectorSize : ℕ) =
      (position / sectorSize * sectorSize : ℕ) := (Nat.cast_mul _ _).symm
  have hlast : (spanOf n position).lastSector * (sectorSize : ℕ) =
      ((position + n - 1) / sectorSize * sectorSize : ℕ) := (Nat.cast_mul _ _).symm
  have hend : asInt (position + (spanOf n position).numBytes) = (position + n : ℕ) :=
    asInt_eq (x := (position : ℤ) + n) (by omega) (by omega)
  have hnext : ((spanOf n position).lastSector + 1) * (sectorSize : ℕ) =
      (((position + n - 1) / sectorSize + 1) * sectorSize : ℕ) := by
    rw [Nat.cast_mul, Nat.cast_add]
    rfl
  have hbetween : ((spanOf n position).lastSector - (spanOf n position).firstSector) *
      (sectorSize : ℕ) =
        (((position + n - 1) / sectorSize - position / sectorSize) * sectorSize : ℕ) := by
    rw [Nat.cast_mul, Nat.cast_sub horder]
    rfl
  have hbne : ((spanOf n position).firstSector != (spanOf n position).lastSector) =
      (position / sectorSize != (position + n - 1) / sectorSize) :=
    congrArg (!·) (beq_natCast _ _)
  have hroom : ((((position + n - 1) / sectorSize - position / sectorSize) * sectorSize : ℕ) : ℤ) +
      sectorSize ≤ (spanOf n position).bufferSize := by
    rw [← hbetween, hsize]
    show _ * (512 : ℤ) + 512 ≤ _ * (512 : ℤ)
    omega
  have hread₁ : ∀ buf, Indexed.readInto hdr d junk buf (spanOf n position).bufferSize 0
      (position / sectorSize * sectorSize : ℕ) =
        Offsets.readInto hdr d junk buf 0 (position / sectorSize * sectorSize) := fun buf =>
    readInto_eq (i := 0) hd he d junk buf (by omega) (by simp only [sectorSize]; omega)
  have hread₂ : ∀ buf, Indexed.readInto hdr d junk buf (spanOf n position).bufferSize
      (((position + n - 1) / sectorSize - position / sectorSize) * sectorSize : ℕ)
      ((position + n - 1) / sectorSize * sectorSize : ℕ) =
        Offsets.readInto hdr d junk buf (((position + n - 1) / sectorSize - position / sectorSize) *
          sectorSize) ((position + n - 1) / sectorSize * sectorSize) := fun buf =>
    readInto_eq hd he d junk buf hroom (by simp only [sectorSize]; omega)
  unfold Indexed.writeBuffer Offsets.writeBuffer
  simp only [hfirst, hlast, hend, hnext, hbetween, hbne, beq_natCast, hread₁, hread₂]

/-- `WriteAt` keeps to its indices. -/
theorem writeAt_eq (hd : hdr.Describes length blocks) (he : Extent length blocks) (d : Disk)
    (junk source : ℕ → Byte) (hint : position + numBytes < 2 ^ 31) :
    Indexed.writeAt hdr d junk source numBytes position =
      (Offsets.writeAt hdr d junk source numBytes position).map fun x => ((x.1 : ℤ), x.2) := by
  unfold Indexed.writeAt Offsets.writeAt
  rw [hd.numBytes]
  by_cases hc : numBytes ≤ 0 ∨ (length : ℤ) ≤ position
  · rw [span_eq_none hc, if_pos hc]
    rfl
  · obtain ⟨hn, hpos, hle⟩ := clip_eq.2 hc
    rw [span_eq_some he hint hc, if_neg hc, hn]
    dsimp only
    rw [writeBuffer_eq hd he d junk hpos hle, rounds_eq, slice_start he hpos hle]
    simp only [Option.bind_eq_bind, Option.bind_some, Option.map_bind]
    refine congrArg _ (funext fun buf => ?_)
    have hcount : (spanOf (clip length numBytes position) position).numBytes.toNat =
        clip length numBytes position := Int.toNat_natCast _
    rw [hcount, writeSectors_eq hd he hpos hle le_rfl, Function.comp_apply, Option.map_bind]
    rfl

end Requests

/-! ## What is transferred -/

/-- A request whose sums are `int`s: one for nothing, one from behind the end of the file, or one
from an offset on that ends below `2 ^ 31`. -/
def FileHeader.Fits (hdr : FileHeader) (numBytes position : ℤ) : Prop :=
  numBytes ≤ 0 ∨ hdr.numBytes ≤ position ∨ 0 ≤ position ∧ position + numBytes < 2 ^ 31

section Specs

variable {hdr : FileHeader} {length : ℕ} {blocks : List ℕ} {numBytes position : ℤ}

theorem clip_eq_zero (hc : numBytes ≤ 0 ∨ (length : ℤ) ≤ position) :
    clip length numBytes position.toNat = 0 := by
  unfold clip
  omega

/-- `ReadAt` reads the bytes of the file. -/
theorem Indexed.readAt_spec (hd : hdr.Describes length blocks) (he : Extent length blocks)
    (d : Disk) (junk : ℕ → Byte) (hfits : hdr.Fits numBytes position) :
    readAt hdr d junk numBytes position = some
      ((List.range (clip length numBytes position.toNat)).map fun j =>
        fileByte d blocks (position.toNat + j)) := by
  unfold FileHeader.Fits at hfits
  rw [hd.numBytes] at hfits
  by_cases hc : numBytes ≤ 0 ∨ (length : ℤ) ≤ position
  · rw [clip_eq_zero hc, readAt, hd.numBytes, span_eq_none hc]
    rfl
  · obtain ⟨hpos, hint⟩ := (hfits.resolve_left fun h => hc (.inl h)).resolve_left
      fun h => hc (.inr h)
    lift position to ℕ using hpos
    rw [readAt_eq hd he d junk hint, Int.toNat_natCast]
    exact Offsets.readAt_spec hd he d junk numBytes position

/-- `WriteAt` changes the bytes of the file it is given, and no other sector. -/
theorem Indexed.writeAt_spec (hd : hdr.Describes length blocks) (he : Extent length blocks)
    (d : Disk) (junk source : ℕ → Byte) (hfits : hdr.Fits numBytes position) :
    ∃ d', writeAt hdr d junk source numBytes position =
        some ((clip length numBytes position.toNat : ℤ), d') ∧
      (∀ s, s ∉ blocks → d' s = d s) ∧
      ∀ offset < length, fileByte d' blocks offset =
        if position.toNat ≤ offset ∧
            offset < position.toNat + clip length numBytes position.toNat then
          source (offset - position.toNat)
        else fileByte d blocks offset := by
  unfold FileHeader.Fits at hfits
  rw [hd.numBytes] at hfits
  by_cases hc : numBytes ≤ 0 ∨ (length : ℤ) ≤ position
  · refine ⟨d, ?_, fun _ _ => rfl, fun offset _ => ?_⟩
    · rw [clip_eq_zero hc, writeAt, hd.numBytes, span_eq_none hc]
      rfl
    · rw [clip_eq_zero hc, if_neg (by omega)]
  · obtain ⟨hpos, hint⟩ := (hfits.resolve_left fun h => hc (.inl h)).resolve_left
      fun h => hc (.inr h)
    lift position to ℕ using hpos
    obtain ⟨d', hwrite, hother, hbytes⟩ :=
      Offsets.writeAt_spec hd he d junk source numBytes position
    refine ⟨d', ?_, hother, hbytes⟩
    rw [writeAt_eq hd he d junk source hint, hwrite, Option.map_some, Int.toNat_natCast]

/-- The position behind a request is an offset again. -/
theorem asInt_moved (he : Extent length blocks) (h₀ : 0 ≤ position) (h₁ : position < 2 ^ 31) :
    asInt (position + (clip length numBytes position.toNat : ℕ)) =
      position + (clip length numBytes position.toNat : ℕ) := by
  have hlen : length ≤ 524288 := he.length_le
  have hclip : clip length numBytes position.toNat ≤ length - position.toNat := Nat.min_le_right _ _
  exact asInt_eq (by omega) (by omega)

end Specs

/-- `ReadAt` and `WriteAt` transfer the bytes of the file from `position` on, as many as are asked
for and there are; nothing else of the file or of another file changes, and no index leaves its
array. -/
theorem transfer_bytes {hdr : FileHeader} {length : ℕ} {blocks : List ℕ}
    (hd : hdr.Describes length blocks) (he : Extent length blocks) (d : Disk) (junk : ℕ → Byte)
    (position : ℕ) {numBytes : ℤ} (hint : position + numBytes < 2 ^ 31) :
    ∃ r : ℕ, (r : ℤ) = max 0 (min numBytes (length - position)) ∧
      Indexed.readAt hdr d junk numBytes position =
        some ((List.range r).map fun j => fileByte d blocks (position + j)) ∧
      (∀ source, ∃ d', Indexed.writeAt hdr d junk source numBytes position =
          some ((r : ℤ), d') ∧
        (∀ s, s ∉ blocks → d' s = d s) ∧
        ∀ offset < length, fileByte d' blocks offset =
          if position ≤ offset ∧ offset < position + r then source (offset - position)
          else fileByte d blocks offset) ∧
      ∀ s, span hdr.numBytes numBytes position = some s → s.InRange hdr.numSectors position := by
  have hfits : hdr.Fits numBytes position := .inr (.inr ⟨Int.natCast_nonneg position, hint⟩)
  refine ⟨clip length numBytes position, ?_, ?_, fun source => ?_, fun s hs => ?_⟩
  · unfold clip
    omega
  · exact Indexed.readAt_spec hd he d junk hfits
  · exact Indexed.writeAt_spec hd he d junk source hfits
  · rw [hd.numBytes] at hs
    rw [hd.numSectors]
    by_cases hc : numBytes ≤ 0 ∨ (length : ℤ) ≤ position
    · rw [span_eq_none hc] at hs
      cases hs
    · obtain ⟨-, hpos, hle⟩ := clip_eq.2 hc
      rw [span_eq_some he hint hc] at hs
      cases hs
      exact spanOf_inRange he hpos hle

/-- A file of three bytes in the sector 5. -/
def threeBytes : FileHeader where
  numBytes := 3
  numSectors := 1
  dataSectors := fun _ => 5

/-- Of five bytes from the offset 1 on there are two. -/
theorem transfer_bytes_three : ∃ r : ℕ, (r : ℤ) = 2 ∧
    Indexed.readAt threeBytes (fun _ _ => 7) (fun _ => 0) 5 1 =
      some ((List.range r).map fun _ => 7) := by
  have hd : threeBytes.Describes 3 [5] := by
    refine ⟨rfl, rfl, fun j hj => ?_⟩
    obtain rfl : j = 0 := Nat.lt_one_iff.mp hj
    rfl
  have he : Extent 3 [5] := ⟨rfl, List.nodup_singleton 5, by decide⟩
  obtain ⟨r, hr, hread, -⟩ := transfer_bytes hd he (fun _ _ => 7) (fun _ => 0) 1
    (show ((1 : ℕ) : ℤ) + 5 < 2 ^ 31 by decide)
  exact ⟨r, hr, hread⟩

end Nachos
