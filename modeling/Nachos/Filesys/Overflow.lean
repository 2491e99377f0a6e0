import Nachos.Filesys.ByteTransfer

/-!
# Requests that overflow

A request that does not fit is not clipped to the file. Where the sum of its position and its length
wraps around, `ReadAt` and `WriteAt` return the whole number of bytes asked for, if they return. Where
its position is negative, the first sector is not one of the file, or the first byte is not in the
buffer.
-/

namespace Nachos

open Buffer

/-- A sum of two `int`s that is too large is negative. -/
theorem asInt_of_ge {x : ℤ} (h₁ : 2 ^ 31 ≤ x) (h₂ : x < 2 ^ 32) : asInt x = x - 2 ^ 32 := by
  unfold asInt
  rw [BitVec.toInt_ofInt, Int.bmod_def]
  split_ifs <;> omega

section Overflow

variable {hdr : FileHeader} {length : ℕ} {blocks : List ℕ} {numBytes position : ℤ} {s : Span}

theorem span_of_ge (he : Extent length blocks) (hn : numBytes < 2 ^ 31) (hp : 0 ≤ position)
    (hlt : position < length) (hge : 2 ^ 31 ≤ position + numBytes)
    (hs : span length numBytes position = some s) : s.numBytes = numBytes := by
  have hlen : length ≤ 524288 := he.length_le
  have hsum := asInt_of_ge hge (by omega)
  unfold span at hs
  rw [if_neg (by omega), hsum, if_neg (by omega)] at hs
  cases hs
  rfl

/-- The numbers of a request from before the file. -/
theorem span_of_neg (he : Extent length blocks) (hn : numBytes < 2 ^ 31) (h₀ : 0 < numBytes)
    (hp : -2 ^ 31 ≤ position) (hneg : position < 0)
    (hs : span length numBytes position = some s) :
    s.firstSector = position.tdiv sectorSize ∧ s.firstSector ≤ s.lastSector := by
  have hlen : length ≤ 524288 := he.length_le
  unfold span at hs
  rw [if_neg (by omega), asInt_eq (by omega) (by omega)] at hs
  cases hs
  refine ⟨rfl, Int.tdiv_le_tdiv (by decide) ?_⟩
  split_ifs with hclip
  · rw [asInt_eq (x := length - position) (by omega) (by omega), asInt_eq (by omega) (by omega)]
    omega
  · rw [asInt_eq (by omega) (by omega)]
    omega

/-- The first sector is not one of the file, or the first byte is not in the buffer. -/
theorem unserved_of_neg (he : Extent length blocks) (hn : numBytes < 2 ^ 31) (h₀ : 0 < numBytes)
    (hp : -2 ^ 31 ≤ position) (hneg : position < 0)
    (hs : span length numBytes position = some s) :
    Indexed.slice s.bufferSize (s.start position) s.numBytes = none ∨
      0 < (s.lastSector + 1 - s.firstSector).toNat ∧
        Indexed.byteToSector hdr (asInt ((s.firstSector + (0 : ℕ)) * sectorSize)) = none := by
  obtain ⟨hfirst, hle⟩ := span_of_neg he hn h₀ hp hneg hs
  obtain ⟨k, hk⟩ := Int.exists_eq_neg_ofNat hneg.le
  have hdiv : s.firstSector = -((k / 512 : ℕ) : ℤ) := by
    rw [hfirst, hk, Int.neg_tdiv]
    rfl
  rcases Nat.lt_or_ge k 512 with hnear | hfar
  · left
    rw [Indexed.slice, if_neg]
    rintro ⟨hstart, -⟩
    unfold Span.start at hstart
    rw [hdiv, Nat.div_eq_of_lt hnear] at hstart
    omega
  · right
    refine ⟨by omega, ?_⟩
    have hoffset : asInt ((s.firstSector + (0 : ℕ)) * sectorSize) = s.firstSector * sectorSize := by
      rw [Nat.cast_zero, add_zero, hdiv]
      show asInt (-((k / 512 : ℕ) : ℤ) * 512) = -((k / 512 : ℕ) : ℤ) * 512
      exact asInt_eq (by omega) (by omega)
    rw [hoffset, Indexed.byteToSector, Int.mul_tdiv_cancel _ (by decide), if_neg]
    omega

/-- What becomes of a request that does not fit. -/
theorem span_of_not_fits (hd : hdr.Describes length blocks) (he : Extent length blocks)
    (hn : numBytes < 2 ^ 31) (hp : -2 ^ 31 ≤ position) (hno : ¬ hdr.Fits numBytes position) :
    ∃ s, span hdr.numBytes numBytes position = some s ∧
      (Indexed.slice s.bufferSize (s.start position) s.numBytes = none ∨
        (0 < (s.lastSector + 1 - s.firstSector).toNat ∧
          Indexed.byteToSector hdr (asInt ((s.firstSector + (0 : ℕ)) * sectorSize)) = none) ∨
        clip length numBytes position.toNat < s.numBytes.toNat) := by
  unfold FileHeader.Fits at hno
  rw [hd.numBytes, not_or, not_or, not_le, not_le] at hno
  obtain ⟨h₀, hlt, hout⟩ := hno
  rw [hd.numBytes]
  obtain ⟨s, hs⟩ : ∃ s, span length numBytes position = some s := ⟨_, if_neg (by omega)⟩
  refine ⟨s, hs, ?_⟩
  rcases Int.lt_or_le position 0 with hneg | hpos
  · exact (unserved_of_neg he hn h₀ hp hneg hs).imp_right Or.inl
  · have hlen : length ≤ 524288 := he.length_le
    right
    right
    rw [span_of_ge he hn hpos hlt (by omega) hs]
    unfold clip
    omega

namespace Indexed

/-- Every round takes a sector of the file. -/
theorem round_of_readSectors {d : Disk} {buf buf' : ℕ → Byte} {m i : ℕ}
    (h : readSectors hdr d s buf m = some buf') (hi : i < m) :
    byteToSector hdr (asInt ((s.firstSector + i) * sectorSize)) ≠ none := by
  induction m generalizing buf' with
  | zero => omega
  | succ m ih =>
    obtain ⟨buf₁, h₁, h⟩ := Option.bind_eq_some_iff.mp h
    obtain ⟨sector, h₂, -⟩ := Option.bind_eq_some_iff.mp h
    rcases Nat.lt_succ_iff_lt_or_eq.mp hi with hlt | rfl
    · exact ih h₁ hlt
    · rw [h₂]
      exact nofun

theorem round_of_writeSectors {d d' : Disk} {buf : ℕ → Byte} {m i : ℕ}
    (h : writeSectors hdr d s buf m = some d') (hi : i < m) :
    byteToSector hdr (asInt ((s.firstSector + i) * sectorSize)) ≠ none := by
  induction m generalizing d' with
  | zero => omega
  | succ m ih =>
    obtain ⟨d₁, h₁, h⟩ := Option.bind_eq_some_iff.mp h
    obtain ⟨sector, h₂, -⟩ := Option.bind_eq_some_iff.mp h
    rcases Nat.lt_succ_iff_lt_or_eq.mp hi with hlt | rfl
    · exact ih h₁ hlt
    · rw [h₂]
      exact nofun

/-- What a read has done that returns bytes. -/
theorem readAt_some {d : Disk} {junk : ℕ → Byte} {bytes : List Byte}
    (hs : span hdr.numBytes numBytes position = some s)
    (h : readAt hdr d junk numBytes position = some bytes) :
    bytes.length = s.numBytes.toNat ∧ slice s.bufferSize (s.start position) s.numBytes ≠ none ∧
      ∃ buf, readSectors hdr d s junk (s.lastSector + 1 - s.firstSector).toNat = some buf := by
  unfold readAt at h
  rw [hs] at h
  obtain ⟨buf, hbuf, h⟩ := Option.bind_eq_some_iff.mp h
  obtain ⟨index, hindex, h⟩ := Option.bind_eq_some_iff.mp h
  cases h
  refine ⟨by rw [List.length_map, List.length_range], ?_, buf, hbuf⟩
  rw [hindex]
  exact nofun

/-- What a write has done that returns. -/
theorem writeAt_some {d d' : Disk} {junk source : ℕ → Byte} {n : ℤ}
    (hs : span hdr.numBytes numBytes position = some s)
    (h : writeAt hdr d junk source numBytes position = some (n, d')) :
    n = s.numBytes ∧ slice s.bufferSize (s.start position) s.numBytes ≠ none ∧
      ∃ buf, writeSectors hdr d s buf (s.lastSector + 1 - s.firstSector).toNat = some d' := by
  unfold writeAt at h
  rw [hs] at h
  obtain ⟨buf, hbuf, h⟩ := Option.bind_eq_some_iff.mp h
  obtain ⟨index, hindex, h⟩ := Option.bind_eq_some_iff.mp h
  obtain ⟨d₁, hwrite, h⟩ := Option.bind_eq_some_iff.mp h
  cases h
  refine ⟨rfl, ?_, _, hwrite⟩
  rw [hindex]
  exact nofun

/-- A read that does not fit returns more bytes than there are, if it returns. -/
theorem readAt_of_not_fits (hd : hdr.Describes length blocks) (he : Extent length blocks)
    (hn : numBytes < 2 ^ 31) (hp : -2 ^ 31 ≤ position) (hno : ¬ hdr.Fits numBytes position)
    {d : Disk} {junk : ℕ → Byte} {bytes : List Byte}
    (h : readAt hdr d junk numBytes position = some bytes) :
    clip length numBytes position.toNat < bytes.length := by
  obtain ⟨s, hs, hfails⟩ := span_of_not_fits hd he hn hp hno
  obtain ⟨hlength, hslice, buf, hread⟩ := readAt_some hs h
  rcases hfails with hnone | ⟨hrounds, hnone⟩ | hlt
  · exact absurd hnone hslice
  · exact absurd hnone (round_of_readSectors hread hrounds)
  · rw [hlength]
    exact hlt

/-- A write that does not fit returns more than there is room for, if it returns. -/
theorem writeAt_of_not_fits (hd : hdr.Describes length blocks) (he : Extent length blocks)
    (hn : numBytes < 2 ^ 31) (hp : -2 ^ 31 ≤ position) (hno : ¬ hdr.Fits numBytes position)
    {d d' : Disk} {junk source : ℕ → Byte} {n : ℤ}
    (h : writeAt hdr d junk source numBytes position = some (n, d')) :
    clip length numBytes position.toNat < n := by
  obtain ⟨s, hs, hfails⟩ := span_of_not_fits hd he hn hp hno
  obtain ⟨rfl, hslice, buf, hwrite⟩ := writeAt_some hs h
  rcases hfails with hnone | ⟨hrounds, hnone⟩ | hlt
  · exact absurd hnone hslice
  · exact absurd hnone (round_of_writeSectors hwrite hrounds)
  · omega

end Indexed

end Overflow

end Nachos
