import Mathlib.Data.Int.ModEq
import Mathlib.Order.Bounds.Basic
import Mathlib.Tactic.Linarith
import Mathlib.Tactic.Ring
import Nachos.Filesys.SynchDisk
import Nachos.Machine.Interrupt

/-!
# How long the disk takes, `disk.cc`

One sector passes the head in `RotationTime` ticks, and the head moves to the next track in
`SeekTime` ticks. `ComputeLatency` adds up the seek, the rest of the sector that the head comes down
in, the rotation to the sector and the transfer. Ticks are integers; the `int`s of the code wrap
around where they get too large.

`isLeast_rotation` is the argument, for any rotation: behind the end of the seek the head passes the
sector for the first time when the code says so.
-/

namespace Nachos

abbrev rotationTime : ℤ := 500

abbrev seekTime : ℤ := 500

abbrev sectorsPerTrack : ℤ := 32

/-- `class Disk`, without the file and the handler. -/
structure DiskDevice where
  active : Bool
  lastSector : ℤ
  bufferInit : ℤ
  deriving DecidableEq, Repr

namespace DiskDevice

/-- `Disk::Disk` -/
def new : DiskDevice where
  active := false
  lastSector := 0
  bufferInit := 0

/-- `Disk::TimeToSeek`: the seek and `*rotation` -/
def timeToSeek (d : DiskDevice) (totalTicks newSector : ℤ) : ℤ × ℤ :=
  let newTrack := newSector.tdiv sectorsPerTrack
  let oldTrack := d.lastSector.tdiv sectorsPerTrack
  let seek := |newTrack - oldTrack| * seekTime
  let over_ := (totalTicks + seek).tmod rotationTime
  (seek, if 0 < over_ then rotationTime - over_ else 0)

/-- `Disk::ModuloDiff` -/
def moduloDiff (target current : ℤ) : ℤ :=
  let toOffset := target.tmod sectorsPerTrack
  let fromOffset := current.tmod sectorsPerTrack
  (toOffset - fromOffset + sectorsPerTrack).tmod sectorsPerTrack

/-- `timeAfter` of `ComputeLatency` -/
def timeAfter (d : DiskDevice) (totalTicks newSector : ℤ) : ℤ :=
  totalTicks + (d.timeToSeek totalTicks newSector).1 + (d.timeToSeek totalTicks newSector).2

/-- The sector is in the track buffer. -/
def inTrackBuffer (d : DiskDevice) (totalTicks newSector : ℤ) : Bool :=
  (d.timeToSeek totalTicks newSector).1 = 0 &&
    moduloDiff newSector (d.bufferInit.tdiv rotationTime) <
      (d.timeAfter totalTicks newSector - d.bufferInit).tdiv rotationTime

/-- `Disk::ComputeLatency` -/
def computeLatency (d : DiskDevice) (totalTicks newSector : ℤ) (writing : Bool) : ℤ :=
  let (seek, rotation) := d.timeToSeek totalTicks newSector
  if writing = false ∧ d.inTrackBuffer totalTicks newSector = true then rotationTime
  else
    let rotation := rotation +
      moduloDiff newSector ((d.timeAfter totalTicks newSector).tdiv rotationTime) * rotationTime
    seek + rotation + rotationTime

/-- `Disk::UpdateLast` -/
def updateLast (d : DiskDevice) (totalTicks newSector : ℤ) : DiskDevice :=
  let (seek, rotate) := d.timeToSeek totalTicks newSector
  { d with bufferInit := if seek ≠ 0 then totalTicks + seek + rotate else d.bufferInit
           lastSector := newSector }

/-- `Disk::ReadRequest` and `Disk::WriteRequest`, but for the data; `none` is a failed `ASSERT`, of
their own or in `Schedule`. -/
def request {σ : Type} (d : DiskDevice) (i : Interrupt σ) (handler : ℕ) (this : ℤ)
    (sectorNumber : ℤ) (writing : Bool) : Option (DiskDevice × Interrupt σ) :=
  let ticks := d.computeLatency i.totalTicks sectorNumber writing
  if d.active = true ∨ ¬ (0 ≤ sectorNumber ∧ sectorNumber < numSectors) then none
  else
    (i.schedule { handler := handler, arg := this, fromNow := ticks, type := .disk }).map fun i =>
      ({ d with active := true }.updateLast i.totalTicks sectorNumber, i)

/-! ## Rotation -/

/-- Among the multiples of `r` whose quotient is `t + 1` modulo `m`, the first that is at least a
whole `r` behind `e`: `q` is `e` by `r`, rounded up. -/
theorem isLeast_rotation {r m e t q : ℤ} (hr : 0 < r) (hm : 0 < m) (hq : e ≤ q * r)
    (hq' : (q - 1) * r < e) :
    IsLeast {T | r ∣ T ∧ T / r ≡ t + 1 [ZMOD m] ∧ e ≤ T - r} ((q + (t - q) % m + 1) * r) := by
  have hd₀ : 0 ≤ (t - q) % m := Int.emod_nonneg _ hm.ne'
  constructor
  · refine ⟨Dvd.intro_left _ rfl, ?_, ?_⟩
    · rw [Int.mul_ediv_cancel _ hr.ne']
      have hmod : q + (t - q) % m ≡ q + (t - q) [ZMOD m] := (Int.mod_modEq _ _).add_left q
      rw [add_sub_cancel] at hmod
      exact hmod.add_right 1
    · have hrest : 0 ≤ (t - q) % m * r := mul_nonneg hd₀ hr.le
      linarith [add_mul (q + (t - q) % m) 1 r, add_mul q ((t - q) % m) r]
  · rintro T ⟨⟨k, rfl⟩, hmod, hle⟩
    rw [Int.mul_ediv_cancel_left _ hr.ne'] at hmod
    -- the quotient is behind `q`
    have hqk : q ≤ k - 1 := by
      by_contra hlt
      have hmul : (k - 1) * r ≤ (q - 1) * r := by
        refine mul_le_mul_of_nonneg_right ?_ hr.le
        omega
      linarith [sub_mul k 1 r, mul_comm r k]
    have hdiff : k - 1 - q ≡ t - q [ZMOD m] := by
      have h := (hmod.sub_right 1).sub_right q
      rwa [add_sub_cancel_right] at h
    have hlek : (t - q) % m ≤ k - 1 - q := by
      have hmul := Int.mul_ediv_add_emod (k - 1 - q) m
      have hquot : 0 ≤ m * ((k - 1 - q) / m) :=
        mul_nonneg hm.le (Int.ediv_nonneg (by omega) hm.le)
      rw [← hdiff]
      omega
    rw [mul_comm r k]
    exact mul_le_mul_of_nonneg_right (by omega) hr.le

/-! ## The latency -/

section Latency

variable {d : DiskDevice} {totalTicks newSector : ℤ}

theorem seek_nonneg (d : DiskDevice) (totalTicks newSector : ℤ) :
    0 ≤ (d.timeToSeek totalTicks newSector).1 :=
  mul_nonneg (abs_nonneg _) (by decide)

/-- The number of whole sectors when the head is over the track: the end of the seek, rounded up. -/
theorem timeAfter_eq (d : DiskDevice) (newSector : ℤ) (ht : 0 ≤ totalTicks) :
    d.timeAfter totalTicks newSector =
        (d.timeAfter totalTicks newSector).tdiv rotationTime * rotationTime ∧
      totalTicks + (d.timeToSeek totalTicks newSector).1 ≤ d.timeAfter totalTicks newSector ∧
      d.timeAfter totalTicks newSector <
        totalTicks + (d.timeToSeek totalTicks newSector).1 + rotationTime := by
  have hseek := d.seek_nonneg totalTicks newSector
  have hrotation : (d.timeToSeek totalTicks newSector).2 =
      if 0 < (totalTicks + (d.timeToSeek totalTicks newSector).1).tmod rotationTime then
        rotationTime - (totalTicks + (d.timeToSeek totalTicks newSector).1).tmod rotationTime
      else 0 := rfl
  unfold timeAfter
  rw [hrotation]
  generalize (d.timeToSeek totalTicks newSector).1 = seek at *
  rw [Int.tmod_eq_emod_of_nonneg (by omega)]
  simp only [rotationTime]
  split_ifs
  · rw [Int.tdiv_eq_ediv_of_nonneg (by omega)]
    omega
  · rw [Int.tdiv_eq_ediv_of_nonneg (by omega)]
    omega

theorem moduloDiff_eq {target current : ℤ} (ht : 0 ≤ target) (hc : 0 ≤ current) :
    moduloDiff target current = (target - current) % sectorsPerTrack := by
  unfold moduloDiff
  simp only [sectorsPerTrack]
  rw [Int.tmod_eq_emod_of_nonneg ht, Int.tmod_eq_emod_of_nonneg hc,
    Int.tmod_eq_emod_of_nonneg (by omega)]
  omega

theorem computeLatency_buffer {writing : Bool}
    (h : writing = false ∧ d.inTrackBuffer totalTicks newSector = true) :
    d.computeLatency totalTicks newSector writing = rotationTime := if_pos h

/-- The time at which a request ends that goes to the disk itself. -/
theorem computeLatency_disk {writing : Bool}
    (h : writing = true ∨ d.inTrackBuffer totalTicks newSector = false) :
    totalTicks + d.computeLatency totalTicks newSector writing =
      d.timeAfter totalTicks newSector + moduloDiff newSector
        ((d.timeAfter totalTicks newSector).tdiv rotationTime) * rotationTime + rotationTime := by
  have hc : ¬ (writing = false ∧ d.inTrackBuffer totalTicks newSector = true) := by
    rintro ⟨hw, hb⟩
    rcases h with h | h
    · rw [h] at hw; cases hw
    · rw [h] at hb; cases hb
  unfold computeLatency
  dsimp only
  rw [if_neg hc]
  unfold timeAfter
  ring

/-- Whole sectors at the end of the seek and of the request. -/
theorem computeLatency_sectors (hn : 0 ≤ newSector) (ht : 0 ≤ totalTicks) :
    ∃ q, d.timeAfter totalTicks newSector = q * rotationTime ∧ 0 ≤ q ∧ ∀ writing,
      writing = true ∨ d.inTrackBuffer totalTicks newSector = false →
        totalTicks + d.computeLatency totalTicks newSector writing =
          (q + (newSector - q) % sectorsPerTrack + 1) * rotationTime := by
  obtain ⟨hq, hle, -⟩ := d.timeAfter_eq newSector ht
  have hseek := d.seek_nonneg totalTicks newSector
  have hq₀ : 0 ≤ (d.timeAfter totalTicks newSector).tdiv rotationTime := by
    rw [Int.tdiv_eq_ediv_of_nonneg (by omega)]
    exact Int.ediv_nonneg (by omega) (by decide)
  refine ⟨_, hq, hq₀, fun writing h => ?_⟩
  rw [computeLatency_disk h, moduloDiff_eq hn hq₀]
  linarith

theorem rotationTime_le_computeLatency (hn : 0 ≤ newSector) (ht : 0 ≤ totalTicks)
    (writing : Bool) : rotationTime ≤ d.computeLatency totalTicks newSector writing := by
  by_cases h : writing = true ∨ d.inTrackBuffer totalTicks newSector = false
  · obtain ⟨q, hq, hq₀, hdisk⟩ := computeLatency_sectors (d := d) hn ht
    obtain ⟨-, hle, -⟩ := d.timeAfter_eq newSector ht
    have hseek := d.seek_nonneg totalTicks newSector
    have hmod : 0 ≤ (newSector - q) % sectorsPerTrack := Int.emod_nonneg _ (by decide)
    have he := hdisk writing h
    simp only [rotationTime] at *
    omega
  · rw [not_or, Bool.not_eq_true, Bool.not_eq_false] at h
    exact (computeLatency_buffer h).ge

/-- The head has just finished passing the sector. -/
def Passed (newSector time : ℤ) : Prop :=
  rotationTime ∣ time ∧ time / rotationTime ≡ newSector + 1 [ZMOD sectorsPerTrack]

/-- The times that `UpdateLast` sets `bufferInit` to: the head is between two sectors. -/
structure BufferOk (d : DiskDevice) : Prop where
  nonneg : 0 ≤ d.bufferInit
  boundary : rotationTime ∣ d.bufferInit

theorem bufferOk_new : new.BufferOk := ⟨le_refl 0, dvd_zero _⟩

theorem BufferOk.updateLast (h : d.BufferOk) (ht : 0 ≤ totalTicks) :
    (d.updateLast totalTicks newSector).BufferOk := by
  have hinit : (d.updateLast totalTicks newSector).bufferInit =
      if (d.timeToSeek totalTicks newSector).1 ≠ 0 then d.timeAfter totalTicks newSector
      else d.bufferInit := rfl
  obtain ⟨hq, hle, -⟩ := d.timeAfter_eq newSector ht
  have hseek := d.seek_nonneg totalTicks newSector
  constructor
  · rw [hinit]
    split_ifs
    · omega
    · exact h.nonneg
  · rw [hinit]
    split_ifs
    · exact Dvd.intro_left _ hq.symm
    · exact h.boundary

/-- A request to an idle disk is accepted. -/
theorem request_idle {σ : Type} {i : Interrupt σ} (h : d.BufferOk) (ha : d.active = false)
    (hn : 0 ≤ newSector ∧ newSector < numSectors) (ht : 0 ≤ i.totalTicks) (handler : ℕ) (this : ℤ)
    (writing : Bool) : ∃ d' i', d.request i handler this newSector writing = some (d', i') ∧
      d'.BufferOk ∧ d'.lastSector = newSector := by
  have hlatency := rotationTime_le_computeLatency (d := d) hn.1 ht writing
  have hpos : 0 < d.computeLatency i.totalTicks newSector writing :=
    lt_of_lt_of_le (by decide) hlatency
  have hactive : ({ d with active := true } : DiskDevice).BufferOk := ⟨h.nonneg, h.boundary⟩
  have hassert : ¬ (d.active = true ∨ ¬ (0 ≤ newSector ∧ newSector < numSectors)) := by
    rintro (h | h)
    · rw [ha] at h; cases h
    · exact h hn
  unfold request Interrupt.schedule
  dsimp only
  rw [if_neg hassert, if_pos hpos]
  exact ⟨_, _, rfl, hactive.updateLast ht, rfl⟩

/-- A read that is served from the track buffer: the sector has passed the head since the buffer
was started. -/
theorem inTrackBuffer_passed (h : d.BufferOk) (hn : 0 ≤ newSector)
    (hb : d.inTrackBuffer totalTicks newSector = true) :
    ∃ time, Passed newSector time ∧ d.bufferInit ≤ time - rotationTime ∧
      time ≤ d.timeAfter totalTicks newSector := by
  obtain ⟨q, hq⟩ := h.boundary
  have hq₀ : 0 ≤ q := by
    have := h.nonneg
    simp only [rotationTime] at hq
    omega
  have hinit : d.bufferInit ≤ q * rotationTime := by rw [hq, mul_comm]
  have hbefore : (q - 1) * rotationTime < d.bufferInit := by
    rw [hq]
    linarith [mul_comm q rotationTime]
  obtain ⟨⟨hdvd, hmod, hle⟩, -⟩ := isLeast_rotation (t := newSector) (by decide)
    (show 0 < sectorsPerTrack by decide) hinit hbefore
  refine ⟨_, ⟨hdvd, hmod⟩, hle, ?_⟩
  -- so many whole sectors have passed that the sector is one of them
  have hquot : d.bufferInit.tdiv rotationTime = q := by
    rw [hq, Int.mul_tdiv_cancel_left _ (by decide)]
  unfold inTrackBuffer at hb
  rw [Bool.and_eq_true, decide_eq_true_eq, decide_eq_true_eq, hquot, moduloDiff_eq hn hq₀] at hb
  have hrest : 0 ≤ (newSector - q) % sectorsPerTrack := Int.emod_nonneg _ (by decide)
  have hlt := hb.2
  have hpos : 0 ≤ d.timeAfter totalTicks newSector - d.bufferInit := by
    by_contra hneg
    have hle : (d.timeAfter totalTicks newSector - d.bufferInit).tdiv rotationTime ≤
        Int.tdiv 0 rotationTime := Int.tdiv_le_tdiv (by decide) (by omega)
    rw [Int.zero_tdiv] at hle
    omega
  rw [Int.tdiv_eq_ediv_of_nonneg hpos] at hlt
  simp only [rotationTime, sectorsPerTrack] at *
  omega

end Latency

end DiskDevice

end Nachos
