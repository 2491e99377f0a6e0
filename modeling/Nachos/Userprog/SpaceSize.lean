import Nachos.Userprog.Loader

/-!
# How much of a program its address space holds

The constructors add the sizes of the segments and of the stack as unsigned 32-bit numbers, and
compare the pages of this sum with the free frames. The sum can wrap around and be small, whatever
the sizes are; the addresses of the segments are not looked at. `refusedOrHolds_iff` says which
headers the constructors refuse or size correctly.
-/

namespace Nachos

namespace NoffHeader

def segments (h : NoffHeader) : List Segment := [h.code, h.initData, h.uninitData]

/-- The bytes that the program and its stack need. -/
def totalSize (h : NoffHeader) : ℤ :=
  h.code.size.toInt + h.initData.size.toInt + h.uninitData.size.toInt + userStackSize

theorem forall_segments {h : NoffHeader} {P : Segment → Prop} :
    (∀ seg ∈ h.segments, P seg) ↔ P h.code ∧ P h.initData ∧ P h.uninitData := by
  simp only [segments, List.forall_mem_cons, List.not_mem_nil, false_implies, implies_true,
    and_true]

end NoffHeader

/-- All bytes of the segment have addresses below `n`. -/
def Segment.Inside (seg : Segment) (n : ℕ) : Prop :=
  ∀ a : ℤ, seg.virtualAddr.toInt ≤ a → a < seg.virtualAddr.toInt + seg.size.toInt → 0 ≤ a ∧ a < n

theorem Segment.inside_iff {seg : Segment} {n : ℕ} (h : 0 ≤ seg.size.toInt) :
    seg.Inside n ↔ seg.size.toInt = 0 ∨
      0 ≤ seg.virtualAddr.toInt ∧ seg.virtualAddr.toInt + seg.size.toInt ≤ n := by
  constructor
  · intro hin
    rcases h.eq_or_lt with h0 | hpos
    · exact Or.inl h0.symm
    · have hfirst := hin seg.virtualAddr.toInt le_rfl (by omega)
      have hlast := hin (seg.virtualAddr.toInt + seg.size.toInt - 1) (by omega) (by omega)
      exact Or.inr ⟨hfirst.1, by omega⟩
  · rintro (h0 | ⟨hlow, hhigh⟩) a hle hlt
    · omega
    · exact ⟨by omega, by omega⟩

/-- The space is large enough for the sizes and addresses in the header. -/
structure AddrSpace.Holds (sp : AddrSpace) (h : NoffHeader) : Prop where
  sizes : ∀ seg ∈ h.segments, 0 ≤ seg.size.toInt
  room : h.totalSize ≤ (sp.numPages * pageSize : ℕ)
  inside : ∀ seg ∈ h.segments, seg.Inside (sp.numPages * pageSize)

/-- An address space that a constructor returns is empty for lack of memory, or holds the program;
where the kernel stops there is none. -/
structure RefusedOrHolds (h : NoffHeader) (s : Loader) (r : Built) : Prop where
  returned : ∀ sp, r = .returned sp → (s.gPhysPageBitMap.numClear < h.numPages ∧
    sp.pageTable = [] ∧ sp.numPages = 0) ∨ sp.Holds h

/-- The sizes are not negative and their sum is a 32-bit number; every segment that is not empty
lies in the pages of this sum. -/
structure NoffHeader.Consistent (h : NoffHeader) : Prop where
  sizes : ∀ seg ∈ h.segments, 0 ≤ seg.size.toInt
  total : h.totalSize < 2 ^ 32
  placed : ∀ seg ∈ h.segments, seg.size.toInt = 0 ∨ 0 ≤ seg.virtualAddr.toInt ∧
    seg.virtualAddr.toInt + seg.size.toInt ≤ (divRoundUp h.totalSize.toNat pageSize * pageSize : ℕ)

section Sizes

variable {h : NoffHeader}

theorem divRoundUp_mul_lt (n : ℕ) : divRoundUp n pageSize * pageSize < n + pageSize := by
  unfold divRoundUp
  rw [show pageSize = 512 from rfl]
  split_ifs <;> omega

/-- A size that is not negative is its own unsigned value. -/
theorem toNat_of_nonneg {w : Word} (hw : 0 ≤ w.toInt) :
    (w.toNat : ℤ) = w.toInt ∧ w.toNat < 2 ^ 31 := by
  have hlt := w.isLt
  rw [BitVec.toInt_eq_toNat_cond] at hw ⊢
  split_ifs at hw ⊢ <;> omega

/-- The unsigned sum is the sum of the sizes, up to one wrap-around. -/
theorem spaceSize_eq (hs : ∀ seg ∈ h.segments, 0 ≤ seg.size.toInt) :
    h.totalSize = h.spaceSize.toNat ∨
      h.totalSize = h.spaceSize.toNat + 2 ^ 32 ∧ h.spaceSize.toNat + pageSize < 2 ^ 32 := by
  obtain ⟨hc, hi, hu⟩ := NoffHeader.forall_segments.mp hs
  obtain ⟨hcode, hcode'⟩ := toNat_of_nonneg hc
  obtain ⟨hinit, hinit'⟩ := toNat_of_nonneg hi
  obtain ⟨huninit, huninit'⟩ := toNat_of_nonneg hu
  unfold NoffHeader.totalSize NoffHeader.spaceSize
  rw [← hcode, ← hinit, ← huninit, BitVec.toNat_add, BitVec.toNat_add, BitVec.toNat_add,
    BitVec.toNat_ofNat, show userStackSize = 1024 from rfl, show pageSize = 512 from rfl]
  omega

/-- For sizes that are not negative the pages suffice exactly when the sum does not wrap around. -/
theorem room_iff (hs : ∀ seg ∈ h.segments, 0 ≤ seg.size.toInt) :
    h.totalSize ≤ (h.numPages * pageSize : ℕ) ↔ h.totalSize < 2 ^ 32 := by
  have hlow := le_divRoundUp_mul h.spaceSize.toNat (show 0 < pageSize by decide)
  have hhigh := divRoundUp_mul_lt h.spaceSize.toNat
  have hlt := h.spaceSize.isLt
  unfold NoffHeader.numPages
  rcases spaceSize_eq hs with heq | ⟨heq, hwrap⟩ <;> omega

theorem numPages_eq (hs : ∀ seg ∈ h.segments, 0 ≤ seg.size.toInt) (ht : h.totalSize < 2 ^ 32) :
    h.numPages = divRoundUp h.totalSize.toNat pageSize := by
  have hnat : h.totalSize.toNat = h.spaceSize.toNat := by
    rcases spaceSize_eq hs with heq | ⟨heq, hwrap⟩ <;> omega
  rw [NoffHeader.numPages, hnat]

theorem holds_iff {sp : AddrSpace} (hp : sp.numPages = h.numPages) : sp.Holds h ↔ h.Consistent := by
  constructor
  · rintro ⟨hs, hroom, hin⟩
    rw [hp] at hroom hin
    have ht := (room_iff hs).mp hroom
    refine ⟨hs, ht, fun seg hseg => ?_⟩
    have hplaced := (Segment.inside_iff (hs seg hseg)).mp (hin seg hseg)
    rwa [numPages_eq hs ht] at hplaced
  · rintro ⟨hs, ht, hplaced⟩
    refine ⟨hs, hp ▸ (room_iff hs).mpr ht, fun seg hseg => ?_⟩
    rw [hp, numPages_eq hs ht]
    exact (Segment.inside_iff (hs seg hseg)).mpr (hplaced seg hseg)

end Sizes

/-- The constructors refuse a program or make a space that holds it, where its header is consistent
and where the wrapped sum still asks for too many pages. -/
theorem refusedOrHolds_iff (c : Constructor) {stack : ℕ → Byte} {file : List Byte} (s : Loader)
    (hm : (readHeader stack file).noffMagic = noffMagic) :
    RefusedOrHolds (readHeader stack file) s (AddrSpace.build c stack (some file) s).1 ↔
      (Accepted (readHeader stack file) s.gPhysPageBitMap →
        s.gPhysPageBitMap.numClear < (readHeader stack file).numPages ∨
          (readHeader stack file).Consistent) := by
  by_cases ha : Accepted (readHeader stack file) s.gPhysPageBitMap
  · obtain ⟨sp, s', hbuild, hb⟩ := build_accepted c ha
    rw [hbuild, forall_prop_of_true ha]
    by_cases hr : s.gPhysPageBitMap.numClear < (readHeader stack file).numPages
    · refine iff_of_true ⟨fun sp' hsp => Or.inl ?_⟩ (Or.inl hr)
      cases hsp
      refine ⟨hr, ?_, ?_⟩
      · rw [hb.table, framesFor, pagesFor_refused hr]
        rfl
      · rw [hb.pages, pagesFor_refused hr]
    · have hholds := holds_iff (hb.pages.trans (pagesFor_enough hr))
      constructor
      · intro h
        rcases h.returned sp rfl with ⟨hr', -⟩ | hsp
        · exact absurd hr' hr
        · exact Or.inr (hholds.mp hsp)
      · rintro (hr' | hcons)
        · exact absurd hr' hr
        · refine ⟨fun sp' hsp => Or.inr ?_⟩
          cases hsp
          exact hholds.mpr hcons
  · -- the kernel stops at a negative file position
    refine iff_of_true ?_ fun ha' => absurd ha' ha
    have hr : ¬ s.gPhysPageBitMap.numClear < (readHeader stack file).numPages := by
      intro hr
      have hseek : ∀ seg, seekOk seg 0 := fun seg _ i hi => absurd hi (Nat.not_lt_zero i)
      refine ha ⟨hm, ?_, ?_⟩ <;> rw [pagesFor_refused hr] <;> exact hseek _
    have hk : ¬ (seekOk (readHeader stack file).code (readHeader stack file).numPages ∧
        seekOk (readHeader stack file).initData (readHeader stack file).numPages) := by
      rintro ⟨hc, hd⟩
      exact ha ⟨hm, (pagesFor_enough hr).symm ▸ hc, (pagesFor_enough hr).symm ▸ hd⟩
    obtain ⟨s', hbuild⟩ := build_bad_seek rfl c hm hr hk
    rw [hbuild]
    exact ⟨fun sp hsp => by cases hsp⟩

/-- Two segments of 2 GB each, and two bytes: with the stack the sum is 1024. -/
def hugeSegments : NoffHeader where
  noffMagic := noffMagic
  code := { virtualAddr := 0#32, inFileAddr := 40#32, size := 0x7FFFFFFF#32 }
  initData := { virtualAddr := 0#32, inFileAddr := 40#32, size := 0x7FFFFFFF#32 }
  uninitData := { virtualAddr := 0#32, inFileAddr := 0#32, size := 2#32 }

/-- The space of `hugeSegments` has two pages. -/
theorem huge_program_in_two_pages : ∃ sp s',
    AddrSpace.build .fileName (fun _ => 0) (some hugeSegments.encode) (freshLoader fun _ => 0) =
        (.returned sp, s') ∧ sp.numPages = 2 ∧ hugeSegments.totalSize = 2 ^ 32 + 1024 ∧
      ¬ RefusedOrHolds hugeSegments (freshLoader fun _ => 0) (.returned sp) := by
  have hfree := numClear_freshLoader fun _ => 0
  have hread : readHeader (fun _ => 0) hugeSegments.encode = hugeSegments := by
    have h := readHeader_encode (fun _ => 0) hugeSegments []
    rwa [List.append_nil] at h
  have hr : ¬ (freshLoader fun _ => 0).gPhysPageBitMap.numClear < hugeSegments.numPages := by
    rw [hfree]
    decide
  have hpages := pagesFor_enough hr
  have ha : Accepted (readHeader (fun _ => 0) hugeSegments.encode)
      (freshLoader fun _ => 0).gPhysPageBitMap := by
    rw [hread]
    refine ⟨rfl, ?_, ?_⟩ <;> rw [hpages] <;> decide
  obtain ⟨sp, s', hbuild, hb⟩ := build_accepted .fileName ha
  have hnum : sp.numPages = hugeSegments.numPages := by
    rw [hread] at hb
    exact hb.pages.trans hpages
  refine ⟨sp, s', hbuild, hnum, by decide, ?_⟩
  intro h
  rcases h.returned sp rfl with hrefused | hholds
  · exact hr hrefused.1
  · exact absurd ((holds_iff hnum).mp hholds).total (by decide)

/-- A program of eight bytes. -/
theorem refusedOrHolds_tiny : RefusedOrHolds (readHeader (fun _ => 0) (tinyFile 0))
    (freshLoader fun _ => 0)
    (AddrSpace.build .fileName (fun _ => 0) (some (tinyFile 0)) (freshLoader fun _ => 0)).1 := by
  have hread := readHeader_tiny (fun _ => 0) 0
  have hcons : (readHeader (fun _ => 0) (tinyFile 0)).Consistent := by
    rw [hread]
    refine ⟨?_, by decide, ?_⟩ <;> rw [NoffHeader.forall_segments] <;> decide
  exact (refusedOrHolds_iff .fileName _ (congrArg NoffHeader.noffMagic hread)).mpr
    fun _ => Or.inr hcons

end Nachos
