import Nachos.Userprog.AddrSpace

/-!
# Where the loader puts a program

The copy loop of a segment reads the file in chunks of a page: chunk `i` goes from file offset
`inFileAddr + i * PageSize` to `virtualAddr + frame i * PageSize`, whatever the alignment of
`virtualAddr`. `LoadedFrom` says which chunk the byte at an index of `mainMemory` comes from in
the end (`last_loadCopies`).

1. `loads_contained_iff`: a load stays inside its own frames exactly when the first and the last
   byte of every chunk do (`LoadsInside`).
2. `load_faithful_iff`: a load gives the user program its image, for every previous content of
   `mainMemory`, exactly when the last chunk over every byte carries that byte (`LayoutOk`).
   `layoutOk_contiguous` gives the layouts the loader is made for.
-/

namespace Nachos

/-! ## Chunks -/

/-- The index of `mainMemory` where chunk `i` of a segment starts. -/
def chunkBase (seg : Segment) (frames : List ℕ) (i : ℕ) : ℤ :=
  seg.virtualAddr.toInt + (frames.getD i 0 : ℕ) * pageSize

/-- Chunk `i` of the segment is copied over the index `p` of `mainMemory`. -/
def Covers (seg : Segment) (len : ℕ) (frames : List ℕ) (i : ℕ) (p : ℤ) : Prop :=
  0 < seg.size.toInt ∧ chunkBase seg frames i ≤ p ∧ p < chunkBase seg frames i + chunkSize seg len i

/-- The last chunk of the segment over `p` carries the byte at file offset `off` there. -/
def LastChunk (seg : Segment) (len : ℕ) (frames : List ℕ) (p : ℤ) (off : ℕ) : Prop :=
  ∃ i < frames.length, Covers seg len frames i p ∧
    (∀ i' < frames.length, i < i' → ¬ Covers seg len frames i' p) ∧
    off = (filePosition seg i).toNat + (p - chunkBase seg frames i).toNat

/-- The last chunk of the load over `p` carries the byte at file offset `off` there: the
initialised data is copied after the code. -/
def LoadedFrom (h : NoffHeader) (len : ℕ) (frames : List ℕ) (p : ℤ) (off : ℕ) : Prop :=
  LastChunk h.initData len frames p off ∨
    (∀ i < frames.length, ¬ Covers h.initData len frames i p) ∧ LastChunk h.code len frames p off

theorem mem_pageCopies {seg : Segment} {len i : ℕ} {f p : ℤ} {off : ℕ} :
    (p, off) ∈ pageCopies seg len i f ↔
      seg.virtualAddr.toInt + f * pageSize ≤ p ∧
      p < seg.virtualAddr.toInt + f * pageSize + chunkSize seg len i ∧
      off = (filePosition seg i).toNat + (p - (seg.virtualAddr.toInt + f * pageSize)).toNat := by
  unfold pageCopies
  rw [List.mem_map]
  constructor
  · rintro ⟨j, hj, e⟩
    rw [List.mem_range] at hj
    rw [Prod.mk.injEq] at e
    omega
  · rintro ⟨h1, h2, h3⟩
    refine ⟨(p - (seg.virtualAddr.toInt + f * pageSize)).toNat, ?_, ?_⟩
    · rw [List.mem_range]; omega
    · rw [Prod.mk.injEq]; omega

theorem last_pageCopies (seg : Segment) (len i : ℕ) (f p : ℤ) (off : ℕ) :
    Store.last (pageCopies seg len i f) p = some off ↔ (p, off) ∈ pageCopies seg len i f := by
  refine ⟨Store.mem_of_last, fun h => Store.last_eq_some_of_unique h fun u hu => ?_⟩
  rw [(mem_pageCopies.mp h).2.2, (mem_pageCopies.mp hu).2.2]

theorem getD_map_cast (frames : List ℕ) (i : ℕ) :
    (frames.map fun f : ℕ => (f : ℤ)).getD i 0 = (frames.getD i 0 : ℕ) := by
  rw [List.getD_eq_getElem?_getD, List.getElem?_map, List.getD_eq_getElem?_getD]
  cases frames[i]? <;> rfl

section Chunks

variable {seg : Segment} {len : ℕ} {frames : List ℕ} {i : ℕ} {p : ℤ} {off : ℕ}

theorem last_chunk_some (hs : 0 < seg.size.toInt) :
    Store.last (pageCopies seg len i ((frames.map fun f : ℕ => (f : ℤ)).getD i 0)) p = some off ↔
      Covers seg len frames i p ∧
        off = (filePosition seg i).toNat + (p - chunkBase seg frames i).toNat := by
  rw [last_pageCopies, mem_pageCopies, getD_map_cast, Covers, chunkBase]
  tauto

theorem last_chunk_none (hs : 0 < seg.size.toInt) :
    Store.last (pageCopies seg len i ((frames.map fun f : ℕ => (f : ℤ)).getD i 0)) p = none ↔
      ¬ Covers seg len frames i p := by
  rw [Option.eq_none_iff_forall_ne_some]
  refine ⟨fun h hc => h _ ((last_chunk_some hs).mpr ⟨hc, rfl⟩), fun h off hl => ?_⟩
  exact h ((last_chunk_some hs).mp hl).1

theorem last_segmentCopies :
    Store.last (segmentCopies seg len (frames.map fun f : ℕ => (f : ℤ))) p = some off ↔
      LastChunk seg len frames p off := by
  unfold segmentCopies LastChunk
  split_ifs with hs
  · rw [Store.last_flatMap_range, List.length_map]
    constructor
    · rintro ⟨i, hi, hl, hn⟩
      obtain ⟨hc, ho⟩ := (last_chunk_some hs).mp hl
      exact ⟨i, hi, hc, fun i' hi' hlt => (last_chunk_none hs).mp (hn i' hi' hlt), ho⟩
    · rintro ⟨i, hi, hc, hn, ho⟩
      exact ⟨i, hi, (last_chunk_some hs).mpr ⟨hc, ho⟩,
        fun i' hi' hlt => (last_chunk_none hs).mpr (hn i' hi' hlt)⟩
  · constructor
    · intro h; cases h
    · rintro ⟨i, _, hc, _⟩; exact absurd hc.1 hs

theorem mem_segmentCopies_fst :
    p ∈ (segmentCopies seg len (frames.map fun f : ℕ => (f : ℤ))).map Prod.fst ↔
      ∃ i < frames.length, Covers seg len frames i p := by
  rw [List.mem_map]
  constructor
  · rintro ⟨⟨p', off⟩, hm, rfl⟩
    unfold segmentCopies at hm
    split_ifs at hm with hs
    · obtain ⟨i, hi, hm⟩ := List.mem_flatMap.mp hm
      rw [List.mem_range, List.length_map] at hi
      rw [← last_pageCopies, last_chunk_some hs] at hm
      exact ⟨i, hi, hm.1⟩
    · cases hm
  · rintro ⟨i, hi, hc⟩
    refine ⟨(p, (filePosition seg i).toNat + (p - chunkBase seg frames i).toNat), ?_, rfl⟩
    unfold segmentCopies
    rw [if_pos hc.1, List.mem_flatMap]
    refine ⟨i, by rwa [List.mem_range, List.length_map], ?_⟩
    rw [← last_pageCopies, last_chunk_some hc.1]
    exact ⟨hc, rfl⟩

theorem last_segmentCopies_none :
    Store.last (segmentCopies seg len (frames.map fun f : ℕ => (f : ℤ))) p = none ↔
      ∀ i < frames.length, ¬ Covers seg len frames i p := by
  rw [Store.last_eq_none]
  constructor
  · intro h i hi hc
    obtain ⟨q, hq, e⟩ := List.mem_map.mp (mem_segmentCopies_fst.mpr ⟨i, hi, hc⟩)
    exact h q hq e
  · intro h q hq e
    obtain ⟨i, hi, hc⟩ := mem_segmentCopies_fst.mp (List.mem_map.mpr ⟨q, hq, e⟩)
    exact h i hi hc

end Chunks

/-- Which chunk the byte at an index of `mainMemory` comes from. -/
theorem last_loadCopies {h : NoffHeader} {len : ℕ} {frames : List ℕ} {p : ℤ} {off : ℕ} :
    Store.last (loadCopies h len (frames.map fun f : ℕ => (f : ℤ))) p = some off ↔
      LoadedFrom h len frames p off := by
  unfold loadCopies LoadedFrom
  rw [Store.last_append, Option.or_eq_some_iff, last_segmentCopies, last_segmentCopies,
    last_segmentCopies_none]

/-! ## What a load touches -/

/-- The index `p` lies in `mainMemory`, in one of the frames. -/
def InFrames (frames : List ℕ) (p : ℤ) : Prop :=
  0 ≤ p ∧ p < memorySize ∧ ∃ f ∈ frames, p / pageSize = (f : ℕ)

/-- The first and the last byte of every chunk that is copied lie in the frames. -/
def LoadsInside (h : NoffHeader) (len : ℕ) (frames : List ℕ) : Prop :=
  ∀ seg ∈ [h.code, h.initData], 0 < seg.size.toInt → ∀ i < frames.length,
    0 < chunkSize seg len i →
      InFrames frames (chunkBase seg frames i) ∧
      InFrames frames (chunkBase seg frames i + chunkSize seg len i - 1)

instance (frames : List ℕ) (p : ℤ) : Decidable (InFrames frames p) := by
  unfold InFrames; infer_instance

instance (h : NoffHeader) (len : ℕ) (frames : List ℕ) : Decidable (LoadsInside h len frames) := by
  unfold LoadsInside; infer_instance

theorem chunkSize_le (seg : Segment) (len i : ℕ) : chunkSize seg len i ≤ pageSize :=
  Nat.min_le_left _ _

/-- A range of at most a page lies in the frames if its two ends do. -/
theorem inFrames_of_ends {frames : List ℕ} {a b p : ℤ} (ha : InFrames frames a)
    (hb : InFrames frames b) (hab : b < a + pageSize) (h1 : a ≤ p) (h2 : p ≤ b) :
    InFrames frames p := by
  obtain ⟨ha0, _, f, hf, haf⟩ := ha
  obtain ⟨_, hb1, g, hg, hbg⟩ := hb
  refine ⟨by omega, by omega, ?_⟩
  -- the range meets at most the frame of `a` and the frame of `b`
  have hc : p / pageSize = a / pageSize ∨ p / pageSize = b / pageSize := by
    rw [show ((pageSize : ℕ) : ℤ) = 512 from rfl] at *
    omega
  rcases hc with hc | hc
  · exact ⟨f, hf, hc.trans haf⟩
  · exact ⟨g, hg, hc.trans hbg⟩

theorem mem_loadCopies_fst {h : NoffHeader} {len : ℕ} {frames : List ℕ} {p : ℤ} :
    p ∈ (loadCopies h len (frames.map fun f : ℕ => (f : ℤ))).map Prod.fst ↔
      ∃ seg ∈ [h.code, h.initData], ∃ i < frames.length, Covers seg len frames i p := by
  unfold loadCopies
  rw [List.map_append, List.mem_append, mem_segmentCopies_fst, mem_segmentCopies_fst]
  simp only [List.mem_cons, List.not_mem_nil, or_false, exists_eq_or_imp, exists_eq_left]

theorem loadsInside_iff {h : NoffHeader} {len : ℕ} {frames : List ℕ} :
    LoadsInside h len frames ↔
      ∀ p ∈ (loadCopies h len (frames.map fun f : ℕ => (f : ℤ))).map Prod.fst,
        InFrames frames p := by
  constructor
  · intro hl p hp
    obtain ⟨seg, hseg, i, hi, hs, h1, h2⟩ := mem_loadCopies_fst.mp hp
    have hle := chunkSize_le seg len i
    obtain ⟨ha, hb⟩ := hl seg hseg hs i hi (by omega)
    exact inFrames_of_ends ha hb (by omega) h1 (by omega)
  · intro hl seg hseg hs i hi hpos
    constructor
    · exact hl _ (mem_loadCopies_fst.mpr ⟨seg, hseg, i, hi, hs, le_refl _, by omega⟩)
    · exact hl _ (mem_loadCopies_fst.mpr ⟨seg, hseg, i, hi, hs, by omega, by omega⟩)

/-- What a load that disturbs nobody does: it writes `mainMemory` in frames of its own space only,
and no frame of a space whose frames were marked before changes. -/
structure Contained (s s' : Loader) (sp : AddrSpace) : Prop where
  own : ∃ w, s'.written = s.written ++ w ∧
    ∀ p ∈ w, 0 ≤ p ∧ p < memorySize ∧ p / pageSize ∈ sp.frames
  others : ∀ live : List AddrSpace,
    (∀ sp' ∈ live, ∀ f ∈ sp'.frames, ∃ n ∈ s.gPhysPageBitMap.marked, f = (n : ℕ)) →
      ∀ sp' ∈ live, ∀ f ∈ sp'.frames, ∀ p : ℤ, p / pageSize = f →
        s'.mainMemory p = s.mainMemory p

theorem contained_iff {h : NoffHeader} {file : List Byte} {s s' : Loader} {sp : AddrSpace}
    (hb : IsBuilt h file s sp s') :
    Contained s s' sp ↔ LoadsInside h file.length (framesFor h s.gPhysPageBitMap) := by
  have hin : ∀ p : ℤ, (0 ≤ p ∧ p < memorySize ∧ p / pageSize ∈ sp.frames) ↔
      InFrames (framesFor h s.gPhysPageBitMap) p := by
    intro p
    rw [InFrames, hb.frames, List.mem_map]
    simp only [eq_comm]
  rw [loadsInside_iff]
  constructor
  · rintro ⟨⟨w, hw, hown⟩, _⟩ p hp
    rw [hb.written, List.append_cancel_left_eq] at hw
    exact (hin p).mp (hown p (hw ▸ hp))
  · intro hl
    refine ⟨⟨_, hb.written, fun p hp => (hin p).mpr (hl p hp)⟩, ?_⟩
    intro live hlive sp' hsp' f hf p hpf
    rw [hb.memory]
    refine Store.store_of_forall_ne fun q hq hqp => ?_
    obtain ⟨c, hc, rfl⟩ := List.mem_map.mp hq
    have hcp : c.1 = p := hqp
    -- a store to `p` would lie in a frame that was clear, but `p` is in a marked one
    obtain ⟨_, _, g, hg, e⟩ := hl p (List.mem_map.mpr ⟨c, hc, hcp⟩)
    obtain ⟨n, hn, rfl⟩ := hlive sp' hsp' f hf
    have hgn : g = n := by rw [hpf] at e; exact_mod_cast e.symm
    have ht := (mem_framesFor hg).2
    rw [hgn, (BitMap.mem_marked.mp hn).2] at ht
    cases ht

/-- **Containment of a load.** A construction that returns writes only `mainMemory` of frames it
has just allocated, and leaves the frames of all other spaces alone, exactly when the first and the
last byte of every chunk it copies lie in those frames. -/
theorem loads_contained_iff {c : Constructor} {stack : ℕ → Byte} {file : List Byte}
    {s s' : Loader} {sp : AddrSpace}
    (hb : AddrSpace.build c stack (some file) s = (.returned sp, s')) :
    Contained s s' sp ↔ LoadsInside (readHeader stack file) file.length
      (framesFor (readHeader stack file) s.gPhysPageBitMap) :=
  contained_iff (build_returned hb).2

/-- A program of eight bytes of code, four on either side of a page boundary. -/
def straddlingHeader : NoffHeader where
  noffMagic := noffMagic
  code := { virtualAddr := 508#32, inFileAddr := 40#32, size := 8#32 }
  initData := { virtualAddr := 0#32, inFileAddr := 0#32, size := 0#32 }
  uninitData := { virtualAddr := 0#32, inFileAddr := 0#32, size := 0#32 }

def straddlingFile : List Byte := straddlingHeader.encode ++ List.replicate 8 1#8

/-- The machine before the first program, with `m` in memory. -/
def freshLoader (m : Memory) : Loader where
  gPhysPageBitMap := BitMap.new (fun _ => 0) 256
  mainMemory := m
  addrLock := 1
  deletes := 0
  written := []

theorem numClear_freshLoader (m : Memory) : (freshLoader m).gPhysPageBitMap.numClear = 256 := by
  rw [← BitMap.length_clearBits, freshLoader, BitMap.clearBits_new, List.length_range]

/-- Frame 1 belongs to another process. -/
def frameOneTaken : Loader :=
  (freshLoader fun _ => 0).setBitMap ((BitMap.new (fun _ => 0) 256).mark 1)

theorem readHeader_straddling (stack : ℕ → Byte) :
    readHeader stack straddlingFile = straddlingHeader := readHeader_encode stack _ _

theorem accepted_straddling {bm : BitMap} (hn : straddlingHeader.numPages ≤ bm.numClear) :
    Accepted straddlingHeader bm := by
  have hp : pagesFor straddlingHeader bm = 3 := pagesFor_enough (by omega)
  refine ⟨rfl, ?_, ?_⟩ <;> rw [hp] <;> decide

/-- On an empty machine the two pages get adjacent frames. -/
theorem straddling_load_contained :
    ∃ sp s', AddrSpace.build .fileName (fun _ => 0) (some straddlingFile)
        (freshLoader fun _ => 0) = (.returned sp, s') ∧
      Contained (freshLoader fun _ => 0) s' sp := by
  have hh := readHeader_straddling fun _ => 0
  have ha : Accepted straddlingHeader (freshLoader fun _ => 0).gPhysPageBitMap :=
    accepted_straddling (by rw [numClear_freshLoader]; decide)
  rw [← hh] at ha
  obtain ⟨sp, s', hbuild, _⟩ := build_accepted .fileName ha
  refine ⟨sp, s', hbuild, (loads_contained_iff hbuild).mpr ?_⟩
  rw [hh, freshLoader, framesFor_new _ (by decide)]
  decide

theorem clearBits_frameOneTaken : frameOneTaken.gPhysPageBitMap.clearBits =
    (List.range 256).filter fun i => decide (i ≠ 1) := by
  rw [frameOneTaken, Loader.setBitMap, BitMap.clearBits_mark, BitMap.clearBits_new]

theorem numPages_straddling :
    straddlingHeader.numPages ≤ frameOneTaken.gPhysPageBitMap.numClear := by
  rw [← BitMap.length_clearBits, clearBits_frameOneTaken]; decide +kernel

theorem framesFor_straddling :
    framesFor straddlingHeader frameOneTaken.gPhysPageBitMap = [0, 2, 3] := by
  rw [framesFor, pagesFor_enough (Nat.not_lt.mpr numPages_straddling), clearBits_frameOneTaken]
  decide

/-- The four bytes after the boundary go to frame 1. -/
theorem straddling_load_escapes :
    ∃ sp s', AddrSpace.build .fileName (fun _ => 0) (some straddlingFile) frameOneTaken =
        (.returned sp, s') ∧ ¬ Contained frameOneTaken s' sp := by
  have hh := readHeader_straddling fun _ => 0
  have hfr := framesFor_straddling
  have ha : Accepted straddlingHeader frameOneTaken.gPhysPageBitMap :=
    accepted_straddling numPages_straddling
  rw [← hh] at ha
  obtain ⟨sp, s', hbuild, hb⟩ := build_accepted .fileName ha
  rw [hh] at hb
  refine ⟨sp, s', hbuild, fun hc => ?_⟩
  have hin := (contained_iff hb).mp hc
  rw [hfr] at hin
  obtain ⟨_, _, _, f, hf, he⟩ :=
    hin straddlingHeader.code (List.mem_cons_self) (by decide) 0 (by decide) (by decide)
  have h1 : (chunkBase straddlingHeader.code [0, 2, 3] 0 +
      chunkSize straddlingHeader.code straddlingFile.length 0 - 1) / (pageSize : ℤ) = 1 := by decide
  rw [h1] at he
  have : f = 1 := by exact_mod_cast he.symm
  subst this
  revert hf
  decide

/-! ## What the user program sees -/

/-- The byte at virtual address `v` of a user program, through the page table. -/
def AddrSpace.userByte (sp : AddrSpace) (m : Memory) (v : ℕ) : Option Byte :=
  match translate sp.pageTable (BitVec.ofNat 32 v) 1 false with
  | .ok (p, _) => some (m p)
  | _ => none

/-- The segments of a header have non-negative sizes, do not overlap and fit in the space. -/
structure WellFormed (h : NoffHeader) : Prop where
  sizes : ∀ seg ∈ [h.code, h.initData, h.uninitData], 0 ≤ seg.size.toInt
  disjoint : [h.code, h.initData, h.uninitData].Pairwise fun a b =>
    a.size = 0 ∨ b.size = 0 ∨ a.virtualAddr.toNat + a.size.toNat ≤ b.virtualAddr.toNat ∨
      b.virtualAddr.toNat + b.size.toNat ≤ a.virtualAddr.toNat
  fits : ∀ seg ∈ [h.code, h.initData, h.uninitData],
    seg.virtualAddr.toNat + seg.size.toNat ≤ h.numPages * pageSize

/-- The user program finds its image: code and initialised data as in the file, and zeros. -/
structure Faithful (h : NoffHeader) (file : List Byte) (sp : AddrSpace) (m : Memory) : Prop where
  code : ∀ k < h.code.size.toNat, ∃ b, file[h.code.inFileAddr.toNat + k]? = some b ∧
    sp.userByte m (h.code.virtualAddr.toNat + k) = some b
  initData : ∀ k < h.initData.size.toNat, ∃ b, file[h.initData.inFileAddr.toNat + k]? = some b ∧
    sp.userByte m (h.initData.virtualAddr.toNat + k) = some b
  uninitData : ∀ k < h.uninitData.size.toNat,
    sp.userByte m (h.uninitData.virtualAddr.toNat + k) = some 0

/-- The byte at virtual address `v` lies in a frame of the machine, and the last chunk over it
carries `b`. -/
def LoadsByte (h : NoffHeader) (file : List Byte) (frames : List ℕ) (v : ℕ) (b : Byte) : Prop :=
  ∃ f off, frames[v / pageSize]? = some f ∧ f < numPhysPages ∧
    LoadedFrom h file.length frames (f * pageSize + v % pageSize : ℕ) off ∧ file[off]? = some b

/-- The last chunk over every byte of the image carries that byte. -/
structure LayoutOk (h : NoffHeader) (file : List Byte) (frames : List ℕ) : Prop where
  code : ∀ k < h.code.size.toNat, ∃ b, file[h.code.inFileAddr.toNat + k]? = some b ∧
    LoadsByte h file frames (h.code.virtualAddr.toNat + k) b
  initData : ∀ k < h.initData.size.toNat, ∃ b, file[h.initData.inFileAddr.toNat + k]? = some b ∧
    LoadsByte h file frames (h.initData.virtualAddr.toNat + k) b
  uninitData : ∀ k < h.uninitData.size.toNat,
    LoadsByte h file frames (h.uninitData.virtualAddr.toNat + k) 0

/-- A chunk never reads past the end of the file. -/
theorem LastChunk.lt_length {seg : Segment} {len : ℕ} {frames : List ℕ} {p : ℤ} {off : ℕ}
    (h : LastChunk seg len frames p off) : off < len := by
  obtain ⟨i, _, ⟨_, h1, h2⟩, _, rfl⟩ := h
  unfold chunkSize at h2
  omega

theorem LoadedFrom.lt_length {h : NoffHeader} {len : ℕ} {frames : List ℕ} {p : ℤ} {off : ℕ}
    (hl : LoadedFrom h len frames p off) : off < len := by
  rcases hl with hl | ⟨_, hl⟩ <;> exact hl.lt_length

section UserByte

variable {h : NoffHeader} {file : List Byte} {s s' : Loader} {sp : AddrSpace}
  (hb : IsBuilt h file s sp s') (hn : s.gPhysPageBitMap.numBits < 2 ^ 31)

include hb

theorem IsBuilt.getElem?_pageTable (i : ℕ) :
    sp.pageTable[i]? = (framesFor h s.gPhysPageBitMap)[i]?.map (freshEntry i) := by
  rw [hb.table, List.getElem?_map, List.getElem?_zipIdx]
  cases (framesFor h s.gPhysPageBitMap)[i]? <;> simp

/-- What memory holds after a load. -/
theorem IsBuilt.mainMemory_apply (p : ℤ) : s'.mainMemory p =
    ((Store.last (loadCopies h file.length
      ((framesFor h s.gPhysPageBitMap).map fun f : ℕ => (f : ℤ))) p).map
        fun off => file.getD off 0).getD (s.mainMemory p) := by
  rw [hb.memory, copyStores, Store.store_apply, Store.last_map fun off => file.getD off 0,
    copiesFor]

theorem userByte_none {v : ℕ} (hv : v < 2 ^ 32) (m : Memory)
    (hf : (framesFor h s.gPhysPageBitMap)[v / pageSize]? = none) : sp.userByte m v = none := by
  have hv' : (BitVec.ofNat 32 v).toNat = v := by rw [BitVec.toNat_ofNat, Nat.mod_eq_of_lt hv]
  have he : sp.pageTable[(BitVec.ofNat 32 v).toNat / pageSize]? = none := by
    rw [hv', hb.getElem?_pageTable, hf, Option.map_none]
  unfold AddrSpace.userByte
  rw [translate_one_outside he]

include hn

theorem userByte_eq {v : ℕ} (hv : v < 2 ^ 32) (m : Memory) {f : ℕ}
    (hf : (framesFor h s.gPhysPageBitMap)[v / pageSize]? = some f) :
    sp.userByte m v = if f < numPhysPages then some (m (f * pageSize + v % pageSize : ℕ))
      else none := by
  have hv' : (BitVec.ofNat 32 v).toNat = v := by rw [BitVec.toNat_ofNat, Nat.mod_eq_of_lt hv]
  have hlt := (mem_framesFor (List.mem_of_getElem? hf)).1
  have hmod : f % 2 ^ 32 = f := Nat.mod_eq_of_lt (by omega)
  have he : sp.pageTable[(BitVec.ofNat 32 v).toNat / pageSize]? =
      some (freshEntry (v / pageSize) f) := by
    rw [hv', hb.getElem?_pageTable, hf, Option.map_some]
  unfold AddrSpace.userByte
  rw [translate_one he rfl rfl rfl false, hmod, hv']
  by_cases hc : f < numPhysPages
  · rw [if_neg (by omega), if_pos hc]
  · rw [if_pos (by omega), if_neg hc]

/-- A byte the loader puts in place is there for the user program. -/
theorem userByte_of_loadsByte {v : ℕ} (hv : v < 2 ^ 32) {b : Byte}
    (hl : LoadsByte h file (framesFor h s.gPhysPageBitMap) v b) :
    sp.userByte s'.mainMemory v = some b := by
  obtain ⟨f, off, hf, hlt, hfrom, ho⟩ := hl
  rw [userByte_eq hb hn hv _ hf, if_pos hlt, hb.mainMemory_apply, last_loadCopies.mpr hfrom,
    Option.map_some, Option.getD_some, List.getD_eq_getElem?_getD, ho, Option.getD_some]

/-- Over a memory that held something else everywhere, a byte the user program finds was put in
place by the loader. -/
theorem loadsByte_of_userByte {v : ℕ} (hv : v < 2 ^ 32) {b c : Byte} (hm : s.mainMemory = fun _ => c)
    (hc : c ≠ b) (hu : sp.userByte s'.mainMemory v = some b) :
    LoadsByte h file (framesFor h s.gPhysPageBitMap) v b := by
  rcases hf : (framesFor h s.gPhysPageBitMap)[v / pageSize]? with _ | f
  · rw [userByte_none hb hv _ hf] at hu; cases hu
  rw [userByte_eq hb hn hv _ hf] at hu
  split_ifs at hu with hlt
  rw [Option.some.injEq, hb.mainMemory_apply, hm] at hu
  rcases hlast : Store.last (loadCopies h file.length
      ((framesFor h s.gPhysPageBitMap).map fun f : ℕ => (f : ℤ)))
      (f * pageSize + v % pageSize : ℕ) with _ | off
  · rw [hlast] at hu; exact absurd hu hc
  · rw [hlast, Option.map_some, Option.getD_some] at hu
    have hfrom := last_loadCopies.mp hlast
    have hlen := hfrom.lt_length
    refine ⟨f, off, hf, hlt, hfrom, ?_⟩
    rw [← hu, List.getD_eq_getElem?_getD, List.getElem?_eq_getElem hlen, Option.getD_some]

end UserByte

/-- The segments of a well-formed header lie below `2 ^ 32`. -/
theorem WellFormed.lt {h : NoffHeader} (hw : WellFormed h) {seg : Segment}
    (hseg : seg ∈ [h.code, h.initData, h.uninitData]) {k : ℕ} (hk : k < seg.size.toNat) :
    seg.virtualAddr.toNat + k < 2 ^ 32 := by
  have hfit := hw.fits seg hseg
  have hp := h.numPages_mul_le
  omega

section Faithful

variable {stack : ℕ → Byte} {file : List Byte} {s : Loader} {h : NoffHeader}

theorem faithful_of_layoutOk {s' : Loader} {sp : AddrSpace} (hb : IsBuilt h file s sp s')
    (hn : s.gPhysPageBitMap.numBits < 2 ^ 31) (hw : WellFormed h)
    (hl : LayoutOk h file (framesFor h s.gPhysPageBitMap)) : Faithful h file sp s'.mainMemory := by
  refine ⟨fun k hk => ?_, fun k hk => ?_, fun k hk => ?_⟩
  · obtain ⟨b, hf, hl⟩ := hl.code k hk
    exact ⟨b, hf, userByte_of_loadsByte hb hn (hw.lt (by simp) hk) hl⟩
  · obtain ⟨b, hf, hl⟩ := hl.initData k hk
    exact ⟨b, hf, userByte_of_loadsByte hb hn (hw.lt (by simp) hk) hl⟩
  · exact userByte_of_loadsByte hb hn (hw.lt (by simp) hk) (hl.uninitData k hk)

end Faithful

/-- **Faithful loading.** For a well-formed program that the free frames can hold, and whatever
`mainMemory` held before, the user program finds its image after the constructor exactly when
the last chunk over every byte of the image carries that byte; the frames are the first free
ones. -/
theorem load_faithful_iff {c : Constructor} {stack : ℕ → Byte} {file : List Byte} {s : Loader}
    {h : NoffHeader} (hh : readHeader stack file = h) (hw : WellFormed h)
    (hn : s.gPhysPageBitMap.numBits < 2 ^ 31) (hfree : h.numPages ≤ s.gPhysPageBitMap.numClear)
    (ha : Accepted h s.gPhysPageBitMap) :
    (∀ m sp s', AddrSpace.build c stack (some file) { s with mainMemory := m } =
        (.returned sp, s') → Faithful h file sp s'.mainMemory) ↔
      LayoutOk h file (s.gPhysPageBitMap.clearBits.take h.numPages) := by
  subst hh
  have hfr : s.gPhysPageBitMap.clearBits.take (readHeader stack file).numPages =
      framesFor (readHeader stack file) s.gPhysPageBitMap := by
    rw [framesFor, pagesFor_enough (by omega)]
  rw [hfr]
  constructor
  · intro hf
    -- start from a memory that differs from the byte in question everywhere
    have key : ∀ b : Byte, ∃ sp s', IsBuilt (readHeader stack file) file
        { s with mainMemory := fun _ => b + 1 } sp s' ∧
          Faithful (readHeader stack file) file sp s'.mainMemory := by
      intro b
      have ha' : Accepted (readHeader stack file)
          ({ s with mainMemory := fun _ => b + 1 } : Loader).gPhysPageBitMap := ha
      obtain ⟨sp, s', hbuild, hb⟩ := build_accepted c ha'
      exact ⟨sp, s', hb, hf _ sp s' hbuild⟩
    have hne : ∀ b : Byte, b + 1 ≠ b := by decide
    refine ⟨fun k hk => ?_, fun k hk => ?_, fun k hk => ?_⟩
    · obtain ⟨_, _, _, h0⟩ := key 0
      obtain ⟨b, hb0, _⟩ := h0.code k hk
      obtain ⟨sp, s', hb, h1⟩ := key b
      obtain ⟨b', hb1, hu⟩ := h1.code k hk
      obtain rfl : b = b' := by rw [hb0, Option.some.injEq] at hb1; exact hb1
      exact ⟨b, hb0, loadsByte_of_userByte hb hn (hw.lt (by simp) hk) rfl (hne b) hu⟩
    · obtain ⟨_, _, _, h0⟩ := key 0
      obtain ⟨b, hb0, _⟩ := h0.initData k hk
      obtain ⟨sp, s', hb, h1⟩ := key b
      obtain ⟨b', hb1, hu⟩ := h1.initData k hk
      obtain rfl : b = b' := by rw [hb0, Option.some.injEq] at hb1; exact hb1
      exact ⟨b, hb0, loadsByte_of_userByte hb hn (hw.lt (by simp) hk) rfl (hne b) hu⟩
    · obtain ⟨sp, s', hb, h1⟩ := key 0
      exact loadsByte_of_userByte hb hn (hw.lt (by simp) hk) rfl (hne 0) (h1.uninitData k hk)
  · intro hl m sp s' hbuild
    obtain ⟨_, hb⟩ := build_returned hbuild
    exact faithful_of_layoutOk hb hn hw hl

/-! ## Contiguous frames -/

theorem filePosition_eq {seg : Segment} {i : ℕ}
    (hp : seg.inFileAddr.toNat + i * pageSize < 2 ^ 31) :
    filePosition seg i = (seg.inFileAddr.toNat + i * pageSize : ℕ) := by
  have hi : (BitVec.ofNat 32 (i * pageSize)).toNat = i * pageSize := by
    rw [BitVec.toNat_ofNat, Nat.mod_eq_of_lt (by omega)]
  have ha : (seg.inFileAddr + BitVec.ofNat 32 (i * pageSize)).toNat =
      seg.inFileAddr.toNat + i * pageSize := by
    rw [BitVec.toNat_add, hi, Nat.mod_eq_of_lt (by omega)]
  unfold filePosition
  rw [BitVec.toInt_eq_toNat_of_lt (by rw [ha]; omega), ha]

section Contiguous

variable {seg : Segment} {len f₀ n : ℕ}

theorem chunkBase_contiguous (hva : seg.virtualAddr.toNat < 2 ^ 31) {i : ℕ} (hi : i < n) :
    chunkBase seg (List.range' f₀ n) i = (seg.virtualAddr.toNat + (f₀ + i) * pageSize : ℕ) := by
  have hg : (List.range' f₀ n).getD i 0 = f₀ + i := by
    rw [List.getD_eq_getElem?_getD, List.getElem?_range' hi, Option.getD_some, Nat.one_mul]
  unfold chunkBase
  rw [hg, BitVec.toInt_eq_toNat_of_lt (by omega)]
  push_cast
  rfl

/-- In contiguous frames the chunks of a segment put its bytes one after the other. -/
theorem lastChunk_contiguous (hva : seg.virtualAddr.toNat < 2 ^ 31)
    (hp : seg.inFileAddr.toNat + n * pageSize < 2 ^ 31) (hs : 0 < seg.size.toInt) {k : ℕ}
    (hk : k < n * pageSize) (hlen : seg.inFileAddr.toNat + k < len) :
    LastChunk seg len (List.range' f₀ n) (f₀ * pageSize + (seg.virtualAddr.toNat + k) : ℕ)
      (seg.inFileAddr.toNat + k) := by
  have hpg : pageSize = 512 := rfl
  rw [hpg] at hk hp ⊢
  have hi : k / 512 < n := by omega
  have hb : ∀ i < n, chunkBase seg (List.range' f₀ n) i =
      (seg.virtualAddr.toNat + (f₀ + i) * 512 : ℕ) := by
    intro i hi
    have hbase := @chunkBase_contiguous seg f₀ n hva i hi
    rwa [hpg] at hbase
  have hf : ∀ i < n, filePosition seg i = (seg.inFileAddr.toNat + i * 512 : ℕ) := by
    intro i hi
    have hlt : seg.inFileAddr.toNat + i * 512 < 2 ^ 31 :=
      lt_of_le_of_lt (Nat.add_le_add_left (Nat.mul_le_mul_right _ hi.le) _) hp
    have hpos := @filePosition_eq seg i hlt
    rwa [hpg] at hpos
  have hc : chunkSize seg len (k / 512) =
      min 512 (len - (seg.inFileAddr.toNat + k / 512 * 512)) := by
    rw [chunkSize, hf _ hi, Int.toNat_natCast, hpg]
  refine ⟨k / 512, by rwa [List.length_range'], ⟨hs, ?_, ?_⟩, ?_, ?_⟩
  · rw [hb _ hi]; omega
  · rw [hb _ hi, hc]; omega
  · rintro i' hi' hlt ⟨_, h1, _⟩
    rw [List.length_range'] at hi'
    rw [hb i' hi'] at h1
    omega
  · rw [hf _ hi, hb _ hi]; omega

end Contiguous

section Layout

variable {h : NoffHeader} {file : List Byte} {f₀ : ℕ} (hw : WellFormed h)
  (hmem : f₀ + h.numPages ≤ numPhysPages)
  (hfile : ∀ seg ∈ [h.code, h.initData], seg.inFileAddr.toNat + seg.size.toNat ≤ file.length)
  (hpos : ∀ seg ∈ [h.code, h.initData], seg.inFileAddr.toNat + h.numPages * pageSize < 2 ^ 31)

include hmem

theorem range'_getElem?_page {v : ℕ} (hv : v < h.numPages * pageSize) :
    (List.range' f₀ h.numPages)[v / pageSize]? = some (f₀ + v / pageSize) ∧
      f₀ + v / pageSize < numPhysPages := by
  have hi : v / pageSize < h.numPages := Nat.div_lt_of_lt_mul (by rwa [Nat.mul_comm])
  refine ⟨?_, by omega⟩
  rw [List.getElem?_range' hi, Nat.one_mul]

include hw

theorem WellFormed.virtualAddr_lt {seg : Segment}
    (hseg : seg ∈ [h.code, h.initData, h.uninitData]) : seg.virtualAddr.toNat < 2 ^ 31 := by
  have hfit := hw.fits seg hseg
  have hle : h.numPages * pageSize ≤ numPhysPages * pageSize :=
    Nat.mul_le_mul_right _ (by omega)
  rw [show numPhysPages * pageSize = 65536 from rfl] at hle
  omega

include hfile hpos

/-- The last chunk of a segment over each of its bytes carries that byte. -/
theorem WellFormed.lastChunk {seg : Segment} (hseg : seg ∈ [h.code, h.initData]) {k : ℕ}
    (hk : k < seg.size.toNat) :
    seg.virtualAddr.toNat + k < h.numPages * pageSize ∧
      LastChunk seg file.length (List.range' f₀ h.numPages)
        (f₀ * pageSize + (seg.virtualAddr.toNat + k) : ℕ) (seg.inFileAddr.toNat + k) := by
  have hseg' : seg ∈ [h.code, h.initData, h.uninitData] := by
    rcases List.mem_pair.mp hseg with e | e <;> simp [e]
  have hfit := hw.fits seg hseg'
  have hs := hw.sizes seg hseg'
  have hlen := hfile seg hseg
  refine ⟨by omega, lastChunk_contiguous (hw.virtualAddr_lt hmem hseg') (hpos seg hseg) ?_
    (by omega) (by omega)⟩
  rw [BitVec.toInt_eq_toNat_cond] at hs ⊢
  split_ifs at hs ⊢ <;> omega

/-- The layouts the loader is made for: frames in a row, no uninitialised data, and initialised
data above the code. -/
theorem layoutOk_contiguous (hbss : h.uninitData.size = 0)
    (horder : h.initData.size = 0 ∨
      h.code.virtualAddr.toNat + h.code.size.toNat ≤ h.initData.virtualAddr.toNat) :
    LayoutOk h file (List.range' f₀ h.numPages) := by
  have hpg : pageSize = 512 := rfl
  have hsplit : ∀ v, (f₀ + v / pageSize) * pageSize + v % pageSize = f₀ * pageSize + v := by
    intro v; rw [hpg]; omega
  have hcode : h.code ∈ [h.code, h.initData] := by simp
  have hdata : h.initData ∈ [h.code, h.initData] := by simp
  have hbyte : ∀ seg ∈ [h.code, h.initData], ∀ k < seg.size.toNat,
      ∃ b, file[seg.inFileAddr.toNat + k]? = some b := fun seg hseg k hk =>
    ⟨_, List.getElem?_eq_getElem (by have := hfile seg hseg; omega)⟩
  refine ⟨fun k hk => ?_, fun k hk => ?_, fun k hk => ?_⟩
  · obtain ⟨b, hb⟩ := hbyte h.code hcode k hk
    obtain ⟨hv, hlast⟩ := hw.lastChunk hmem hfile hpos hcode hk
    obtain ⟨hpage, hlt⟩ := range'_getElem?_page hmem hv
    refine ⟨b, hb, _, _, hpage, hlt, Or.inr ⟨?_, ?_⟩, hb⟩
    · -- the data is copied above the code
      rintro i hi ⟨hs, h1, _⟩
      rw [List.length_range'] at hi
      rw [chunkBase_contiguous (hw.virtualAddr_lt hmem (by simp)) hi, hsplit, hpg] at h1
      rcases horder with h0 | h0
      · rw [h0] at hs; exact absurd hs (by decide)
      · omega
    · rw [hsplit]; exact hlast
  · obtain ⟨b, hb⟩ := hbyte h.initData hdata k hk
    obtain ⟨hv, hlast⟩ := hw.lastChunk hmem hfile hpos hdata hk
    obtain ⟨hpage, hlt⟩ := range'_getElem?_page hmem hv
    refine ⟨b, hb, _, _, hpage, hlt, Or.inl ?_, hb⟩
    rw [hsplit]; exact hlast
  · rw [hbss] at hk; simp at hk

end Layout

/-- A program with eight bytes of code and `bss` bytes of uninitialised data behind them. -/
def tinyHeader (bss : Word) : NoffHeader where
  noffMagic := noffMagic
  code := { virtualAddr := 0#32, inFileAddr := 40#32, size := 8#32 }
  initData := { virtualAddr := 0#32, inFileAddr := 0#32, size := 0#32 }
  uninitData := { virtualAddr := 8#32, inFileAddr := 0#32, size := bss }

def tinyFile (bss : Word) : List Byte := (tinyHeader bss).encode ++ List.replicate 8 7#8

theorem readHeader_tiny (stack : ℕ → Byte) (bss : Word) :
    readHeader stack (tinyFile bss) = tinyHeader bss := readHeader_encode stack _ _

theorem framesFor_tiny {bss : Word} (hp : (tinyHeader bss).numPages = 3) (m : Memory) :
    framesFor (tinyHeader bss) (freshLoader m).gPhysPageBitMap = [0, 1, 2] := by
  rw [freshLoader, framesFor_new _ (by omega), hp]; rfl

theorem accepted_tiny (bss : Word) (m : Memory) :
    Accepted (tinyHeader bss) (freshLoader m).gPhysPageBitMap := by
  have hle := pagesFor_le (tinyHeader bss) (freshLoader m).gPhysPageBitMap
  rw [numClear_freshLoader] at hle
  refine ⟨rfl, fun _ i hi => ?_, fun h => absurd h (by show ¬ 0 < (0#32).toInt; decide)⟩
  have hpos : (tinyHeader bss).code.inFileAddr.toNat + i * pageSize < 2 ^ 31 := by
    show 40 + i * 512 < 2 ^ 31
    omega
  rw [filePosition_eq hpos]
  exact Int.natCast_nonneg _

/-- Without uninitialised data the tiny program is loaded faithfully over any memory. -/
theorem load_faithful_tiny :
    LayoutOk (tinyHeader 0) (tinyFile 0) [0, 1, 2] ∧
      ∀ m sp s', AddrSpace.build .fileName (fun _ => 0) (some (tinyFile 0))
          { freshLoader (fun _ => 0) with mainMemory := m } = (.returned sp, s') →
        Faithful (tinyHeader 0) (tinyFile 0) sp s'.mainMemory := by
  have hw : WellFormed (tinyHeader 0) := ⟨by decide, by decide, by decide⟩
  have hl : LayoutOk (tinyHeader 0) (tinyFile 0) (List.range' 0 (tinyHeader 0).numPages) :=
    layoutOk_contiguous hw (by decide) (by decide) (by decide) rfl (Or.inl rfl)
  have hlt : (freshLoader fun _ => 0).gPhysPageBitMap.numBits < 2 ^ 31 := by
    rw [freshLoader, BitMap.new_numBits]; omega
  have hiff := load_faithful_iff (c := .fileName) (s := freshLoader fun _ => 0)
    (readHeader_tiny (fun _ => 0) 0) hw hlt (by rw [numClear_freshLoader]; decide)
    (accepted_tiny _ _)
  refine ⟨hl, hiff.mpr ?_⟩
  rw [freshLoader, BitMap.clearBits_new, List.take_range, List.range_eq_range']
  exact hl

/-- Memory that was in use before shows through in the uninitialised data. -/
theorem load_keeps_stale_bytes :
    WellFormed (tinyHeader 4) ∧
      (tinyHeader 4).numPages ≤ (freshLoader fun _ => 1).gPhysPageBitMap.numClear ∧
      ∃ sp s', AddrSpace.build .fileName (fun _ => 0) (some (tinyFile 4))
          (freshLoader fun _ => 1) = (.returned sp, s') ∧
        ¬ Faithful (tinyHeader 4) (tinyFile 4) sp s'.mainMemory := by
  have hh := readHeader_tiny (fun _ => 0) 4
  have ha : Accepted (tinyHeader 4) (freshLoader fun _ => 1).gPhysPageBitMap :=
    accepted_tiny _ _
  rw [← hh] at ha
  obtain ⟨sp, s', hbuild, hb⟩ := build_accepted .fileName ha
  rw [hh] at hb
  refine ⟨⟨by decide, by decide, by decide⟩, by rw [numClear_freshLoader]; decide, sp, s', hbuild,
    fun hf => ?_⟩
  have hlt : (freshLoader fun _ => 1).gPhysPageBitMap.numBits < 2 ^ 31 := by
    rw [freshLoader, BitMap.new_numBits]; omega
  obtain ⟨f, off, hfr, _, hfrom, _⟩ :=
    loadsByte_of_userByte hb hlt (by decide) rfl (by decide) (hf.uninitData 0 (by decide))
  rw [framesFor_tiny (by decide)] at hfr hfrom
  have h0 : ([0, 1, 2] : List ℕ)[((tinyHeader 4).uninitData.virtualAddr.toNat + 0) / pageSize]? =
      some 0 := by decide
  rw [h0, Option.some.injEq] at hfr
  subst hfr
  -- no chunk covers index 8
  rcases hfrom with ⟨i, hi, ⟨hs, _⟩, _⟩ | ⟨_, i, hi, ⟨_, h1, h2⟩, _⟩
  · exact absurd hs (by decide)
  · have hno : ∀ i < 3, chunkBase (tinyHeader 4).code [0, 1, 2] i ≤ 8 →
        ¬ 8 < chunkBase (tinyHeader 4).code [0, 1, 2] i +
          chunkSize (tinyHeader 4).code (tinyFile 4).length i := by decide
    exact hno i hi h1 h2

end Nachos
