import Nachos.Machine.Translate
import Nachos.Userprog.BitMap

/-!
# Address spaces, `addrspace.cc` and `noff.h`

Both constructors of `AddrSpace` and its destructor. An executable is the list of its bytes. The
loader's effect on `mainMemory` is kept as the list of its page copies (`loadCopies`): pairs of
the index written and the file offset read, in program order. Nothing masks the index, so a copy
can name a byte outside its page, outside the frames of the space or outside `mainMemory`.

The results of the allocation loop are in `setUpTranslation_eq`: with enough clear bits, page `i`
gets the `i`-th clear bit of the bitmap.
-/

namespace Nachos

/-! ## NOFF headers -/

structure Segment where
  virtualAddr : Word
  inFileAddr : Word
  size : Word
  deriving DecidableEq, Repr

structure NoffHeader where
  noffMagic : Word
  code : Segment
  initData : Segment
  uninitData : Segment
  deriving DecidableEq, Repr

/-- `NOFFMAGIC`. -/
abbrev noffMagic : Word := 0xbadfad#32

/-- `sizeof(noffH)`. -/
abbrev noffHeaderSize : ℕ := 40

def segmentAt (img : ℕ → Byte) (k : ℕ) : Segment where
  virtualAddr := wordAt img k
  inFileAddr := wordAt img (k + 4)
  size := wordAt img (k + 8)

/-- The header whose bytes in memory are `img`. -/
def NoffHeader.ofImage (img : ℕ → Byte) : NoffHeader where
  noffMagic := wordAt img 0
  code := segmentAt img 4
  initData := segmentAt img 16
  uninitData := segmentAt img 28

/-- `noffH` after `ReadAt((char *)&noffH, sizeof(noffH), 0)`: a file shorter than the header
leaves the rest of the stack variable as it was (`stack`). The host is little endian, so
`SwapHeader` is never called with an effect. -/
def readHeader (stack : ℕ → Byte) (file : List Byte) : NoffHeader :=
  NoffHeader.ofImage fun i => file.getD i (stack i)

/-- The bytes of a word in a file. -/
def wordBytes (w : Word) : List Byte :=
  [w.extractLsb' 0 8, w.extractLsb' 8 8, w.extractLsb' 16 8, w.extractLsb' 24 8]

def Segment.encode (seg : Segment) : List Byte :=
  wordBytes seg.virtualAddr ++ wordBytes seg.inFileAddr ++ wordBytes seg.size

/-- The bytes of a header in a file. -/
def NoffHeader.encode (h : NoffHeader) : List Byte :=
  wordBytes h.noffMagic ++ h.code.encode ++ h.initData.encode ++ h.uninitData.encode

/-- The loader reads back the header a file starts with. -/
theorem readHeader_encode (stack : ℕ → Byte) (h : NoffHeader) (body : List Byte) :
    readHeader stack (h.encode ++ body) = h := by
  obtain ⟨m, ⟨a, b, c⟩, ⟨d, e, f⟩, ⟨g, i, j⟩⟩ := h
  simp [readHeader, NoffHeader.ofImage, NoffHeader.encode, Segment.encode, segmentAt, wordAt,
    wordBytes, append_extractLsb']

namespace NoffHeader

/-- `size`: the sum of the segment sizes and the stack, as an unsigned 32-bit number. -/
def spaceSize (h : NoffHeader) : Word :=
  h.code.size + h.initData.size + h.uninitData.size + BitVec.ofNat 32 userStackSize

/-- `numPages = divRoundUp(size, PageSize)`. -/
def numPages (h : NoffHeader) : ℕ := divRoundUp h.spaceSize.toNat pageSize

/-- A space is never larger than the virtual addresses. -/
theorem numPages_mul_le (h : NoffHeader) : h.numPages * pageSize ≤ 2 ^ 32 := by
  have hsize : h.spaceSize.toNat < 2 ^ 32 := h.spaceSize.isLt
  unfold numPages divRoundUp
  rw [show pageSize = 512 from rfl]
  generalize h.spaceSize.toNat = n at hsize ⊢
  split_ifs <;> omega

end NoffHeader

/-! ## The address space -/

structure AddrSpace where
  pageTable : List TranslationEntry
  numPages : ℕ

/-- The frames of the page table, in page order. -/
def AddrSpace.frames (sp : AddrSpace) : List ℤ := sp.pageTable.map (·.physicalPage)

/-- The loop that sets up the translation of `n` pages, from page `i` on. -/
def setUpTranslation : ℕ → ℕ → BitMap → List TranslationEntry × BitMap
  | 0, _, bm => ([], bm)
  | n + 1, i, bm =>
    let entry : TranslationEntry :=
      { virtualPage := i, physicalPage := bm.find.1, valid := true, readOnly := false,
        use := false, dirty := false }
    let rest := setUpTranslation n (i + 1) bm.find.2
    (entry :: rest.1, rest.2)

/-! ## Copying the segments -/

/-- The file position of the `i`-th `ReadAt` of a segment:
`noffH.code.inFileAddr + (i*PageSize)` is computed unsigned and passed as an `int`. -/
def filePosition (seg : Segment) (i : ℕ) : ℤ :=
  (seg.inFileAddr + BitVec.ofNat 32 (i * pageSize)).toInt

/-- What the `i`-th `ReadAt` of a segment brings in: `PageSize` bytes, fewer at the end of the
file. -/
def chunkSize (seg : Segment) (len i : ℕ) : ℕ := min pageSize (len - (filePosition seg i).toNat)

/-- One `ReadAt` of the copy loop, to `&(mainMemory[virtualAddr]) + (physicalPage*PageSize)`. -/
def pageCopies (seg : Segment) (len i : ℕ) (frame : ℤ) : List (ℤ × ℕ) :=
  (List.range (chunkSize seg len i)).map fun j : ℕ =>
    (seg.virtualAddr.toInt + frame * pageSize + (j : ℤ), (filePosition seg i).toNat + j)

/-- The copy loop of one segment over all pages of the space. -/
def segmentCopies (seg : Segment) (len : ℕ) (frames : List ℤ) : List (ℤ × ℕ) :=
  if 0 < seg.size.toInt then
    (List.range frames.length).flatMap fun i => pageCopies seg len i (frames.getD i 0)
  else []

/-- Code first, then the initialised data. -/
def loadCopies (h : NoffHeader) (len : ℕ) (frames : List ℤ) : List (ℤ × ℕ) :=
  segmentCopies h.code len frames ++ segmentCopies h.initData len frames

/-- No `Lseek` of the copy loop gets a negative position, which would fail its `ASSERT`. The `ASSERT` is
that of `FILESYS_STUB`: `ReadAt` of `FILESYS` does not look at the sign of a position. -/
def seekOk (seg : Segment) (n : ℕ) : Prop :=
  0 < seg.size.toInt → ∀ i < n, 0 ≤ filePosition seg i

instance (seg : Segment) (n : ℕ) : Decidable (seekOk seg n) := by unfold seekOk; infer_instance

/-- The bytes the copies bring in. -/
def copyStores (file : List Byte) (copies : List (ℤ × ℕ)) : List (ℤ × Byte) :=
  copies.map fun p => (p.1, file.getD p.2 0)

/-! ## The constructors -/

/-- What the constructors change. `addrLock` is the value of the semaphore, `deletes` counts the
deletions of the executable's file object, `written` is the history of the indices of
`mainMemory` that were assigned. -/
structure Loader where
  gPhysPageBitMap : BitMap
  mainMemory : Memory
  addrLock : ℤ
  deletes : ℕ
  written : List ℤ

namespace Loader

def lockP (s : Loader) : Loader := { s with addrLock := s.addrLock - 1 }

def lockV (s : Loader) : Loader := { s with addrLock := s.addrLock + 1 }

def deleteExecutable (s : Loader) : Loader := { s with deletes := s.deletes + 1 }

def setBitMap (s : Loader) (bm : BitMap) : Loader := { s with gPhysPageBitMap := bm }

/-- The page copies of the loader. -/
def load (s : Loader) (file : List Byte) (copies : List (ℤ × ℕ)) : Loader :=
  { s with mainMemory := Store.store s.mainMemory (copyStores file copies)
           written := s.written ++ copies.map Prod.fst }

end Loader

/-- How a constructor ends. -/
inductive Built where
  /-- The file could not be opened: the fields of the object keep indeterminate values. -/
  | unopened
  /-- A failed `ASSERT` stopped the kernel. -/
  | aborted
  | returned (sp : AddrSpace)

/-- `AddrSpace::AddrSpace(OpenFile *executable)`. -/
def AddrSpace.ofOpenFile (stack : ℕ → Byte) (executable : Option (List Byte)) (s : Loader) :
    Built × Loader :=
  match executable with
  | none => (.unopened, s)
  | some file =>
    let noffH := readHeader stack file
    if noffH.noffMagic ≠ noffMagic then (.aborted, s)
    else
      let s := s.lockP
      if s.gPhysPageBitMap.numClear < noffH.numPages then
        (.returned { pageTable := [], numPages := 0 }, s.deleteExecutable.lockV)
      else
        let t := setUpTranslation noffH.numPages 0 s.gPhysPageBitMap
        let s := (s.setBitMap t.2).lockV
        if seekOk noffH.code noffH.numPages ∧ seekOk noffH.initData noffH.numPages then
          (.returned { pageTable := t.1, numPages := noffH.numPages },
            s.load file (loadCopies noffH file.length (t.1.map (·.physicalPage))))
        else (.aborted, s)

/-- `AddrSpace::AddrSpace(char* filename)`, with the file that `Open` found. Without a `return`
in the branch that refuses, the rest runs with `numPages == 0`. -/
def AddrSpace.ofFileName (stack : ℕ → Byte) (executable : Option (List Byte)) (s : Loader) :
    Built × Loader :=
  match executable with
  | none => (.unopened, s)
  | some file =>
    let noffH := readHeader stack file
    if noffH.noffMagic ≠ noffMagic then (.aborted, s)
    else
      let s := s.lockP
      let refused : Bool := s.gPhysPageBitMap.numClear < noffH.numPages
      let numPages := if refused then 0 else noffH.numPages
      let s := if refused then s.deleteExecutable.lockV else s
      let t := setUpTranslation numPages 0 s.gPhysPageBitMap
      let s := (s.setBitMap t.2).lockV
      if seekOk noffH.code numPages ∧ seekOk noffH.initData numPages then
        (.returned { pageTable := t.1, numPages := numPages },
          (s.load file (loadCopies noffH file.length (t.1.map (·.physicalPage)))).deleteExecutable)
      else (.aborted, s)

/-- The two constructors. -/
inductive Constructor where
  | openFile
  | fileName
  deriving DecidableEq, Repr

def AddrSpace.build : Constructor → (ℕ → Byte) → Option (List Byte) → Loader → Built × Loader
  | .openFile => AddrSpace.ofOpenFile
  | .fileName => AddrSpace.ofFileName

/-- `AddrSpace::~AddrSpace`: clear the frames one by one; `none` is a failed `ASSERT` in
`BitMap::Clear`. -/
def AddrSpace.destroy (sp : AddrSpace) (bm : BitMap) : Option BitMap :=
  (sp.frames.take sp.numPages).foldlM
    (fun bm f => if bm.inRange f then some (bm.clear f.toNat) else none) bm

/-! ## The allocation loop -/

/-- The entry a page gets when its `Find` answers `f`. -/
def freshEntry (i f : ℕ) : TranslationEntry :=
  { virtualPage := i, physicalPage := f, valid := true, readOnly := false, use := false,
    dirty := false }

/-- With enough clear bits, the pages get the first clear bits in increasing order. -/
theorem setUpTranslation_eq (n : ℕ) : ∀ (i : ℕ) (bm : BitMap), n ≤ bm.numClear →
    (setUpTranslation n i bm).1 =
        ((bm.clearBits.take n).zipIdx i).map (fun p => freshEntry p.2 p.1) ∧
      (setUpTranslation n i bm).2.clearBits = bm.clearBits.drop n ∧
      (setUpTranslation n i bm).2.numBits = bm.numBits ∧
      (setUpTranslation n i bm).2.marked = bm.marked ∪ (bm.clearBits.take n).toFinset := by
  induction n with
  | zero => intro i bm _; simp [setUpTranslation]
  | succ n ih =>
    intro i bm hn
    rw [← bm.length_clearBits] at hn
    rcases hc : bm.clearBits with _ | ⟨x, xs⟩
    · rw [hc] at hn; simp at hn
    · have hx : x < bm.numBits :=
        (BitMap.mem_clearBits.mp (by rw [hc]; exact List.mem_cons_self)).1
      have hxs := BitMap.clearBits_mark_head hc
      have hn' : n ≤ (bm.mark x).numClear := by
        rw [← BitMap.length_clearBits, hxs]
        rw [hc, List.length_cons] at hn
        omega
      obtain ⟨h1, h2, h3, h4⟩ := ih (i + 1) (bm.mark x) hn'
      simp only [setUpTranslation, BitMap.find_eq hc]
      rw [h1, h2, h3, h4, hxs, BitMap.marked_mark hx]
      refine ⟨rfl, rfl, rfl, ?_⟩
      rw [List.take_succ_cons, List.toFinset_cons, Finset.insert_union, Finset.union_insert]

theorem setUpTranslation_frames {n i : ℕ} {bm : BitMap} (hn : n ≤ bm.numClear) :
    (setUpTranslation n i bm).1.map (·.physicalPage) =
      (bm.clearBits.take n).map fun f : ℕ => (f : ℤ) := by
  rw [(setUpTranslation_eq n i bm hn).1, List.map_map]
  have h : (fun e : TranslationEntry => e.physicalPage) ∘ (fun p : ℕ × ℕ => freshEntry p.2 p.1) =
      (fun f : ℕ => (f : ℤ)) ∘ Prod.fst := rfl
  rw [h, ← List.map_map, List.zipIdx_map_fst]

/-! ## The constructors in one form -/

/-- The number of pages the constructors set up: none when memory is short. -/
def pagesFor (h : NoffHeader) (bm : BitMap) : ℕ :=
  if bm.numClear < h.numPages then 0 else h.numPages

/-- The frames the constructors take: the first clear bits. -/
def framesFor (h : NoffHeader) (bm : BitMap) : List ℕ := bm.clearBits.take (pagesFor h bm)

theorem pagesFor_le (h : NoffHeader) (bm : BitMap) : pagesFor h bm ≤ bm.numClear := by
  unfold pagesFor; split_ifs <;> omega

theorem length_framesFor (h : NoffHeader) (bm : BitMap) :
    (framesFor h bm).length = pagesFor h bm := by
  have := pagesFor_le h bm
  rw [framesFor, List.length_take, BitMap.length_clearBits]
  omega

theorem framesFor_nodup (h : NoffHeader) (bm : BitMap) : (framesFor h bm).Nodup :=
  bm.clearBits_nodup.sublist (List.take_sublist _ _)

/-- The copies of a load, by the bitmap it starts from. -/
def copiesFor (h : NoffHeader) (len : ℕ) (bm : BitMap) : List (ℤ × ℕ) :=
  loadCopies h len ((framesFor h bm).map fun f : ℕ => (f : ℤ))

theorem mem_framesFor {h : NoffHeader} {bm : BitMap} {f : ℕ} (hf : f ∈ framesFor h bm) :
    f < bm.numBits ∧ bm.test f = false :=
  BitMap.mem_clearBits.mp (List.mem_of_mem_take hf)

/-- On an empty machine a program gets the frames from 0 on. -/
theorem framesFor_new {h : NoffHeader} (words : ℕ → Word) {n : ℕ} (hn : h.numPages ≤ n) :
    framesFor h (BitMap.new words n) = List.range' 0 h.numPages := by
  have hc : (BitMap.new words n).numClear = n := by
    rw [← BitMap.length_clearBits, BitMap.clearBits_new, List.length_range]
  have hp : pagesFor h (BitMap.new words n) = h.numPages := if_neg (by omega)
  rw [framesFor, hp, BitMap.clearBits_new, List.take_range, Nat.min_eq_left hn,
    List.range_eq_range']

/-- What a constructor that returns has done, by the header it read. -/
structure IsBuilt (h : NoffHeader) (file : List Byte) (s : Loader) (sp : AddrSpace) (s' : Loader) :
    Prop where
  table : sp.pageTable =
    (framesFor h s.gPhysPageBitMap).zipIdx.map (fun p => freshEntry p.2 p.1)
  pages : sp.numPages = pagesFor h s.gPhysPageBitMap
  bitMap : s'.gPhysPageBitMap = (setUpTranslation (pagesFor h s.gPhysPageBitMap) 0
    s.gPhysPageBitMap).2
  memory : s'.mainMemory = Store.store s.mainMemory
    (copyStores file (copiesFor h file.length s.gPhysPageBitMap))
  written : s'.written = s.written ++ (copiesFor h file.length s.gPhysPageBitMap).map Prod.fst

/-- The header gets past the `ASSERT`s of the constructor and, with `FILESYS_STUB`, of its `Lseek`
calls. -/
structure Accepted (h : NoffHeader) (bm : BitMap) : Prop where
  magic : h.noffMagic = noffMagic
  code : seekOk h.code (pagesFor h bm)
  initData : seekOk h.initData (pagesFor h bm)

section Constructors

variable {stack : ℕ → Byte} {file : List Byte} {s : Loader} {h : NoffHeader}
  (hh : readHeader stack file = h)

include hh

theorem build_bad_magic (c : Constructor) (hm : h.noffMagic ≠ noffMagic) :
    AddrSpace.build c stack (some file) s = (.aborted, s) := by
  cases c <;> simp [AddrSpace.build, AddrSpace.ofOpenFile, AddrSpace.ofFileName, hh, hm]

theorem ofOpenFile_refused (hm : h.noffMagic = noffMagic)
    (hr : s.gPhysPageBitMap.numClear < h.numPages) :
    AddrSpace.ofOpenFile stack (some file) s =
      (.returned { pageTable := [], numPages := 0 }, s.lockP.deleteExecutable.lockV) := by
  simp [AddrSpace.ofOpenFile, hh, hm, Loader.lockP, hr]

theorem ofFileName_refused (hm : h.noffMagic = noffMagic)
    (hr : s.gPhysPageBitMap.numClear < h.numPages) :
    AddrSpace.ofFileName stack (some file) s =
      (.returned { pageTable := [], numPages := 0 },
        (s.lockP.deleteExecutable.lockV.lockV.load file []).deleteExecutable) := by
  have hs : ∀ seg, seekOk seg 0 := fun seg _ i hi => absurd hi (Nat.not_lt_zero i)
  simp [AddrSpace.ofFileName, hh, hm, Loader.lockP, hr, hs, setUpTranslation, loadCopies,
    segmentCopies, Loader.deleteExecutable, Loader.lockV, Loader.setBitMap]

/-- The state after a load that found its frames. -/
def loaded (h : NoffHeader) (file : List Byte) (s : Loader) : Loader :=
  ((s.lockP.setBitMap (setUpTranslation h.numPages 0 s.gPhysPageBitMap).2).lockV).load file
    (loadCopies h file.length
      ((setUpTranslation h.numPages 0 s.gPhysPageBitMap).1.map (·.physicalPage)))

omit hh in
theorem loaded_bitMap : (loaded h file s).gPhysPageBitMap =
    (setUpTranslation h.numPages 0 s.gPhysPageBitMap).2 := by
  simp only [loaded, Loader.load, Loader.lockV, Loader.setBitMap]

omit hh in
theorem loaded_memory : (loaded h file s).mainMemory = Store.store s.mainMemory
    (copyStores file (loadCopies h file.length
      ((setUpTranslation h.numPages 0 s.gPhysPageBitMap).1.map (·.physicalPage)))) := by
  simp only [loaded, Loader.load, Loader.lockV, Loader.setBitMap, Loader.lockP]

omit hh in
theorem loaded_written : (loaded h file s).written = s.written ++ (loadCopies h file.length
      ((setUpTranslation h.numPages 0 s.gPhysPageBitMap).1.map (·.physicalPage))).map Prod.fst := by
  simp only [loaded, Loader.load, Loader.lockV, Loader.setBitMap, Loader.lockP]

theorem ofOpenFile_loaded (hm : h.noffMagic = noffMagic)
    (hr : ¬ s.gPhysPageBitMap.numClear < h.numPages)
    (hk : seekOk h.code h.numPages ∧ seekOk h.initData h.numPages) :
    AddrSpace.ofOpenFile stack (some file) s =
      (.returned { pageTable := (setUpTranslation h.numPages 0 s.gPhysPageBitMap).1
                   numPages := h.numPages }, loaded h file s) := by
  simp [AddrSpace.ofOpenFile, hh, hm, Loader.lockP, hr, hk, loaded]

theorem ofFileName_loaded (hm : h.noffMagic = noffMagic)
    (hr : ¬ s.gPhysPageBitMap.numClear < h.numPages)
    (hk : seekOk h.code h.numPages ∧ seekOk h.initData h.numPages) :
    AddrSpace.ofFileName stack (some file) s =
      (.returned { pageTable := (setUpTranslation h.numPages 0 s.gPhysPageBitMap).1
                   numPages := h.numPages }, (loaded h file s).deleteExecutable) := by
  simp [AddrSpace.ofFileName, hh, hm, Loader.lockP, hr, hk, loaded]

theorem build_bad_seek (c : Constructor) (hm : h.noffMagic = noffMagic)
    (hr : ¬ s.gPhysPageBitMap.numClear < h.numPages)
    (hk : ¬ (seekOk h.code h.numPages ∧ seekOk h.initData h.numPages)) :
    ∃ s', AddrSpace.build c stack (some file) s = (.aborted, s') := by
  refine ⟨(s.lockP.setBitMap (setUpTranslation h.numPages 0 s.gPhysPageBitMap).2).lockV, ?_⟩
  cases c with
  | openFile => simp [AddrSpace.build, AddrSpace.ofOpenFile, hh, hm, Loader.lockP, hr, hk]
  | fileName => simp [AddrSpace.build, AddrSpace.ofFileName, hh, hm, Loader.lockP, hr, hk]

end Constructors

theorem pagesFor_refused {h : NoffHeader} {bm : BitMap} (hr : bm.numClear < h.numPages) :
    pagesFor h bm = 0 := if_pos hr

theorem pagesFor_enough {h : NoffHeader} {bm : BitMap} (hr : ¬ bm.numClear < h.numPages) :
    pagesFor h bm = h.numPages := if_neg hr

theorem copiesFor_refused {h : NoffHeader} {bm : BitMap} (hr : bm.numClear < h.numPages)
    (len : ℕ) : copiesFor h len bm = [] := by
  rw [copiesFor, framesFor, pagesFor_refused hr]
  simp [loadCopies, segmentCopies]

/-- A refused construction leaves bitmap and memory alone. -/
theorem isBuilt_refused {h : NoffHeader} {file : List Byte} {s s' : Loader}
    (hr : s.gPhysPageBitMap.numClear < h.numPages)
    (hb : s'.gPhysPageBitMap = s.gPhysPageBitMap) (hm : s'.mainMemory = s.mainMemory)
    (hw : s'.written = s.written) :
    IsBuilt h file s { pageTable := [], numPages := 0 } s' := by
  have hc := copiesFor_refused hr file.length
  constructor
  · rw [framesFor, pagesFor_refused hr]; rfl
  · rw [pagesFor_refused hr]
  · rw [pagesFor_refused hr, hb]; rfl
  · rw [hc, hm]; rfl
  · rw [hc, hw]; simp

theorem isBuilt_loaded {h : NoffHeader} {file : List Byte} {s s' : Loader}
    (hr : ¬ s.gPhysPageBitMap.numClear < h.numPages)
    (hb : s'.gPhysPageBitMap = (loaded h file s).gPhysPageBitMap)
    (hm : s'.mainMemory = (loaded h file s).mainMemory)
    (hw : s'.written = (loaded h file s).written) :
    IsBuilt h file s { pageTable := (setUpTranslation h.numPages 0 s.gPhysPageBitMap).1
                       numPages := h.numPages } s' := by
  have hp := pagesFor_enough hr
  have hle := pagesFor_le h s.gPhysPageBitMap
  have hc : copiesFor h file.length s.gPhysPageBitMap = loadCopies h file.length
      ((setUpTranslation h.numPages 0 s.gPhysPageBitMap).1.map (·.physicalPage)) := by
    rw [copiesFor, framesFor, ← setUpTranslation_frames (i := 0) hle, hp]
  constructor
  · rw [framesFor, ← (setUpTranslation_eq _ 0 _ hle).1, hp]
  · exact hp.symm
  · rw [hp, hb, loaded_bitMap]
  · rw [hc, hm, loaded_memory]
  · rw [hc, hw, loaded_written]

/-- Both constructors do the same to the bitmap and to memory; they differ in what they do to
the semaphore and to the file object. -/
theorem build_accepted (c : Constructor) {stack : ℕ → Byte} {file : List Byte} {s : Loader}
    (ha : Accepted (readHeader stack file) s.gPhysPageBitMap) :
    ∃ sp s', AddrSpace.build c stack (some file) s = (.returned sp, s') ∧
      IsBuilt (readHeader stack file) file s sp s' := by
  obtain ⟨hm, hc, hd⟩ := ha
  by_cases hr : s.gPhysPageBitMap.numClear < (readHeader stack file).numPages
  · cases c with
    | openFile => exact ⟨_, _, ofOpenFile_refused rfl hm hr, isBuilt_refused hr rfl rfl rfl⟩
    | fileName =>
      exact ⟨_, _, ofFileName_refused rfl hm hr,
        isBuilt_refused hr rfl rfl (List.append_nil s.written)⟩
  · rw [pagesFor_enough hr] at hc hd
    cases c with
    | openFile => exact ⟨_, _, ofOpenFile_loaded rfl hm hr ⟨hc, hd⟩, isBuilt_loaded hr rfl rfl rfl⟩
    | fileName =>
      refine ⟨_, _, ofFileName_loaded rfl hm hr ⟨hc, hd⟩, isBuilt_loaded hr ?_ ?_ ?_⟩ <;>
        rw [Loader.deleteExecutable]

theorem build_not_accepted (c : Constructor) {stack : ℕ → Byte} {file : List Byte} {s : Loader}
    (ha : ¬ Accepted (readHeader stack file) s.gPhysPageBitMap) :
    ∃ s', AddrSpace.build c stack (some file) s = (.aborted, s') := by
  by_cases hm : (readHeader stack file).noffMagic = noffMagic
  swap
  · exact ⟨s, build_bad_magic rfl c hm⟩
  by_cases hr : s.gPhysPageBitMap.numClear < (readHeader stack file).numPages
  · have hs : ∀ seg, seekOk seg 0 := fun seg _ i hi => absurd hi (Nat.not_lt_zero i)
    exact absurd ⟨hm, by rw [pagesFor_refused hr]; exact hs _,
      by rw [pagesFor_refused hr]; exact hs _⟩ ha
  · refine build_bad_seek rfl c hm hr fun hk => ha ⟨hm, ?_, ?_⟩
    · rw [pagesFor_enough hr]; exact hk.1
    · rw [pagesFor_enough hr]; exact hk.2

/-- A constructor that returns has accepted the header and done what `IsBuilt` says. -/
theorem build_returned {c : Constructor} {stack : ℕ → Byte} {file : List Byte} {s s' : Loader}
    {sp : AddrSpace} (hb : AddrSpace.build c stack (some file) s = (.returned sp, s')) :
    Accepted (readHeader stack file) s.gPhysPageBitMap ∧
      IsBuilt (readHeader stack file) file s sp s' := by
  by_cases ha : Accepted (readHeader stack file) s.gPhysPageBitMap
  · obtain ⟨sp₁, s₁, h₁, hi⟩ := build_accepted c ha
    rw [h₁, Prod.mk.injEq, Built.returned.injEq] at hb
    obtain ⟨rfl, rfl⟩ := hb
    exact ⟨ha, hi⟩
  · obtain ⟨s₁, h₁⟩ := build_not_accepted c ha
    rw [h₁] at hb
    simp at hb

/-! ## The new space -/

namespace IsBuilt

variable {h : NoffHeader} {file : List Byte} {s s' : Loader} {sp : AddrSpace}
  (hb : IsBuilt h file s sp s')

include hb

theorem frames : sp.frames = (framesFor h s.gPhysPageBitMap).map fun f : ℕ => (f : ℤ) := by
  unfold AddrSpace.frames
  rw [hb.table, List.map_map]
  have hc : (fun e : TranslationEntry => e.physicalPage) ∘ (fun p : ℕ × ℕ => freshEntry p.2 p.1) =
      (fun f : ℕ => (f : ℤ)) ∘ Prod.fst := rfl
  rw [hc, ← List.map_map, List.zipIdx_map_fst]

theorem mem_frames {f : ℕ} : (f : ℤ) ∈ sp.frames ↔ f ∈ framesFor h s.gPhysPageBitMap := by
  rw [hb.frames, List.mem_map]
  constructor
  · rintro ⟨g, hg, e⟩; rwa [← Int.ofNat_inj.mp e]
  · intro hf; exact ⟨f, hf, rfl⟩

theorem frames_nodup : sp.frames.Nodup := by
  rw [hb.frames]
  exact (framesFor_nodup _ _).map fun a b e => Int.ofNat_inj.mp e

theorem length_frames : sp.frames.length = sp.numPages := by
  rw [hb.frames, List.length_map, length_framesFor, hb.pages]

theorem marked : s'.gPhysPageBitMap.marked =
    s.gPhysPageBitMap.marked ∪ (framesFor h s.gPhysPageBitMap).toFinset := by
  rw [hb.bitMap]
  exact (setUpTranslation_eq _ 0 _ (pagesFor_le h _)).2.2.2

theorem numBits : s'.gPhysPageBitMap.numBits = s.gPhysPageBitMap.numBits := by
  rw [hb.bitMap]
  exact (setUpTranslation_eq _ 0 _ (pagesFor_le h _)).2.2.1

theorem refused (hr : s.gPhysPageBitMap.numClear < h.numPages) :
    s'.gPhysPageBitMap = s.gPhysPageBitMap := by
  rw [hb.bitMap, pagesFor_refused hr]; rfl

/-- A frame the construction took was clear before. -/
theorem found {f : ℤ} (hf : f ∈ sp.frames) :
    ∃ n : ℕ, f = n ∧ n < s.gPhysPageBitMap.numBits ∧ n ∉ s.gPhysPageBitMap.marked := by
  rw [hb.frames, List.mem_map] at hf
  obtain ⟨n, hn, rfl⟩ := hf
  obtain ⟨hlt, ht⟩ := mem_framesFor hn
  refine ⟨n, rfl, hlt, fun hm => ?_⟩
  rw [(BitMap.mem_marked.mp hm).2] at ht
  exact Bool.false_ne_true ht.symm

end IsBuilt

end Nachos
