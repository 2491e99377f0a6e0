import Nachos.Lib.Tiling
import Nachos.Userprog.AddrSpace

/-!
# The converter `coff2noff.c`

A COFF file, of the layout of `coff.h` with the 4-byte `long` of the host the tool is built for, is
turned into a NOFF file. Both are the lists of their bytes. The host is little endian, so the
conversions to host order do nothing. `malloc` finds the memory it is asked for, and the output
file has some room. A run in which a sum of sizes would wrap around is not an accepted one, as C does
not define it: the converter fails there with `overflow`.

The converter keeps the memory image of a file exactly if the file is `Mergeable`
(`image_kept_iff`): the second non-empty `.text` replaces the first one, and the test that is to
make sure that `.bss` and `.sbss` are contiguous refuses them when they are.
-/

namespace Nachos

namespace Coff2noff

/-! ## `coff.h` -/

/-- `sizeof(struct filehdr)`, `sizeof(struct aouthdr)` and `sizeof(struct scnhdr)`. -/
abbrev filehdrSize : ℕ := 20
abbrev aouthdrSize : ℕ := 56
abbrev scnhdrSize : ℕ := 40

/-- `MIPSELMAGIC`. -/
abbrev mipselMagic : BitVec 16 := 0x0162#16

/-- `OMAGIC`, octal 407. -/
abbrev omagic : BitVec 16 := 0x0107#16

/-- The 16-bit number at byte `k` of a structure. -/
def shortAt (bytes : List Byte) (k : ℕ) : BitVec 16 := bytes.getD (k + 1) 0 ++ bytes.getD k 0

/-- The fields of `struct scnhdr` that the converter reads. -/
structure Scnhdr where
  sName : List Byte
  sPaddr : Word
  sSize : Word
  sScnptr : Word
  deriving DecidableEq, Repr

def Scnhdr.ofBytes (bytes : List Byte) : Scnhdr where
  sName := bytes.take 8
  sPaddr := wordAt (fun i => bytes.getD i 0) 8
  sSize := wordAt (fun i => bytes.getD i 0) 16
  sScnptr := wordAt (fun i => bytes.getD i 0) 20

/-- `!strcmp(s_name, name)`: the literals are shorter than the array. -/
def Scnhdr.named (s : Scnhdr) (name : List Char) : Bool :=
  s.sName.takeWhile (fun b => b ≠ 0) = name.map fun c => BitVec.ofNat 8 c.toNat

def Scnhdr.isText (s : Scnhdr) : Bool := s.named ['.', 't', 'e', 'x', 't']

def Scnhdr.isData (s : Scnhdr) : Bool :=
  s.named ['.', 'd', 'a', 't', 'a'] || s.named ['.', 'r', 'd', 'a', 't', 'a']

def Scnhdr.isBss (s : Scnhdr) : Bool :=
  s.named ['.', 'b', 's', 's'] || s.named ['.', 's', 'b', 's', 's']

/-- `sections`, an array of `n` headers. -/
def scnhdrs (n : ℕ) (table : List Byte) : List Scnhdr :=
  (List.range n).map fun i => Scnhdr.ofBytes (table.drop (i * scnhdrSize))

/-! ## The program -/

/-- Why `coff2noff` does not exit with 0. -/
inductive Failure where
  /-- `"File is too short\n"` -/
  | tooShort
  /-- `"Unable to write file\n"` -/
  | cannotWrite
  /-- `"File is not a MIPSEL COFF file\n"` -/
  | notMipsel
  /-- `"File is not a OMAGIC file\n"` -/
  | notOmagic
  /-- `"Can't handle both data and rdata\n"` -/
  | dataAndRdata
  /-- `"Can't handle both bss and sbss\n"` -/
  | bssAndSbss
  /-- `"Unknown segment type: %s\n"` -/
  | unknownSegment (name : List Byte)
  /-- No message: a sum of two `int`s would wrap around. -/
  | overflow
  deriving DecidableEq, Repr

/-- The largest size of a file with a 32-bit `off_t`. -/
abbrev offMax : ℕ := 2 ^ 31 - 1

/-- `Read` from position `pos`; the bytes, and the position after it. A count below 0 makes `read`
fail and return -1, which `Read` takes for success where the count is -1. -/
def readBytes (coff : List Byte) (pos : ℕ) (nBytes : ℤ) : Except Failure (List Byte × ℕ) :=
  if nBytes = -1 then .ok ([], pos)
  else if nBytes < 0 ∨ coff.length < pos + nBytes then .error .tooShort
  else .ok ((coff.drop pos).take nBytes.toNat, pos + nBytes.toNat)

/-- `Write` at the end of `out`, into a file that has room for `room` bytes. -/
def writeBytes (room : ℕ) (out bytes : List Byte) (nBytes : ℤ) : Except Failure (List Byte) :=
  if nBytes = -1 then .ok out
  else if (min room offMax : ℕ) < out.length + nBytes then .error .cannotWrite
  else .ok (out ++ bytes)

/-- The variables of the loop: `noffH`, `inNoffFile`, the position in the COFF file, and the NOFF
file up to the position in it. -/
structure Conv where
  noffH : NoffHeader
  inNoffFile : ℤ
  pos : ℕ
  out : List Byte

/-- The fields of a segment, and the copy of the raw data of its section. An `lseek` to a position
below 0 fails and leaves the file where it was. -/
def copyRaw (coff : List Byte) (room : ℕ) (st : Conv) (s : Scnhdr) :
    Except Failure (Segment × Conv) := do
  let seg : Segment :=
    { virtualAddr := s.sPaddr, inFileAddr := BitVec.ofInt 32 st.inNoffFile, size := s.sSize }
  let pos := if s.sScnptr.toInt < 0 then st.pos else s.sScnptr.toInt.toNat
  let (buffer, pos) ← readBytes coff pos s.sSize.toInt
  let out ← writeBytes room st.out buffer s.sSize.toInt
  return (seg, { st with inNoffFile := st.inNoffFile + s.sSize.toInt, pos := pos, out := out })

/-- The sum of two `int`s, where it does not wrap around. -/
def addInt (a b : Word) : Except Failure Word :=
  if a.saddOverflow b then .error .overflow else .ok (a + b)

/-- One round of the loop. -/
def copySection (coff : List Byte) (room : ℕ) (st : Conv) (s : Scnhdr) : Except Failure Conv :=
  if s.sSize = 0 then .ok st
  else if s.isText then do
    let (seg, st) ← copyRaw coff room st s
    return { st with noffH := { st.noffH with code := seg } }
  else if s.isData then
    if st.noffH.initData.size ≠ 0 then .error .dataAndRdata
    else do
      let (seg, st) ← copyRaw coff room st s
      return { st with noffH := { st.noffH with initData := seg } }
  else if s.isBss then
    if st.noffH.uninitData.size ≠ 0 then do
      let stop ← addInt st.noffH.uninitData.virtualAddr st.noffH.uninitData.size
      if s.sPaddr = stop then .error .bssAndSbss
      else
        let size ← addInt st.noffH.uninitData.size s.sSize
        let seg := { st.noffH.uninitData with size := size }
        return { st with noffH := { st.noffH with uninitData := seg } }
    else
      let seg := { st.noffH.uninitData with virtualAddr := s.sPaddr, size := s.sSize }
      .ok { st with noffH := { st.noffH with uninitData := seg } }
  else .error (.unknownSegment s.sName)

/-- `noffH` before the loop; what it was before is left in the other fields. -/
def startHeader (noffH : NoffHeader) : NoffHeader where
  noffMagic := noffMagic
  code := { noffH.code with size := 0 }
  initData := { noffH.initData with size := 0 }
  uninitData := { noffH.uninitData with size := 0 }

/-- `main`, from the opened COFF file to the NOFF file. -/
def main (room : ℕ) (noffH : NoffHeader) (coff : List Byte) : Except Failure (List Byte) := do
  let (fileh, pos) ← readBytes coff 0 filehdrSize
  if shortAt fileh 0 ≠ mipselMagic then throw .notMipsel
  let (systemh, pos) ← readBytes coff pos aouthdrSize
  if shortAt systemh 0 ≠ omagic then throw .notOmagic
  let numsections := (shortAt fileh 2).toNat
  let (table, pos) ← readBytes coff pos (numsections * scnhdrSize : ℕ)
  let st ← (scnhdrs numsections table).foldlM (copySection coff room)
    { noffH := startHeader noffH, inNoffFile := noffHeaderSize, pos := pos
      out := List.replicate noffHeaderSize 0 }
  let header ← writeBytes room [] st.noffH.encode noffHeaderSize
  return header ++ st.out.drop noffHeaderSize

/-! ## The memory image -/

/-- The section headers of a COFF file. -/
def sections (coff : List Byte) : List Scnhdr :=
  scnhdrs (shortAt coff 2).toNat
    ((coff.drop (filehdrSize + aouthdrSize)).take ((shortAt coff 2).toNat * scnhdrSize))

/-- The non-empty sections with a name of a kind, in the order of the file. -/
def filled (kind : Scnhdr → Bool) (l : List Scnhdr) : List Scnhdr :=
  l.filter fun s => s.sSize ≠ 0 && kind s

def HoldsAt (file : List Byte) (pos : ℤ) (bytes : List Byte) : Prop :=
  0 ≤ pos ∧ bytes <+: file.drop pos.toNat

/-- The segment has the address of the section, its size and its bytes. -/
structure Copied (coff noff : List Byte) (seg : Segment) (s : Scnhdr) : Prop where
  virtualAddr : seg.virtualAddr = s.sPaddr
  size : seg.size = s.sSize
  bytes : ∃ bytes : List Byte, (bytes.length : ℤ) = s.sSize.toInt ∧
    HoldsAt coff s.sScnptr.toInt bytes ∧ HoldsAt noff seg.inFileAddr.toInt bytes

def Scnhdr.start (s : Scnhdr) : ℤ := s.sPaddr.toInt

def Scnhdr.len (s : Scnhdr) : ℤ := s.sSize.toInt

/-- The NOFF file describes the memory image of the COFF file. A section of negative size has no
image. -/
structure ImageKept (coff noff : List Byte) : Prop where
  text : ∀ s ∈ filled Scnhdr.isText (sections coff),
    Copied coff noff (readHeader (fun _ => 0) noff).code s
  data : ∀ s ∈ filled Scnhdr.isData (sections coff),
    Copied coff noff (readHeader (fun _ => 0) noff).initData s
  ranges : ∀ s ∈ filled Scnhdr.isBss (sections coff), 0 < s.len
  uninit : ∀ x : ℤ, Tiling.Covers Scnhdr.start Scnhdr.len (filled Scnhdr.isBss (sections coff)) x ↔
    (readHeader (fun _ => 0) noff).uninitData.virtualAddr.toInt ≤ x ∧
      x < (readHeader (fun _ => 0) noff).uninitData.virtualAddr.toInt +
        (readHeader (fun _ => 0) noff).uninitData.size.toInt

/-- The raw data of a section. -/
def rawData (coff : List Byte) (s : Scnhdr) : List Byte :=
  (coff.drop s.sScnptr.toInt.toNat).take s.sSize.toInt.toNat

/-- The converter can represent the file: there are no two different `.text` sections, sizes and
file pointers are not negative, and the uninitialised sections lie end to end, from the first one of
the file on. -/
structure Mergeable (coff : List Byte) : Prop where
  raw : ∀ s ∈ sections coff, s.sSize ≠ 0 → s.isText ∨ s.isData →
    0 < s.len ∧ 0 ≤ s.sScnptr.toInt
  text : ∀ s ∈ filled Scnhdr.isText (sections coff), ∀ s' ∈ filled Scnhdr.isText (sections coff),
    s.sPaddr = s'.sPaddr ∧ s.sSize = s'.sSize ∧ rawData coff s = rawData coff s'
  ranges : ∀ s ∈ filled Scnhdr.isBss (sections coff), 0 < s.len
  contiguous : ∀ b rest, filled Scnhdr.isBss (sections coff) = b :: rest →
    ∃ l, l.Perm rest ∧ Tiling.Tiles Scnhdr.start Scnhdr.len (b.start + b.len) l

section Helpers

variable {coff out noff bytes : List Byte} {s : Scnhdr} {seg : Segment}

/-- No two of the names are equal. -/
theorem kinds_disjoint (s : Scnhdr) : (s.isText = true → s.isData = false ∧ s.isBss = false) ∧
    (s.isData = true → s.isBss = false) := by
  simp only [Scnhdr.isText, Scnhdr.isData, Scnhdr.isBss, Scnhdr.named, Bool.or_eq_true,
    decide_eq_true_eq]
  refine ⟨fun h => ?_, fun h => ?_⟩
  · rw [h]
    decide
  · rcases h with h | h <;> rw [h] <;> decide

theorem filled_append (kind : Scnhdr → Bool) (l : List Scnhdr) (s : Scnhdr) :
    filled kind (l ++ [s]) = if s.sSize ≠ 0 ∧ kind s = true then filled kind l ++ [s]
      else filled kind l := by
  unfold filled
  rw [List.filter_append]
  by_cases h : s.sSize ≠ 0 ∧ kind s = true
  · rw [if_pos h, List.filter_cons_of_pos (by simpa using h), List.filter_nil]
  · rw [if_neg h, List.filter_cons_of_neg (by simpa using h), List.filter_nil, List.append_nil]

theorem mem_filled {kind : Scnhdr → Bool} {l : List Scnhdr} :
    s ∈ filled kind l ↔ s ∈ l ∧ s.sSize ≠ 0 ∧ kind s = true := by
  simp [filled]

theorem HoldsAt.append {pos : ℤ} (h : HoldsAt out pos bytes) (more : List Byte) :
    HoldsAt (out ++ more) pos bytes := by
  refine ⟨h.1, h.2.trans ?_⟩
  rw [List.drop_append]
  exact List.prefix_append _ _

theorem Copied.append (h : Copied coff out seg s) (more : List Byte) :
    Copied coff (out ++ more) seg s := by
  obtain ⟨b, hlen, hin, hout⟩ := h.bytes
  exact ⟨h.virtualAddr, h.size, b, hlen, hin, hout.append more⟩

theorem rawData_eq (hlen : (bytes.length : ℤ) = s.sSize.toInt)
    (h : HoldsAt coff s.sScnptr.toInt bytes) : rawData coff s = bytes := by
  rw [rawData, ← hlen, Int.toNat_natCast]
  exact (List.prefix_iff_eq_take.mp h.2).symm

theorem bind_ok {α β : Type} {x : Except Failure α} {f : α → Except Failure β} {r : β}
    (h : (x >>= f) = .ok r) : ∃ a, x = .ok a ∧ f a = .ok r := by
  cases x with
  | error e => cases h
  | ok a => exact ⟨a, rfl, h⟩

theorem readBytes_ok {pos pos' : ℕ} {n : ℤ} (hn : 0 ≤ n)
    (h : readBytes coff pos n = .ok (bytes, pos')) :
    bytes = (coff.drop pos).take n.toNat ∧ pos' = pos + n.toNat ∧ pos + n.toNat ≤ coff.length := by
  unfold readBytes at h
  split_ifs at h with h1 h2
  · omega
  · cases h
    exact ⟨rfl, rfl, by omega⟩

theorem writeBytes_ok {room : ℕ} {n : ℤ} (hn : 0 ≤ n) (h : writeBytes room out bytes n = .ok noff) :
    noff = out ++ bytes ∧ (out.length : ℤ) + n ≤ offMax := by
  unfold writeBytes at h
  split_ifs at h with h1 h2
  · omega
  · cases h
    exact ⟨rfl, by omega⟩

theorem addInt_ok {a b c : Word} (h : addInt a b = .ok c) : c.toInt = a.toInt + b.toInt := by
  unfold addInt at h
  split_ifs at h with ho
  cases h
  exact BitVec.toInt_add_of_not_saddOverflow ho

end Helpers

/-! ## The loop -/

/-- The segment holds the section, behind the header. -/
def Placed (coff out : List Byte) (seg : Segment) (s : Scnhdr) : Prop :=
  Copied coff out seg s ∧ (noffHeaderSize : ℤ) ≤ seg.inFileAddr.toInt

/-- The header describes the sections that have been copied. -/
structure Inv (coff : List Byte) (done : List Scnhdr) (st : Conv) : Prop where
  pos : st.inNoffFile = st.out.length
  lower : noffHeaderSize ≤ st.out.length
  upper : st.out.length ≤ offMax
  code : ∀ s, (filled Scnhdr.isText done).getLast? = some s → Placed coff st.out st.noffH.code s
  data : filled Scnhdr.isData done = [] ∧ st.noffH.initData.size = 0 ∨
    ∃ s, filled Scnhdr.isData done = [s] ∧ Placed coff st.out st.noffH.initData s
  bss : filled Scnhdr.isBss done = [] ∧ st.noffH.uninitData.size = 0 ∨
    ∃ b rest, filled Scnhdr.isBss done = b :: rest ∧
      st.noffH.uninitData.virtualAddr = b.sPaddr ∧
      st.noffH.uninitData.size.toInt = Tiling.total Scnhdr.len (b :: rest)

/-- What is left to copy is not malformed. -/
def Sound (s : Scnhdr) : Prop :=
  s.sSize ≠ 0 → (s.isText ∨ s.isData → 0 < s.len ∧ 0 ≤ s.sScnptr.toInt) ∧ (s.isBss → 0 < s.len)

section Loop

variable {coff : List Byte} {room : ℕ} {done : List Scnhdr} {st st' : Conv} {s : Scnhdr}
  {seg : Segment}

/-- The copy of a section's raw data. -/
theorem copyRaw_ok (hi : Inv coff done st) (hlen : 0 < s.len) (hptr : 0 ≤ s.sScnptr.toInt)
    (h : copyRaw coff room st s = .ok (seg, st')) :
    st' = { st with inNoffFile := st'.out.length, pos := st'.pos
                    out := st.out ++ rawData coff s } ∧
      st'.out.length ≤ offMax ∧ Placed coff st'.out seg s := by
  unfold Scnhdr.len at hlen
  unfold copyRaw at h
  dsimp only at h
  rw [if_neg (not_lt.mpr hptr)] at h
  obtain ⟨⟨buffer, pos⟩, hread, h⟩ := bind_ok h
  obtain ⟨out, hwrite, h⟩ := bind_ok h
  obtain ⟨rfl, -, hin⟩ := readBytes_ok hlen.le hread
  obtain ⟨rfl, hout⟩ := writeBytes_ok hlen.le hwrite
  cases h
  have hraw : ((rawData coff s).length : ℤ) = s.sSize.toInt := by
    rw [rawData, List.length_take, List.length_drop]
    omega
  have hlower := hi.lower
  have hupper := hi.upper
  have hmax : offMax = 2147483647 := rfl
  have haddr : (BitVec.ofInt 32 st.inNoffFile).toInt = st.out.length := by
    rw [hi.pos, BitVec.toInt_ofInt]
    exact Int.bmod_eq_of_le (by omega) (by omega)
  have hnew : ((st.out ++ rawData coff s).length : ℤ) = st.inNoffFile + s.sSize.toInt := by
    rw [List.length_append, Nat.cast_add, hraw, hi.pos]
  refine ⟨?_, ?_, ⟨rfl, rfl, rawData coff s, hraw, ⟨hptr, List.take_prefix _ _⟩, ?_⟩, ?_⟩
  · show Conv.mk _ _ _ _ = Conv.mk _ _ _ _
    rw [← hnew]
    rfl
  · show (st.out ++ rawData coff s).length ≤ offMax
    rw [hi.pos] at hnew
    omega
  · refine ⟨?_, ?_⟩
    · show 0 ≤ (BitVec.ofInt 32 st.inNoffFile).toInt
      omega
    · show rawData coff s <+:
        (st.out ++ rawData coff s).drop (BitVec.ofInt 32 st.inNoffFile).toInt.toNat
      rw [haddr, Int.toNat_natCast, List.drop_left]
  · show (noffHeaderSize : ℤ) ≤ (BitVec.ofInt 32 st.inNoffFile).toInt
    omega

theorem Placed.append {out : List Byte} (h : Placed coff out seg s) (more : List Byte) :
    Placed coff (out ++ more) seg s :=
  ⟨h.1.append more, h.2⟩

/-- A round for a section that is copied leaves what has been copied before. -/
theorem Inv.rest (hi : Inv coff done st) {out : List Byte} {size : ℤ}
    (hst : st' = { st with inNoffFile := size, pos := st'.pos, out := st.out ++ out })
    (hsize : size = st'.out.length) (hmax : st'.out.length ≤ offMax) :
    Inv coff done st' := by
  have hout : st'.out = st.out ++ out := by rw [hst]
  have hhdr : st'.noffH = st.noffH := by rw [hst]
  have hfile : st'.inNoffFile = size := by rw [hst]
  refine ⟨hfile.trans hsize, ?_, hmax, ?_, ?_, ?_⟩
  · rw [hout, List.length_append]
    exact Nat.le_add_right_of_le hi.lower
  · rw [hout, hhdr]
    exact fun s hs => (hi.code s hs).append out
  · rw [hout, hhdr]
    exact hi.data.imp_right fun ⟨s, hs, hp⟩ => ⟨s, hs, hp.append out⟩
  · rw [hhdr]
    exact hi.bss

/-- One round of the loop. -/
theorem Inv.step (hi : Inv coff done st) (hs : Sound s)
    (hbss : ∀ b ∈ filled Scnhdr.isBss done, 0 < b.len)
    (h : copySection coff room st s = .ok st') : Inv coff (done ++ [s]) st' := by
  obtain ⟨htext, hdata⟩ := kinds_disjoint s
  unfold copySection at h
  split_ifs at h with h0 hisText hisData hfirst hisBss hsize
  · cases h
    have hsame : ∀ kind, filled kind (done ++ [s]) = filled kind done := fun kind => by
      rw [filled_append, if_neg fun h => h.1 h0]
    exact ⟨hi.pos, hi.lower, hi.upper, by rw [hsame]; exact hi.code, by rw [hsame]; exact hi.data,
      by rw [hsame]; exact hi.bss⟩
  · obtain ⟨⟨seg, st₁⟩, hcopy, h⟩ := bind_ok h
    cases h
    obtain ⟨hlen, hptr⟩ := (hs h0).1 (Or.inl hisText)
    obtain ⟨hst, hmax, hp⟩ := copyRaw_ok hi hlen hptr hcopy
    have hi₁ := hi.rest hst rfl hmax
    refine ⟨hi₁.pos, hi₁.lower, hi₁.upper, fun s' hs' => ?_, ?_, ?_⟩
    · rw [filled_append, if_pos ⟨h0, hisText⟩, List.getLast?_concat, Option.some.injEq] at hs'
      exact hs' ▸ hp
    · rw [filled_append, if_neg (by simp [(htext hisText).1])]
      exact hi₁.data
    · rw [filled_append, if_neg (by simp [(htext hisText).2])]
      exact hi₁.bss
  · obtain ⟨⟨seg, st₁⟩, hcopy, h⟩ := bind_ok h
    cases h
    obtain ⟨hlen, hptr⟩ := (hs h0).1 (Or.inr hisData)
    obtain ⟨hst, hmax, hp⟩ := copyRaw_ok hi hlen hptr hcopy
    have hi₁ := hi.rest hst rfl hmax
    have hnone : filled Scnhdr.isData done = [] := by
      rcases hi.data with ⟨hnil, -⟩ | ⟨d, hd, hp, -⟩
      · exact hnil
      · have hmem : d ∈ filled Scnhdr.isData done := by rw [hd]; exact List.mem_singleton_self d
        exact absurd (hp.size ▸ hfirst) fun h => h (mem_filled.mp hmem).2.1
    refine ⟨hi₁.pos, hi₁.lower, hi₁.upper, ?_, Or.inr ⟨s, ?_, hp⟩, ?_⟩
    · rw [filled_append, if_neg (by simp [hisText])]
      exact hi₁.code
    · rw [filled_append, if_pos ⟨h0, hisData⟩, hnone, List.nil_append]
    · rw [filled_append, if_neg (by simp [hdata hisData])]
      exact hi₁.bss
  all_goals
    have hcode : filled Scnhdr.isText (done ++ [s]) = filled Scnhdr.isText done := by
      rw [filled_append, if_neg (by simp [hisText])]
    have hdat : filled Scnhdr.isData (done ++ [s]) = filled Scnhdr.isData done := by
      rw [filled_append, if_neg (by simp [hisData])]
    have hnew : filled Scnhdr.isBss (done ++ [s]) = filled Scnhdr.isBss done ++ [s] := by
      rw [filled_append, if_pos ⟨h0, hisBss⟩]
  · obtain ⟨stop, -, h⟩ := bind_ok h
    split_ifs at h
    obtain ⟨size, hadd, h⟩ := bind_ok h
    cases h
    refine ⟨hi.pos, hi.lower, hi.upper, by rw [hcode]; exact hi.code, by rw [hdat]; exact hi.data,
      Or.inr ?_⟩
    rcases hi.bss with ⟨-, hz⟩ | ⟨b, rest, hb, hv, htotal⟩
    · exact absurd hz hsize
    · refine ⟨b, rest ++ [s], by rw [hnew, hb]; rfl, hv, ?_⟩
      show size.toInt = _
      rw [addInt_ok hadd, htotal]
      simp [Tiling.total, Scnhdr.len, add_assoc]
  · cases h
    refine ⟨hi.pos, hi.lower, hi.upper, by rw [hcode]; exact hi.code, by rw [hdat]; exact hi.data,
      Or.inr ?_⟩
    rcases hi.bss with ⟨hnil, -⟩ | ⟨b, rest, hb, -, htotal⟩
    · exact ⟨s, [], by rw [hnew, hnil]; rfl, rfl, by simp [Scnhdr.len]⟩
    · -- sections of positive size do not add up to 0
      have hz : st.noffH.uninitData.size = 0 := not_not.mp hsize
      rw [hb] at hbss
      have hpos := hbss b List.mem_cons_self
      have hrest := Tiling.total_nonneg fun c hc => hbss c (List.mem_cons_of_mem b hc)
      rw [hz, Tiling.total_cons, show (0 : Word).toInt = 0 from rfl] at htotal
      omega

/-- The whole loop. -/
theorem Inv.run {l : List Scnhdr} (hi : Inv coff done st) (hs : ∀ s ∈ l, Sound s)
    (hbss : ∀ b ∈ filled Scnhdr.isBss done, 0 < b.len)
    (h : l.foldlM (copySection coff room) st = .ok st') : Inv coff (done ++ l) st' := by
  induction l generalizing done st with
  | nil =>
    cases h
    rwa [List.append_nil]
  | cons s l ih =>
    obtain ⟨st₁, h₁, h₂⟩ := bind_ok h
    rw [List.append_cons]
    refine ih (hi.step (hs s List.mem_cons_self) hbss h₁)
      (fun s' hs' => hs s' (List.mem_cons_of_mem s hs')) (fun b hb => ?_) h₂
    obtain ⟨hmem, hne, hkind⟩ := mem_filled.mp hb
    rcases List.mem_append.mp hmem with hmem | hmem
    · exact hbss b (mem_filled.mpr ⟨hmem, hne, hkind⟩)
    · rw [List.mem_singleton.mp hmem] at hne hkind ⊢
      exact (hs s List.mem_cons_self hne).2 hkind

theorem inv_start (coff : List Byte) (noffH : NoffHeader) (pos : ℕ) :
    Inv coff [] { noffH := startHeader noffH, inNoffFile := noffHeaderSize, pos := pos
                  out := List.replicate noffHeaderSize 0 } := by
  refine ⟨?_, ?_, ?_, nofun, Or.inl ⟨rfl, rfl⟩, Or.inl ⟨rfl, rfl⟩⟩
  · simp
  · simp
  · rw [List.length_replicate]
    decide

end Loop

section Main

variable {coff noff : List Byte} {room : ℕ} {noffH : NoffHeader}

theorem shortAt_take {bytes : List Byte} {n k : ℕ} (h : k + 1 < n) :
    shortAt (bytes.take n) k = shortAt bytes k := by
  simp [shortAt, h, Nat.lt_of_succ_lt h]

theorem encode_length (h : NoffHeader) : h.encode.length = noffHeaderSize := rfl

/-- A file that is accepted went through the loop. -/
theorem main_ok (h : main room noffH coff = .ok noff) : ∃ pos st,
    (sections coff).foldlM (copySection coff room)
      { noffH := startHeader noffH, inNoffFile := noffHeaderSize, pos := pos
        out := List.replicate noffHeaderSize 0 } = .ok st ∧
    noff = st.noffH.encode ++ st.out.drop noffHeaderSize := by
  unfold main at h
  obtain ⟨⟨fileh, pos⟩, h₁, h⟩ := bind_ok h
  obtain ⟨hfileh, rfl, -⟩ := readBytes_ok (by decide) h₁
  dsimp only at h
  split_ifs at h with hmagic
  · cases h
  obtain ⟨⟨systemh, pos⟩, h₂, h⟩ := bind_ok h
  obtain ⟨-, rfl, -⟩ := readBytes_ok (by decide) h₂
  dsimp only at h
  split_ifs at h with homagic
  · cases h
  obtain ⟨⟨table, pos⟩, h₃, h⟩ := bind_ok h
  obtain ⟨htable, -, -⟩ := readBytes_ok (Int.natCast_nonneg _) h₃
  obtain ⟨st, h₄, h⟩ := bind_ok h
  obtain ⟨header, h₅, h⟩ := bind_ok h
  obtain ⟨rfl, -⟩ := writeBytes_ok (by decide) h₅
  have hn : shortAt fileh 2 = shortAt coff 2 := by
    rw [hfileh, List.drop_zero]
    exact shortAt_take (by decide)
  have hsections : scnhdrs (shortAt fileh 2).toNat table = sections coff := by
    rw [htable, hn]
    rfl
  refine ⟨pos, st, ?_, (Except.ok.inj h).symm⟩
  rw [← hsections]
  exact h₄

/-- What the NOFF file of an accepted COFF file holds. -/
theorem main_inv (h : main room noffH coff = .ok noff) (hs : ∀ s ∈ sections coff, Sound s) :
    ∃ st, Inv coff (sections coff) st ∧ readHeader (fun _ => 0) noff = st.noffH ∧
      ∀ seg s, Placed coff st.out seg s → Copied coff noff seg s := by
  obtain ⟨pos, st, hloop, rfl⟩ := main_ok h
  refine ⟨st, (inv_start coff noffH pos).run hs nofun hloop, readHeader_encode _ _ _, ?_⟩
  rintro seg s ⟨⟨haddr, hsize, bytes, hlen, hin, hpos, hout⟩, hlower⟩
  refine ⟨haddr, hsize, bytes, hlen, hin, hpos, ?_⟩
  have hdrop : (st.noffH.encode ++ st.out.drop noffHeaderSize).drop seg.inFileAddr.toInt.toNat =
      st.out.drop seg.inFileAddr.toInt.toNat := by
    have hle : noffHeaderSize ≤ seg.inFileAddr.toInt.toNat := by omega
    rw [List.drop_append, encode_length, List.drop_eq_nil_of_le (by rw [encode_length]; exact hle),
      List.nil_append, List.drop_drop, Nat.add_sub_cancel' hle]
  rw [hdrop]
  exact hout

theorem Mergeable.sound (hm : Mergeable coff) : ∀ s ∈ sections coff, Sound s := fun s hs h0 =>
  ⟨hm.raw s hs h0, fun hb => hm.ranges s (mem_filled.mpr ⟨hs, h0, hb⟩)⟩

theorem ImageKept.raw (hk : ImageKept coff noff) {s : Scnhdr} (hs : s ∈ sections coff)
    (h0 : s.sSize ≠ 0) (hkind : s.isText ∨ s.isData) : 0 < s.len ∧ 0 ≤ s.sScnptr.toInt := by
  obtain ⟨seg, hc⟩ : ∃ seg, Copied coff noff seg s := by
    rcases hkind with h | h
    · exact ⟨_, hk.text s (mem_filled.mpr ⟨hs, h0, h⟩)⟩
    · exact ⟨_, hk.data s (mem_filled.mpr ⟨hs, h0, h⟩)⟩
  obtain ⟨bytes, hlen, hin, -⟩ := hc.bytes
  refine ⟨?_, hin.1⟩
  have hne : s.sSize.toInt ≠ 0 := fun h => h0 (BitVec.eq_of_toInt_eq (by rw [h]; rfl))
  unfold Scnhdr.len
  omega

/-- The segment that two sections have been copied to is the same. -/
theorem Copied.agree {seg : Segment} {s s' : Scnhdr} (h : Copied coff noff seg s)
    (h' : Copied coff noff seg s') :
    s.sPaddr = s'.sPaddr ∧ s.sSize = s'.sSize ∧ rawData coff s = rawData coff s' := by
  have hsize : s.sSize = s'.sSize := h.size.symm.trans h'.size
  obtain ⟨b, hb, hin, hout⟩ := h.bytes
  obtain ⟨b', hb', hin', hout'⟩ := h'.bytes
  refine ⟨h.virtualAddr.symm.trans h'.virtualAddr, hsize, ?_⟩
  rw [rawData_eq hb hin, rawData_eq hb' hin', List.prefix_iff_eq_take.mp hout.2,
    List.prefix_iff_eq_take.mp hout'.2, show b.length = b'.length by rw [hsize] at hb; omega]

/-- The same the other way round. -/
theorem Copied.of_agree {seg : Segment} {s s' : Scnhdr} (h : Copied coff noff seg s)
    (heq : s.sPaddr = s'.sPaddr ∧ s.sSize = s'.sSize ∧ rawData coff s = rawData coff s')
    (hptr : 0 ≤ s'.sScnptr.toInt) : Copied coff noff seg s' := by
  obtain ⟨hpaddr, hsize, hraw⟩ := heq
  obtain ⟨b, hb, hin, hout⟩ := h.bytes
  rw [rawData_eq hb hin] at hraw
  refine ⟨h.virtualAddr.trans hpaddr, h.size.trans hsize, b, by rw [hb, hsize], ⟨hptr, ?_⟩, hout⟩
  rw [hraw]
  exact List.take_prefix _ _

theorem ImageKept.mergeable (hk : ImageKept coff noff) (h : main room noffH coff = .ok noff) :
    Mergeable coff := by
  have hs : ∀ s ∈ sections coff, Sound s := fun s hs h0 =>
    ⟨hk.raw hs h0, fun hb => hk.ranges s (mem_filled.mpr ⟨hs, h0, hb⟩)⟩
  obtain ⟨st, hi, hheader, -⟩ := main_inv h hs
  refine ⟨fun s hs h0 => hk.raw hs h0, fun s hs s' hs' => (hk.text s hs).agree (hk.text s' hs'),
    hk.ranges, fun b rest hb => ?_⟩
  have hrange := hk.ranges
  have huninit := hk.uninit
  rw [hheader] at huninit
  rw [hb] at hrange huninit
  rcases hi.bss with ⟨hnil, -⟩ | ⟨b', rest', hb', haddr, htotal⟩
  · rw [hb] at hnil
    cases hnil
  · rw [hb, List.cons.injEq] at hb'
    obtain ⟨rfl, rfl⟩ := hb'
    refine Tiling.exists_tiles (fun s hs => hrange s (List.mem_cons_of_mem b hs)) fun x => ?_
    refine Tiling.covers_rest hrange (fun y => ?_) x
    rw [huninit, haddr, htotal]
    rfl

theorem Mergeable.imageKept (hm : Mergeable coff) (h : main room noffH coff = .ok noff) :
    ImageKept coff noff := by
  obtain ⟨st, hi, hheader, hcopied⟩ := main_inv h hm.sound
  refine ⟨fun s hs => ?_, fun s hs => ?_, hm.ranges, fun x => ?_⟩
  · rw [hheader]
    obtain ⟨last, hlast⟩ : ∃ last, (filled Scnhdr.isText (sections coff)).getLast? = some last :=
      ⟨_, List.getLast?_eq_some_getLast (List.ne_nil_of_mem hs)⟩
    obtain ⟨hmem, h0, htext⟩ := mem_filled.mp hs
    exact (hcopied _ _ (hi.code last hlast)).of_agree
      (hm.text last (List.mem_of_getLast? hlast) s hs) (hm.raw s hmem h0 (Or.inl htext)).2
  · rw [hheader]
    rcases hi.data with ⟨hnil, -⟩ | ⟨d, hd, hp⟩
    · rw [hnil] at hs
      cases hs
    · rw [hd, List.mem_singleton] at hs
      exact hs ▸ hcopied _ _ hp
  · rw [hheader]
    rcases hi.bss with ⟨hnil, hsize⟩ | ⟨b, rest, hb, haddr, htotal⟩
    · rw [hnil, hsize, show (0 : Word).toInt = 0 from rfl]
      simp [Tiling.Covers]
    · obtain ⟨l, hl, htiles⟩ := hm.contiguous b rest hb
      have hrange := hm.ranges
      have hperm : (b :: l).Perm (b :: rest) := hl.cons b
      rw [hb] at hrange ⊢
      rw [← Tiling.covers_perm hperm, haddr, htotal, ← Tiling.total_perm hperm]
      exact Tiling.Tiles.covers_iff (e := b.start) (fun s hs => hrange s (hperm.mem_iff.mp hs))
        ⟨rfl, htiles⟩ x

/-- **The converter keeps the memory image** of exactly the accepted files that are `Mergeable`. -/
theorem image_kept_iff (h : main room noffH coff = .ok noff) :
    ImageKept coff noff ↔ Mergeable coff :=
  ⟨fun hk => hk.mergeable h, fun hm => hm.imageKept h⟩

end Main

/-- A COFF file without symbols. -/
def coffFile (secs : List Scnhdr) (raw : List Byte) : List Byte :=
  [0x62#8, 0x01#8, BitVec.ofNat 8 secs.length, 0] ++ List.replicate 16 0 ++
    [0x07#8, 0x01#8] ++ List.replicate 54 0 ++
    secs.flatMap (fun s => s.sName ++ wordBytes s.sPaddr ++ wordBytes s.sPaddr ++
      wordBytes s.sSize ++ wordBytes s.sScnptr ++ List.replicate 16 0) ++ raw

/-- A section name, filled up to 8 bytes. -/
def sectionName (name : List Char) : List Byte :=
  (name.map fun c => BitVec.ofNat 8 c.toNat) ++ List.replicate (8 - name.length) 0

def textAt (paddr size scnptr : Word) : Scnhdr :=
  ⟨sectionName ['.', 't', 'e', 'x', 't'], paddr, size, scnptr⟩

def bssAt (paddr size : Word) : Scnhdr := ⟨sectionName ['.', 'b', 's', 's'], paddr, size, 0⟩

def sbssAt (paddr size : Word) : Scnhdr := ⟨sectionName ['.', 's', 'b', 's', 's'], paddr, size, 0⟩

/-- An uninitialised header. -/
def noHeader : NoffHeader := ⟨0, ⟨0, 0, 0⟩, ⟨0, 0, 0⟩, ⟨0, 0, 0⟩⟩

/-- `.bss` at 64 and `.sbss` at 128, with a gap between them. -/
def gapFile : List Byte := coffFile [bssAt 64 4, sbssAt 128 4] []

/-- Two `.text` sections, at 0 and at 16. -/
def twoTextFile : List Byte := coffFile [textAt 0 2 156, textAt 16 2 158] [1, 2, 3, 4]

theorem ok_of_any {α : Type} {x : Except Failure α} {p : α → Bool}
    (h : x.toOption.any p = true) : ∃ a, x = .ok a ∧ p a = true := by
  cases x with
  | error e => cases h
  | ok a => exact ⟨a, rfl, h⟩

/-- Both files are accepted. The first one's `.sbss` is not in the uninitialised range, the second
one's first `.text` is not in the code segment. -/
theorem image_lost :
    (∃ noff, main offMax noHeader gapFile = .ok noff ∧ ¬ ImageKept gapFile noff) ∧
      ∃ noff, main offMax noHeader twoTextFile = .ok noff ∧ ¬ ImageKept twoTextFile noff := by
  constructor
  · have h : (main offMax noHeader gapFile).toOption.any fun noff =>
        decide ((readHeader (fun _ => 0) noff).uninitData = ⟨64, 0, 8⟩) := by decide +kernel
    obtain ⟨noff, hmain, h⟩ := ok_of_any h
    refine ⟨noff, hmain, fun hk => ?_⟩
    have hsbss : sbssAt 128 4 ∈ filled Scnhdr.isBss (sections gapFile) := by decide +kernel
    have hin := ((hk.uninit 128).mp ⟨_, hsbss, by decide, by decide⟩).2
    rw [of_decide_eq_true h] at hin
    exact absurd hin (by decide)
  · have h : (main offMax noHeader twoTextFile).toOption.any fun noff =>
        decide ((readHeader (fun _ => 0) noff).code = ⟨16, 42, 2⟩) := by decide +kernel
    obtain ⟨noff, hmain, h⟩ := ok_of_any h
    refine ⟨noff, hmain, fun hk => ?_⟩
    have htext : textAt 0 2 156 ∈ filled Scnhdr.isText (sections twoTextFile) := by decide +kernel
    have haddr := (hk.text _ htext).virtualAddr
    rw [of_decide_eq_true h] at haddr
    exact absurd haddr (by decide)

/-- One section of each kind, in an unusual order. -/
def plainFile : List Byte :=
  coffFile [bssAt 64 8, ⟨sectionName ['.', 'd', 'a', 't', 'a'], 32, 3, 198⟩, textAt 0 2 196]
    [1, 2, 3, 4, 5]

theorem image_kept_plain :
    ∃ noff, main offMax noHeader plainFile = .ok noff ∧ ImageKept plainFile noff := by
  have h : (main offMax noHeader plainFile).toOption.any fun _ => true := by decide +kernel
  obtain ⟨noff, hmain, -⟩ := ok_of_any h
  have hbss : filled Scnhdr.isBss (sections plainFile) = [bssAt 64 8] := by decide +kernel
  refine ⟨noff, hmain, (image_kept_iff hmain).mpr ⟨?_, ?_, ?_, ?_⟩⟩
  · decide +kernel
  · decide +kernel
  · decide +kernel
  · rw [hbss]
    intro b rest hb
    cases hb
    exact ⟨[], .nil, trivial⟩

end Coff2noff

end Nachos
