import Nachos.Userprog.ExecUpdate
import Nachos.Userprog.StringCopy

/-!
# The bytes of a `PCB`

`SetFileName` copies the name with `strcpy` into the array `filename`, which has `filenameSize`
bytes; the member behind it is `thread`, which `PCB::Exec` sets afterwards. `SC_Exec` takes names of
up to `MaxFileLength` characters, and one of that length has its zero in `thread`.
-/

namespace Nachos

open Prog

/-- The data members of `PCB`, as they are declared. -/
inductive PcbField where
  | joinsem
  | exitsem
  | multex
  | exitcode
  | numwait
  | filename
  | thread
  | parentID
  deriving DecidableEq, Repr

namespace PcbField

/-- The bytes of a member on a host where pointers have `ptr` bytes. -/
def size (ptr : ℕ) : PcbField → ℕ
  | .joinsem | .exitsem | .multex | .thread => ptr
  | .exitcode | .numwait | .parentID => 4
  | .filename => filenameSize

/-- Where a member starts; for `ptr` 4 and for 8 nothing is between two of them. -/
def offset (ptr : ℕ) : PcbField → ℕ
  | .joinsem => 0
  | .exitsem => ptr
  | .multex => 2 * ptr
  | .exitcode => 3 * ptr
  | .numwait => 3 * ptr + 4
  | .filename => 3 * ptr + 8
  | .thread => 3 * ptr + 8 + filenameSize
  | .parentID => 4 * ptr + 8 + filenameSize

/-- Two members do not overlap. -/
theorem apart (ptr : ℕ) {f g : PcbField} (h : f ≠ g) :
    f.offset ptr + f.size ptr ≤ g.offset ptr ∨ g.offset ptr + g.size ptr ≤ f.offset ptr := by
  cases f <;> cases g <;> simp only [offset, size, ne_eq, not_true_eq_false] at h ⊢ <;> omega

theorem offset_thread (ptr : ℕ) :
    PcbField.thread.offset ptr = PcbField.filename.offset ptr + filenameSize := rfl

end PcbField

/-! ## The memory of the kernel -/

/-- `bytes` are put at `a`. -/
def storeAt (m : Memory) (a : ℤ) (bytes : List Byte) : Memory := fun q =>
  if a ≤ q then bytes[(q - a).toNat]?.getD (m q) else m q

/-- The string at `a` is `s`. -/
structure IsString (m : Memory) (a : ℤ) (s : Name) : Prop where
  text : ∀ (j : ℕ) c, s[j]? = some c → m (a + j) = c
  zero : m (a + s.length) = 0
  noZero : 0 ∉ s

/-- A value of `n` bytes as the host stores it, the lowest byte first. -/
def hostBytes {n : ℕ} (v : BitVec (8 * n)) : List Byte :=
  List.ofFn fun i : Fin n => v.extractLsb' (8 * i) 8

section Memory

variable {m : Memory} {a q : ℤ} {bytes : List Byte}

theorem storeAt_inside {j : ℕ} {c : Byte} (h : bytes[j]? = some c) :
    storeAt m a bytes (a + j) = c := by
  unfold storeAt
  rw [if_pos (by omega), show (a + j - a).toNat = j by omega, h, Option.getD_some]

theorem storeAt_outside (h : q < a ∨ a + bytes.length ≤ q) : storeAt m a bytes q = m q := by
  unfold storeAt
  split_ifs with hle
  · rw [List.getElem?_eq_none (by omega), Option.getD_none]
  · rfl

theorem length_hostBytes {n : ℕ} (v : BitVec (8 * n)) : (hostBytes v).length = n :=
  List.length_ofFn

/-- `strcpy` leaves its string. -/
theorem isString_storeAt {s : Name} (h : 0 ∉ s) : IsString (storeAt m a (s ++ [0])) a s where
  text j c hj := storeAt_inside (by
    rw [List.getElem?_append_left (List.getElem?_eq_some_iff.mp hj).1]
    exact hj)
  zero := storeAt_inside List.getElem?_concat_length
  noZero := h

/-- A store that is not in the string does not change it. -/
theorem IsString.storeAt {s : Name} (h : IsString m a s)
    (hq : q + bytes.length ≤ a ∨ a + s.length < q) : IsString (storeAt m q bytes) a s where
  text j c hj := by
    have hlt := (List.getElem?_eq_some_iff.mp hj).1
    rw [storeAt_outside (by omega)]
    exact h.text j c hj
  zero := by
    rw [storeAt_outside (by omega)]
    exact h.zero
  noZero := h.noZero

end Memory

/-! ## A new process -/

/-- What goes into a new `PCB` at the address `this`: pointers from `new`, and the identifier of the
process that calls `ExecUpdate`. -/
structure PcbCreation (ptr : ℕ) where
  memory : Memory
  this : ℤ
  joinsem : BitVec (8 * ptr)
  exitsem : BitVec (8 * ptr)
  multex : BitVec (8 * ptr)
  thread : BitVec (8 * ptr)
  processID : BitVec (8 * 4)

namespace PcbCreation

variable {ptr : ℕ}

/-- The assignment of a value to a member. -/
def assign (c : PcbCreation ptr) (m : Memory) (f : PcbField) {n : ℕ} (v : BitVec (8 * n)) :
    Memory :=
  storeAt m (c.this + f.offset ptr) (hostBytes v)

/-- `PCB::PCB(id)`, for an `id` that is not 0. -/
def construct (c : PcbCreation ptr) : Memory :=
  let m := c.assign c.memory .parentID c.processID
  let m := c.assign m .joinsem c.joinsem
  let m := c.assign m .exitsem c.exitsem
  let m := c.assign m .multex c.multex
  let m := c.assign m .thread (0 : BitVec (8 * ptr))
  let m := c.assign m .numwait (0 : BitVec (8 * 4))
  c.assign m .exitcode (0 : BitVec (8 * 4))

/-- `SetFileName`, which is `strcpy(this->filename, name)`. -/
def setFileName (c : PcbCreation ptr) (m : Memory) (name : Name) : Memory :=
  storeAt m (c.this + PcbField.filename.offset ptr) (name ++ [0])

/-- `PCB::Exec` from `new Thread` to `Fork`. -/
def exec (c : PcbCreation ptr) (m : Memory) : Memory :=
  let m := c.assign m .thread c.thread
  c.assign m .parentID c.processID

/-- `ExecUpdate` from `new PCB` to the end of `PCB::Exec`. -/
def execUpdate (c : PcbCreation ptr) (name : Name) : Memory :=
  let m := c.setFileName c.construct name
  c.exec (c.assign m .parentID c.processID)

/-- `GetFileName` yields this string. -/
def FileNameIs (c : PcbCreation ptr) (m : Memory) (name : Name) : Prop :=
  IsString m (c.this + PcbField.filename.offset ptr) name

/-- The name is in its member with its zero, the copy changes no other member, and the new thread
finds the name. -/
structure Survives (c : PcbCreation ptr) (name : Name) : Prop where
  fits : (name ++ [0]).length ≤ PcbField.filename.size ptr
  others : ∀ f : PcbField, f ≠ .filename → ∀ i : ℕ, i < f.size ptr →
    c.setFileName c.construct name (c.this + f.offset ptr + i) =
      c.construct (c.this + f.offset ptr + i)
  read : c.FileNameIs (c.execUpdate name) name

variable {c : PcbCreation ptr} {name : Name}

/-- Nothing that is assigned behind the string or before it changes the string. -/
theorem FileNameIs.assign {m : Memory} (h : c.FileNameIs m name)
    (hlen : name.length < filenameSize) {f : PcbField} {n : ℕ} (hn : n = f.size ptr)
    (hf : f ≠ .filename) (v : BitVec (8 * n)) : c.FileNameIs (c.assign m f v) name := by
  refine IsString.storeAt h ?_
  have hsize : PcbField.filename.size ptr = filenameSize := rfl
  rw [length_hostBytes, hn]
  rcases PcbField.apart ptr hf with hbefore | hbehind <;> omega

theorem survives (hzero : 0 ∉ name) (hlen : name.length < filenameSize) : c.Survives name where
  fits := by
    rw [List.length_append]
    exact hlen
  others f hf i hi := by
    have hsize : PcbField.filename.size ptr = filenameSize := rfl
    have hbytes : (name ++ [0]).length = name.length + 1 := List.length_append
    refine storeAt_outside ?_
    rcases PcbField.apart ptr hf with hbefore | hbehind <;> omega
  read := by
    have hcopied : c.FileNameIs (c.setFileName c.construct name) name := isString_storeAt hzero
    have hparent := hcopied.assign hlen (f := .parentID) rfl nofun c.processID
    have hthread := hparent.assign hlen (f := .thread) rfl nofun c.thread
    exact hthread.assign hlen (f := .parentID) rfl nofun c.processID

theorem Survives.length (h : c.Survives name) : name.length < filenameSize := by
  have hfits := h.fits
  rwa [List.length_append] at hfits

/-- The table of `PTable` gives a thread the name that its `PCB` has. -/
theorem survives_iff_getFileName {s : Procs} {a : ℕ} (hzero : 0 ∉ (s.heap a).filename) :
    c.Survives (s.heap a).filename ↔ s.getFileName a = some (s.heap a).filename := by
  unfold Procs.getFileName
  constructor
  · intro h
    exact if_pos h.length
  · intro h
    refine survives hzero (by_contra fun hlong => ?_)
    rw [if_neg hlong] at h
    cases h

/-- The rest of `ExecUpdate` does not write to `filename`. -/
theorem execUpdate_filename (c : PcbCreation ptr) (name : Name) {j : ℕ} (hj : j < filenameSize) :
    c.execUpdate name (c.this + PcbField.filename.offset ptr + j) =
      c.setFileName c.construct name (c.this + PcbField.filename.offset ptr + j) := by
  have hthread := PcbField.offset_thread ptr
  have hparent : PcbField.thread.offset ptr ≤ PcbField.parentID.offset ptr := by
    simp only [PcbField.offset]
    omega
  refine (storeAt_outside (by omega)).trans ?_
  refine (storeAt_outside (by omega)).trans ?_
  exact storeAt_outside (by omega)

/-- A name that fills the array is read back only when the lowest byte of the pointer behind it is
zero by chance. -/
theorem read_iff_of_full (hzero : 0 ∉ name) (hlen : name.length = filenameSize) (hptr : 0 < ptr) :
    c.FileNameIs (c.execUpdate name) name ↔ c.thread.extractLsb' 0 8 = 0 := by
  have hbehind : c.execUpdate name (c.this + PcbField.filename.offset ptr + name.length) =
      c.thread.extractLsb' 0 8 := by
    have hplace : c.this + PcbField.filename.offset ptr + name.length =
        c.this + PcbField.thread.offset ptr + (0 : ℕ) := by
      rw [hlen, PcbField.offset_thread]
      omega
    have hoff : PcbField.thread.offset ptr + ptr = PcbField.parentID.offset ptr := by
      simp only [PcbField.offset]
      omega
    have hbyte : (hostBytes c.thread)[0]? = some (c.thread.extractLsb' 0 8) := by
      rw [hostBytes, List.getElem?_ofFn, dif_pos hptr]
      rfl
    rw [hplace]
    refine (storeAt_outside (by omega)).trans ?_
    exact storeAt_inside hbyte
  constructor
  · intro h
    exact hbehind.symm.trans h.zero
  · intro h
    refine ⟨fun j d hj => ?_, hbehind.trans h, hzero⟩
    have hlt : j < filenameSize := hlen ▸ (List.getElem?_eq_some_iff.mp hj).1
    rw [execUpdate_filename c name hlt]
    exact (isString_storeAt hzero).text j d hj

end PcbCreation

/-! ## The names that `SC_Exec` takes -/

/-- `SC_Exec` calls `ExecUpdate` with the name of a file, of 1 to `MaxFileLength` characters. -/
theorem scExec_execUpdate {k k' : Kernel} {name : Name} {resume : ℤ → Kernel → _}
    (h : scExec.run k = .wait (.execUpdate name) k' resume) :
    0 ∉ name ∧ 0 < name.length ∧ name.length ≤ maxFileLength ∧
      ∃ r, k.fileSystem.openFile name 0 = some r := by
  unfold scExec at h
  simp only [run_bind, readRegister, run_look, Res.bind_done] at h
  rcases user2System_cases (k.registers 4) (maxFileLength + 1) k with ⟨d, hs⟩ | ⟨buffer, pt, hs⟩
  · rw [hs] at h
    cases h
  rw [hs, Res.bind_done, run_ite] at h
  split_ifs at h with hlen
  · cases h
  simp only [run_bind, run_look, Res.bind_done] at h
  rcases ho : k.fileSystem.openFile (cstring buffer) 0 with _ | ⟨f, fs⟩
  · rw [ho] at h
    cases h
  rw [ho] at h
  obtain rfl : cstring buffer = name := by
    cases h
    rfl
  rw [not_or, strlen] at hlen
  exact ⟨fun h0 => cstring_ne_zero h0 rfl, Nat.pos_of_ne_zero hlen.1, not_lt.mp hlen.2, _, ho⟩

/-- A name that `SC_Exec` takes survives in the `PCB` unless it has `MaxFileLength` characters. -/
theorem survives_iff {k k' : Kernel} {name : Name} {resume : ℤ → Kernel → _}
    (h : scExec.run k = .wait (.execUpdate name) k' resume) {ptr : ℕ} (c : PcbCreation ptr) :
    c.Survives name ↔ name.length < filenameSize :=
  ⟨PcbCreation.Survives.length, PcbCreation.survives (scExec_execUpdate h).1⟩

theorem cstring_append_zeros {text : List Byte} (h : 0 ∉ text) (n : ℕ) :
    cstring (text ++ List.replicate n 0) = text := by
  have hne : ∀ c ∈ text, decide (c ≠ 0) = true := fun c hc => decide_eq_true fun h0 => h (h0 ▸ hc)
  unfold cstring
  rw [List.takeWhile_append_of_pos hne, List.takeWhile_replicate, if_neg (by decide),
    List.append_nil]

/-- A process with `name` at the address 0, in a file system with one file, which has this name. -/
def launcher (name : Name) : Kernel :=
  { writer (name ++ List.replicate (maxFileLength + 1 - name.length) 0) with
    fileSystem :=
      { openState := fun _ => none
        host := { Host.empty with names := fun n => if n = name then some 0 else none } } }

theorem launcher_execUpdate {name : Name} (hzero : 0 ∉ name) (hpos : 0 < name.length)
    (hlen : name.length ≤ maxFileLength) :
    ∃ k' resume, scExec.run (launcher name) = .wait (.execUpdate name) k' resume := by
  have hsize : (name ++ List.replicate (maxFileLength + 1 - name.length) (0 : Byte)).length =
      maxFileLength + 1 := by
    rw [List.length_append, List.length_replicate]
    omega
  have hbytes : (launcher name).HasBytes 0
      (name ++ List.replicate (maxFileLength + 1 - name.length) 0) := by
    apply writer_hasBytes
    rw [hsize]
    decide
  have hs : IsSpace (launcher name).pageTable := writer_isSpace []
  obtain ⟨k', hrun, hstored⟩ := user2System_copies hs hbytes
  obtain ⟨m, pt, -, rfl⟩ := hstored.rest
  rw [hsize, cstring_append_zeros hzero] at hrun
  have hname := cstring_append_zeros hzero (maxFileLength + 1 + 1 - name.length)
  have haccept : ¬ (name.length = 0 ∨ maxFileLength < name.length) := by omega
  have hopen : (launcher name).fileSystem.host.names name = some 0 := if_pos rfl
  unfold scExec
  simp only [run_bind, readRegister, run_look, Res.bind_done]
  have h4 : (launcher name).registers 4 = 0 := rfl
  rw [h4, hrun, Res.bind_done, strlen, hname, if_neg haccept]
  simp only [run_bind, run_look, Res.bind_done, FileSystem.openFile, Host.openForReadWrite, hopen]
  exact ⟨_, _, rfl⟩

/-- A `PCB` with the semaphores and the thread at multiples of 16, for pointers of 4 bytes. -/
def PcbCreation.sample : PcbCreation 4 where
  memory := fun _ => 0
  this := 0x1000
  joinsem := 0x2000#32
  exitsem := 0x2010#32
  multex := 0x2020#32
  thread := 0x2030#32
  processID := 0

/-- A name of one character. -/
theorem survives_a : PcbCreation.sample.Survives [0x61] := by
  obtain ⟨k', resume, hrun⟩ := @launcher_execUpdate [0x61] (by decide) (by decide) (by decide)
  exact (survives_iff hrun PcbCreation.sample).mpr (by decide)

def fullName : Name := List.replicate maxFileLength 0x61#8

/-- `SC_Exec` takes a name of 32 characters, and the new thread does not find it. -/
theorem full_name_lost : ∃ (k k' : Kernel) (name : Name) (resume : ℤ → Kernel → _)
    (c : PcbCreation 4), scExec.run k = .wait (.execUpdate name) k' resume ∧
      name.length = maxFileLength ∧ ¬ c.FileNameIs (c.execUpdate name) name ∧
      ¬ c.Survives name := by
  have hzero : (0 : Byte) ∉ fullName := by decide
  obtain ⟨k', resume, hrun⟩ := @launcher_execUpdate fullName hzero (by decide) (by decide)
  have hread : ¬ PcbCreation.sample.FileNameIs
      (PcbCreation.sample.execUpdate fullName) fullName := by
    rw [PcbCreation.read_iff_of_full hzero List.length_replicate (by decide)]
    decide
  exact ⟨_, _, fullName, _, PcbCreation.sample, hrun, List.length_replicate, hread,
    fun h => hread h.read⟩

end Nachos
