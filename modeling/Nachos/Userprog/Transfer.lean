import Nachos.Userprog.Files
import Nachos.Userprog.UserMemory

/-!
# Transfers between user memory and ordinary files

The effect of `SC_Write`, `SC_Read` and `SC_Seek` on an open file that is not a console, with the
bytes that arrive. Both copy loops stop at a zero byte, so what arrives depends on the bytes.
-/

namespace Nachos

open Prog

/-! ## The file system -/

/-- The host with other contents of one file. -/
def Host.setContents (h : Host) (inode : ℕ) (bytes : List Byte) : Host :=
  { h with contents := Function.update h.contents inode bytes }

namespace FileSystem

/-- `openState[id]` is the file `f`, whose descriptor `d` is now at `pos`. -/
def moveTo (fs : FileSystem) (id : ℕ) (f : OpenFile) (d : Descriptor) (pos : ℕ) : FileSystem :=
  (fs.setHost (fs.host.setFd f.file (some { d with offset := pos }))).setSlot id
    (some { f with currentOffset := pos })

def setContents (fs : FileSystem) (inode : ℕ) (bytes : List Byte) : FileSystem :=
  fs.setHost (fs.host.setContents inode bytes)

/-- What is left of a file from the position of a descriptor on. -/
def rest (fs : FileSystem) (d : Descriptor) : List Byte := (fs.host.contents d.inode).drop d.offset

@[simp] theorem moveTo_contents (fs : FileSystem) (id : ℕ) (f : OpenFile) (d : Descriptor)
    (pos : ℕ) : (fs.moveTo id f d pos).host.contents = fs.host.contents := rfl

@[simp] theorem setContents_self (fs : FileSystem) (inode : ℕ) (bytes : List Byte) :
    (fs.setContents inode bytes).host.contents inode = bytes := Function.update_self _ _ _

@[simp] theorem moveTo_slot (fs : FileSystem) (id : ℕ) (f : OpenFile) (d : Descriptor) (pos : ℕ) :
    (fs.moveTo id f d pos).openState id = some { f with currentOffset := pos } :=
  Function.update_self _ _ _

@[simp] theorem moveTo_descriptor (fs : FileSystem) (id : ℕ) (f : OpenFile) (d : Descriptor)
    (pos : ℕ) : (fs.moveTo id f d pos).host.fds f.file = some { d with offset := pos } :=
  Function.update_self _ _ _

/-- Only the last move counts; the fields that a move changes may have any values before. -/
theorem moveTo_moveTo (fs : FileSystem) (id : ℕ) (f : OpenFile) (d : Descriptor) (pos pos' : ℕ)
    (o : ℤ) (o' : ℕ) : (fs.moveTo id f d pos).moveTo id { f with currentOffset := o }
      { d with offset := o' } pos' = fs.moveTo id f d pos' := by
  simp [moveTo, setHost, setSlot, Host.setFd]

theorem setContents_moveTo (fs : FileSystem) (id : ℕ) (f : OpenFile) (d : Descriptor) (pos : ℕ)
    (inode : ℕ) (bytes : List Byte) : (fs.moveTo id f d pos).setContents inode bytes =
      (fs.setContents inode bytes).moveTo id f d pos := rfl

end FileSystem

/-- The id in register `num` is that of an ordinary open file. -/
structure Kernel.Ordinary (k : Kernel) (num : ℕ) (f : OpenFile) (d : Descriptor) : Prop where
  arg : k.fileArg num = some f
  slot : 2 ≤ (k.registers num).toInt
  notStdin : f.type ≠ 2
  notStdout : f.type ≠ 3
  descriptor : k.fileSystem.host.fds f.file = some d

/-- The id in a register. -/
def Kernel.id (k : Kernel) (num : ℕ) : ℕ := (k.registers num).toInt.toNat

section Methods

variable {f : OpenFile} {d : Descriptor} {h : Host}

theorem Host.lseek_offset {fd : ℕ} (hd : h.fds fd = some d) : h.lseek fd d.offset = some h := by
  rw [Host.lseek_natCast hd, ← hd, Host.setFd, Function.update_eq_self]

theorem OpenFile.write_eq (hd : h.fds f.file = some d) (ho : f.currentOffset = d.offset)
    (bytes : List Byte) : f.write h bytes = some ((bytes.length : ℤ),
      { f with currentOffset := (d.offset + bytes.length : ℕ) },
      (h.setContents d.inode (Host.overwrite (h.contents d.inode) d.offset bytes)).setFd f.file
        (some { d with offset := d.offset + bytes.length })) := by
  simp only [OpenFile.write, OpenFile.writeAt, ho, Host.lseek_offset hd, Option.bind_eq_bind,
    Option.bind_some, Host.writeFile, hd, Option.pure_def, Nat.cast_add]
  rfl

theorem OpenFile.read_eq (hd : h.fds f.file = some d) (ho : f.currentOffset = d.offset) {n : ℕ}
    {bytes : List Byte} (hb : ((h.contents d.inode).drop d.offset).take n = bytes) :
    f.read h n = some (bytes, { f with currentOffset := (d.offset + bytes.length : ℕ) },
      h.setFd f.file (some { d with offset := d.offset + bytes.length })) := by
  simp only [OpenFile.read, OpenFile.readAt, ho, Host.lseek_offset hd, Option.bind_eq_bind,
    Option.bind_some, Host.readPartial, hd, hb, Option.pure_def, Nat.cast_add]

theorem OpenFile.seek_eq (hd : h.fds f.file = some d) (pos : ℕ) :
    f.seek h pos = some ({ f with currentOffset := pos },
      h.setFd f.file (some { d with offset := pos })) := by
  simp only [OpenFile.seek, Host.lseek_natCast hd, Option.bind_eq_bind, Option.bind_some, Option.pure_def,
    Host.tell_of_some (Host.setFd_self _)]

end Methods

/-! ## The handlers -/

section Handlers

variable {k : Kernel} {f : OpenFile} {d : Descriptor}

/-- `GetCurrentPos` puts the position of the descriptor into the file. -/
theorem getCurrentPos_ordinary {id : ℕ} (hf : k.fileSystem.openState id = some f)
    (hd : k.fileSystem.host.fds f.file = some d) : (getCurrentPos id).run k =
      .done (d.offset : ℤ) { k with fileSystem := k.fileSystem.moveTo id f d d.offset } := by
  rw [getCurrentPos_run hf, Host.tell_of_some hd]
  have hh : k.fileSystem.host.setFd f.file (some d) = k.fileSystem.host := by
    rw [← hd, Host.setFd, Function.update_eq_self]
  show _ = Res.done _ { k with fileSystem := ((k.fileSystem.setHost
    (k.fileSystem.host.setFd f.file (some d))).setSlot id (some { f with currentOffset := d.offset })) }
  rw [hh]
  rfl

theorem onFile_write {id : ℕ} (hf : k.fileSystem.openState id = some f)
    (hd : k.fileSystem.host.fds f.file = some d) (ho : f.currentOffset = d.offset)
    (bytes : List Byte) : (onFile id fun f h => f.write h bytes).run k =
      .done (bytes.length : ℤ) { k with
        fileSystem := (k.fileSystem.setContents d.inode (Host.overwrite
          (k.fileSystem.host.contents d.inode) d.offset bytes)).moveTo id f d
            (d.offset + bytes.length) } :=
  onFile_run hf (OpenFile.write_eq hd ho bytes)

theorem onFile_read {id n : ℕ} (hf : k.fileSystem.openState id = some f)
    (hd : k.fileSystem.host.fds f.file = some d) (ho : f.currentOffset = d.offset)
    {bytes : List Byte} (hb : (k.fileSystem.rest d).take n = bytes) :
    (onFile id fun f h => f.read h n).run k = .done bytes { k with
      fileSystem := k.fileSystem.moveTo id f d (d.offset + bytes.length) } :=
  onFile_run hf (OpenFile.read_eq hd ho hb)

/-- `SC_Write` of `bytes`: the file gets them up to the first zero, then zeros. -/
theorem scWrite_run (hs : IsSpace k.pageTable) (ho : k.Ordinary 6 f d) {bytes : List Byte}
    (hn : (k.registers 5).toInt = bytes.length) (hb : k.HasBytes (k.registers 4) bytes)
    (h0 : bytes ≠ []) :
    ∃ pt, SameMap k.pageTable pt ∧ scWrite.run k = .done .brk { k with
      pageTable := pt
      registers := k.registers.write 2 (BitVec.ofNat 32 bytes.length)
      fileSystem := (k.fileSystem.setContents d.inode (Host.overwrite
        (k.fileSystem.host.contents d.inode) d.offset (zeroFilled bytes))).moveTo (k.id 6) f d
          (d.offset + bytes.length) } := by
  obtain ⟨hr, hf⟩ := fileArg_eq_some ho.arg
  have hpos := List.length_pos_iff.mpr h0
  have hlen : bytes.length ≤ 65536 := by
    have := (k.registers 5).toInt_lt
    exact length_le_memorySize hs (by omega) hb.accessible
  unfold Kernel.id
  generalize hid : (k.registers 6).toInt.toNat = id at hf
  obtain ⟨pt, hpt, hu⟩ := user2System_run (k := { k with
    fileSystem := k.fileSystem.moveTo id f d d.offset }) hb (by omega)
  refine ⟨pt, hpt, ?_⟩
  have htake : (zeroFilled bytes ++ [0]).take bytes.length = zeroFilled bytes :=
    List.take_left' (length_zeroFilled bytes)
  unfold scWrite
  simp only [run_bind, readRegister, run_look, Res.bind_done]
  rw [checkTransfer_run (by omega) hr (hid ▸ hf) ho.notStdin]
  rw [run_bind, hid, getCurrentPos_ordinary hf ho.descriptor, Res.bind_done, hn, Int.toNat_natCast,
    run_bind, hu, Res.bind_done, if_neg ho.notStdout, run_bind, htake]
  rw [onFile_write (FileSystem.moveTo_slot ..) (FileSystem.moveTo_descriptor ..) rfl, Res.bind_done,
    length_zeroFilled, if_pos (by omega), run_bind]
  rw [getCurrentPos_ordinary (FileSystem.moveTo_slot ..) (FileSystem.moveTo_descriptor ..),
    Res.bind_done]
  have hv : BitVec.ofInt 32 (((d.offset + bytes.length : ℕ) : ℤ) - d.offset) =
      BitVec.ofNat 32 bytes.length := by
    rw [Nat.cast_add, add_sub_cancel_left, BitVec.ofInt_natCast]
  simp only [run_bind, writeRegister, run_change, Res.bind_done, run_pure, hv,
    FileSystem.setContents_moveTo, FileSystem.moveTo_moveTo, FileSystem.moveTo_contents]

/-- `SC_Read` of the bytes `bytes`: they arrive up to the first zero. -/
theorem scRead_run (hs : IsSpace k.pageTable) (ho : k.Ordinary 6 f d) {n : ℕ}
    (hn : (k.registers 5).toInt = n)
    (hacc : ∀ j < n, k.user (k.registers 4 + BitVec.ofNat 32 j) ≠ none) {bytes : List Byte}
    (hb : (k.fileSystem.rest d).take n = bytes) (h0 : bytes ≠ []) :
    ∃ m pt, SameMap k.pageTable pt ∧
      userMap m pt = putBytes k.user (k.registers 4) (untilNul bytes) ∧
      scRead.run k = .done .brk { k with
        memory := m
        pageTable := pt
        registers := k.registers.write 2 (BitVec.ofNat 32 bytes.length)
        fileSystem := k.fileSystem.moveTo (k.id 6) f d (d.offset + bytes.length) } := by
  obtain ⟨hr, hf⟩ := fileArg_eq_some ho.arg
  have hpos := List.length_pos_iff.mpr h0
  have hle : bytes.length ≤ n := by
    rw [← hb, List.length_take]
    exact Nat.min_le_left _ _
  have hlen : n ≤ 65536 := by
    have := (k.registers 5).toInt_lt
    exact length_le_memorySize hs (by omega) hacc
  -- what the buffer holds before
  choose! old hold using fun j hj => Option.ne_none_iff_exists'.mp (hacc j hj)
  have hhas : k.HasBytes (k.registers 4) ((List.range n).map old) := by
    intro j c hj
    rw [List.getElem?_map] at hj
    obtain ⟨i, hi, rfl⟩ := Option.map_eq_some_iff.mp hj
    obtain ⟨hlt, rfl⟩ := List.getElem?_eq_some_iff.mp hi
    rw [List.length_range] at hlt
    rw [List.getElem_range]
    exact hold j hlt
  have hln : ((List.range n).map old).length = n := by
    rw [List.length_map, List.length_range]
  unfold Kernel.id
  generalize hid : (k.registers 6).toInt.toNat = id at hf
  obtain ⟨pt, hpt, hu⟩ := user2System_run (k := { k with
    fileSystem := k.fileSystem.moveTo id f d d.offset }) hhas (by omega)
  rw [hln] at hu
  generalize zeroFilled ((List.range n).map old) ++ [0] = buffer at hu
  obtain ⟨m, pt', hpt', hput, huser, -⟩ := system2User_run (k := { k with
      pageTable := pt, fileSystem := k.fileSystem.moveTo id f d (d.offset + bytes.length) })
    (a := k.registers 4) (b := bytes ++ buffer.drop bytes.length) (hpt.isSpace hs) (.inl rfl)
    (fun j hj => by
      have hj := hj.trans_le (length_untilNul_le bytes)
      show userMap k.memory pt _ ≠ none
      rw [hpt.userMap]
      exact hacc j (by omega))
    (List.prefix_append _ _) h0
  refine ⟨m, pt', hpt.trans hpt', ?_, ?_⟩
  · rw [huser]
    exact congrArg (fun u => putBytes u (k.registers 4) (untilNul bytes)) (hpt.userMap k.memory)
  unfold scRead
  simp only [run_bind, readRegister, run_look, Res.bind_done]
  rw [checkTransfer_run (by omega) hr (hid ▸ hf) ho.notStdout]
  rw [run_bind, hid, getCurrentPos_ordinary hf ho.descriptor, Res.bind_done, hn, Int.toNat_natCast,
    run_bind, hu, Res.bind_done, if_neg ho.notStdin, run_bind]
  rw [@onFile_read _ _ _ _ n (FileSystem.moveTo_slot ..) (FileSystem.moveTo_descriptor ..) rfl bytes
    (by exact hb), Res.bind_done, if_pos (by omega), run_bind]
  rw [getCurrentPos_ordinary (FileSystem.moveTo_slot ..) (FileSystem.moveTo_descriptor ..),
    Res.bind_done]
  have hv : ((d.offset + bytes.length : ℕ) : ℤ) - d.offset = bytes.length := by
    rw [Nat.cast_add, add_sub_cancel_left]
  simp only [hv, FileSystem.moveTo_moveTo, run_bind, hput, Res.bind_done, writeRegister, run_change,
    run_pure, BitVec.ofInt_natCast]

theorem onFile_seek {id pos : ℕ} (hf : k.fileSystem.openState id = some f)
    (hd : k.fileSystem.host.fds f.file = some d) :
    (onFile id fun f h => (f.seek h pos).map fun (f, h) => ((), f, h)).run k =
      .done () { k with
        fileSystem := (k.fileSystem.setHost (k.fileSystem.host.setFd f.file
          (some { d with offset := pos }))).setSlot id (some { f with currentOffset := pos }) } :=
  onFile_run hf (by rw [OpenFile.seek_eq hd, Option.map_some])

/-- `SC_Seek` to a position that is not negative. -/
theorem scSeek_run (ho : k.Ordinary 5 f d) {pos : ℕ} (hpos : (k.registers 4).toInt = pos) :
    scSeek.run k = .done .brk { k with
      registers := k.registers.write 2 (BitVec.ofNat 32 pos)
      fileSystem := k.fileSystem.moveTo (k.id 5) f d pos } := by
  obtain ⟨hr, hf⟩ := fileArg_eq_some ho.arg
  have hslot := ho.slot
  unfold scSeek
  simp only [run_bind, readRegister, run_look, Res.bind_done]
  rw [if_neg (by omega), run_bind, run_look, Res.bind_done, hf]
  dsimp only
  rw [if_neg (by omega), hpos, if_neg (by omega), run_bind, run_pure, Res.bind_done, run_bind,
    onFile_seek hf ho.descriptor, Res.bind_done, BitVec.ofInt_natCast]
  rfl

end Handlers

/-! ## Exact transfers -/

/-- The kernel when the process makes its next call, with these arguments. -/
def Kernel.withArgs (k : Kernel) (r4 r5 r6 : Word) : Kernel :=
  { k with registers := ((k.registers.write 4 r4).write 5 r5).write 6 r6 }

section Exact

variable (k : Kernel) (f : OpenFile) (d : Descriptor) (bytes : List Byte)

/-- `SC_Write` returns the number of `bytes` and stores them at the file's position. -/
def WritesExactly : Prop := ∃ leave k', scWrite.run k = .done leave k' ∧
  k'.registers 2 = BitVec.ofNat 32 bytes.length ∧ k'.fileSystem.host.contents d.inode =
    Host.overwrite (k.fileSystem.host.contents d.inode) d.offset bytes

/-- `SC_Read` returns the number of `bytes` and leaves them in the user's buffer. -/
def ReadsExactly : Prop := ∃ leave k', scRead.run k = .done leave k' ∧
  k'.registers 2 = BitVec.ofNat 32 bytes.length ∧ k'.HasBytes (k.registers 4) bytes

/-- Writing, seeking to `back` and reading into the buffer at `a` gives `bytes` back. -/
def RoundTrip (back a : Word) : Prop := ∃ leave₁ k₁ leave₂ k₂ leave₃ k₃,
  scWrite.run k = .done leave₁ k₁ ∧
  scSeek.run (k₁.withArgs back (k.registers 6) 0) = .done leave₂ k₂ ∧
  scRead.run (k₂.withArgs a (k.registers 5) (k.registers 6)) = .done leave₃ k₃ ∧
  k₃.HasBytes a bytes

variable {k f d bytes}

theorem overwrite_inj {file b c : List Byte} {offset : ℕ} (hlen : b.length = c.length)
    (h : Host.overwrite file offset b = Host.overwrite file offset c) : b = c := by
  unfold Host.overwrite at h
  by_cases hb : b = []
  · rw [hb] at hlen ⊢
    exact (List.eq_nil_of_length_eq_zero hlen.symm).symm
  · have hc : c ≠ [] := by
      rintro rfl
      exact hb (List.eq_nil_of_length_eq_zero hlen)
    rw [if_neg hb, if_neg hc, hlen] at h
    exact List.append_cancel_left (List.append_cancel_right h)

theorem writesExactly_iff (hs : IsSpace k.pageTable) (ho : k.Ordinary 6 f d)
    (hn : (k.registers 5).toInt = bytes.length) (hb : k.HasBytes (k.registers 4) bytes)
    (h0 : bytes ≠ []) : WritesExactly k d bytes ↔
      ∀ j c, AfterNul bytes j → bytes[j]? = some c → c = 0 := by
  obtain ⟨pt, -, hrun⟩ := scWrite_run hs ho hn hb h0
  rw [← zeroFilled_eq_iff]
  constructor
  · rintro ⟨leave, k', hrun', -, hc⟩
    rw [hrun] at hrun'
    cases hrun'
    rw [FileSystem.moveTo_contents, FileSystem.setContents_self] at hc
    exact overwrite_inj (length_zeroFilled bytes) hc
  · intro hz
    refine ⟨_, _, hrun, Registers.write_self k.registers 2 _, ?_⟩
    rw [FileSystem.moveTo_contents, FileSystem.setContents_self, hz]

theorem readsExactly_iff (hs : IsSpace k.pageTable) (ho : k.Ordinary 6 f d) {n : ℕ}
    (hn : (k.registers 5).toInt = n)
    (hacc : ∀ j < n, k.user (k.registers 4 + BitVec.ofNat 32 j) ≠ none)
    (hb : (k.fileSystem.rest d).take n = bytes) (h0 : bytes ≠ []) : ReadsExactly k bytes ↔
      ∀ j c, AfterNul bytes j → bytes[j]? = some c →
        k.user (k.registers 4 + BitVec.ofNat 32 j) = some c := by
  obtain ⟨m, pt, -, huser, hrun⟩ := scRead_run hs ho hn hacc hb h0
  have hlen : bytes.length ≤ 2 ^ 32 := by
    have := (k.registers 5).toInt_lt
    rw [← hb, List.length_take]
    omega
  have hiff := hasBytes_putBytes_iff (k := k) (q := { k with
    memory := m
    pageTable := pt
    registers := k.registers.write 2 (BitVec.ofNat 32 bytes.length)
    fileSystem := k.fileSystem.moveTo (k.id 6) f d (d.offset + bytes.length) }) hlen huser
  rw [← hiff]
  constructor
  · rintro ⟨leave, k', hrun', -, hhas⟩
    rw [hrun] at hrun'
    cases hrun'
    exact hhas
  · intro hhas
    exact ⟨_, _, hrun, Registers.write_self k.registers 2 _, hhas⟩

/-- The file is still open after a transfer or a seek, at the new position. -/
theorem Kernel.Ordinary.moved (ho : k.Ordinary 6 f d) {k' : Kernel} {fs : FileSystem} {num pos : ℕ}
    (hr : k'.registers num = k.registers 6) (hfs : k'.fileSystem = fs.moveTo (k.id 6) f d pos) :
    k'.Ordinary num { f with currentOffset := pos } { d with offset := pos } := by
  obtain ⟨hrange, -⟩ := fileArg_eq_some ho.arg
  refine ⟨?_, hr ▸ ho.slot, ho.notStdin, ho.notStdout, ?_⟩
  · apply fileArg_eq (hr ▸ hrange)
    rw [hfs, hr]
    exact FileSystem.moveTo_slot ..
  · rw [hfs]
    exact FileSystem.moveTo_descriptor ..

theorem roundTrip_iff (hs : IsSpace k.pageTable) (ho : k.Ordinary 6 f d)
    (hn : (k.registers 5).toInt = bytes.length) (hb : k.HasBytes (k.registers 4) bytes)
    (h0 : bytes ≠ []) {back a : Word} (hback : back.toInt = d.offset)
    (hacc : ∀ j < bytes.length, k.user (a + BitVec.ofNat 32 j) ≠ none) :
    RoundTrip k bytes back a ↔ ∀ j c, AfterNul bytes j → bytes[j]? = some c →
      k.user (a + BitVec.ofNat 32 j) = some c := by
  have hlen : bytes.length ≤ 2 ^ 32 := by
    have := (k.registers 5).toInt_lt
    omega
  -- after the write
  obtain ⟨k₁, hwrite, hs₁, huser₁, hfs₁⟩ : ∃ k₁, scWrite.run k = .done .brk k₁ ∧
      IsSpace k₁.pageTable ∧ k₁.user = k.user ∧
      k₁.fileSystem = (k.fileSystem.setContents d.inode (Host.overwrite
        (k.fileSystem.host.contents d.inode) d.offset (zeroFilled bytes))).moveTo (k.id 6) f d
          (d.offset + bytes.length) := by
    obtain ⟨pt, hpt, hrun⟩ := scWrite_run hs ho hn hb h0
    exact ⟨_, hrun, hpt.isSpace hs, hpt.userMap k.memory, rfl⟩
  -- after the seek
  have ho₁ : (k₁.withArgs back (k.registers 6) 0).Ordinary 5
      { f with currentOffset := (d.offset + bytes.length : ℕ) }
      { d with offset := d.offset + bytes.length } := ho.moved rfl hfs₁
  obtain ⟨k₂, hseek, hs₂, huser₂, hfs₂⟩ : ∃ k₂,
      scSeek.run (k₁.withArgs back (k.registers 6) 0) = .done .brk k₂ ∧
      IsSpace k₂.pageTable ∧ k₂.user = k.user ∧
      k₂.fileSystem = (k.fileSystem.setContents d.inode (Host.overwrite
        (k.fileSystem.host.contents d.inode) d.offset (zeroFilled bytes))).moveTo (k.id 6) f d
          d.offset := by
    have hseek := scSeek_run ho₁ hback
    refine ⟨_, hseek, hs₁, huser₁, ?_⟩
    show FileSystem.moveTo k₁.fileSystem (k.id 6) _ _ _ = _
    rw [hfs₁, FileSystem.moveTo_moveTo]
  -- the read finds what was written
  have ho₂ : (k₂.withArgs a (k.registers 5) (k.registers 6)).Ordinary 6
      { f with currentOffset := d.offset } d := ho.moved rfl hfs₂
  have hrest : (k₂.fileSystem.rest d).take bytes.length = zeroFilled bytes := by
    unfold FileSystem.rest
    rw [hfs₂, FileSystem.moveTo_contents, FileSystem.setContents_self]
    have := Host.take_overwrite (k.fileSystem.host.contents d.inode) d.offset (zeroFilled bytes)
    rwa [length_zeroFilled] at this
  have hz0 : zeroFilled bytes ≠ [] := by
    apply List.ne_nil_of_length_pos
    rw [length_zeroFilled]
    exact List.length_pos_iff.mpr h0
  obtain ⟨k₃, hread, huser₃⟩ : ∃ k₃,
      scRead.run (k₂.withArgs a (k.registers 5) (k.registers 6)) = .done .brk k₃ ∧
      k₃.user = putBytes k.user a (untilNul bytes) := by
    have hacc₂ : ∀ j < bytes.length, k₂.user (a + BitVec.ofNat 32 j) ≠ none := by
      rw [huser₂]
      exact hacc
    obtain ⟨m, pt, -, huser, hread⟩ := scRead_run (k := k₂.withArgs a (k.registers 5)
      (k.registers 6)) hs₂ ho₂ hn hacc₂ hrest hz0
    refine ⟨_, hread, huser.trans ?_⟩
    rw [untilNul_zeroFilled]
    exact congrArg (fun u => putBytes u a (untilNul bytes)) huser₂
  have hiff := hasBytes_putBytes_iff hlen huser₃
  constructor
  · rintro ⟨_, _, _, _, _, _, hw, hsk, hr, hhas⟩
    rw [hwrite] at hw
    cases hw
    rw [hseek] at hsk
    cases hsk
    rw [hread] at hr
    cases hr
    exact hiff.mp hhas
  · intro h
    exact ⟨_, _, _, _, _, _, hwrite, hseek, hread, hiff.mpr h⟩

/-- A transfer is exact just when the bytes that come after a zero are those that are there anyway:
zeros in the file, the old bytes in the user's buffer. -/
theorem transfer_exact_iff (hs : IsSpace k.pageTable) (ho : k.Ordinary 6 f d) :
    (∀ bytes : List Byte, bytes ≠ [] → (k.registers 5).toInt = bytes.length →
      k.HasBytes (k.registers 4) bytes →
      (WritesExactly k d bytes ↔ ∀ j c, AfterNul bytes j → bytes[j]? = some c → c = 0)) ∧
    (∀ n : ℕ, (k.registers 5).toInt = n →
      (∀ j < n, k.user (k.registers 4 + BitVec.ofNat 32 j) ≠ none) →
      (k.fileSystem.rest d).take n ≠ [] →
      (ReadsExactly k ((k.fileSystem.rest d).take n) ↔
        ∀ j c, AfterNul ((k.fileSystem.rest d).take n) j →
          ((k.fileSystem.rest d).take n)[j]? = some c →
          k.user (k.registers 4 + BitVec.ofNat 32 j) = some c)) ∧
    (∀ (bytes : List Byte) (back a : Word), bytes ≠ [] → (k.registers 5).toInt = bytes.length →
      k.HasBytes (k.registers 4) bytes → back.toInt = d.offset →
      (∀ j < bytes.length, k.user (a + BitVec.ofNat 32 j) ≠ none) →
      (RoundTrip k bytes back a ↔ ∀ j c, AfterNul bytes j → bytes[j]? = some c →
        k.user (a + BitVec.ofNat 32 j) = some c)) := by
  refine ⟨?_, ?_, ?_⟩
  · intro bytes h0 hn hb
    exact writesExactly_iff hs ho hn hb h0
  · intro n hn hacc h0
    exact readsExactly_iff hs ho hn hacc rfl h0
  · intro bytes back a h0 hn hb hback hacc
    exact roundTrip_iff hs ho hn hb h0 hback hacc

end Exact

/-- A process that writes `bytes`, which its memory starts with, to an empty file it opened as 2. -/
def writer (bytes : List Byte) : Kernel where
  thread := 0
  registers := fun i => if i = 2 then 7 else if i = 5 then BitVec.ofNat 32 bytes.length
    else if i = 6 then 2 else 0
  pageTable := [freshEntry 0 0]
  memory := fun a => bytes.getD a.toNat 0
  fileSystem :=
    { openState := fun i => if i = 2 then some { type := 0, file := 0, currentOffset := 0 } else none
      host := { Host.empty with
        nextInode := 1
        fds := fun fd => if fd = 0 then some { inode := 0, offset := 0 } else none
        nextFd := 1 } }
  semTab := STable.new fun _ => 0
  pTab := Procs.initial fun _ => 0
  input := []
  output := []
  printed := []

theorem writer_isSpace (bytes : List Byte) : IsSpace (writer bytes).pageTable := by
  constructor
  · intro i e he
    obtain ⟨hi, rfl⟩ := List.getElem?_eq_some_iff.mp he
    have hi : i < 1 := hi
    obtain rfl : i = 0 := by omega
    rfl
  · intro i j e e' he he' _
    have hi : i < 1 := (List.getElem?_eq_some_iff.mp he).1
    have hj : j < 1 := (List.getElem?_eq_some_iff.mp he').1
    omega

theorem writer_ordinary (bytes : List Byte) : (writer bytes).Ordinary 6
    { type := 0, file := 0, currentOffset := 0 } { inode := 0, offset := 0 } :=
  ⟨rfl, by show (2 : ℤ) ≤ (2#32).toInt; decide, by decide, by decide, rfl⟩

theorem writer_hasBytes {bytes : List Byte} (hlen : bytes.length ≤ 512) :
    (writer bytes).HasBytes ((writer bytes).registers 4) bytes := by
  intro i c hi
  obtain ⟨hlt, rfl⟩ := List.getElem?_eq_some_iff.mp hi
  have haddr : (0 + BitVec.ofNat 32 i : Word).toNat = i := by
    rw [BitVec.toNat_add, BitVec.toNat_ofNat, Nat.mod_eq_of_lt (by omega : i < 2 ^ 32)]
    exact (Nat.mod_eq_of_lt (by omega : 0 + i < 2 ^ 32)).trans (Nat.zero_add i)
  have hp : physAddr (writer bytes).pageTable (0 + BitVec.ofNat 32 i) = some i := by
    have hpage : i / 512 = 0 := by omega
    refine physAddr_eq_some.mpr ⟨freshEntry 0 0, ?_, rfl, by decide, ?_⟩
    · show (writer bytes).pageTable[(0 + BitVec.ofNat 32 i : Word).toNat / 512]? = _
      rw [haddr, hpage]
      rfl
    · show i = 0 * 512 + (0 + BitVec.ofNat 32 i : Word).toNat % 512
      rw [haddr]
      omega
  show (physAddr (writer bytes).pageTable (0 + BitVec.ofNat 32 i)).map _ = _
  rw [hp, Option.map_some]
  show some (bytes.getD (i : ℤ).toNat 0) = _
  rw [Int.toNat_natCast, List.getD_eq_getElem?_getD, hi]
  rfl

/-- Two pages in frames the other way round, `abcd` over the boundary of the pages, and `wxyz` in the
file that is open as 2. -/
def straddler : Kernel :=
  { writer [] with
    registers := fun i => if i = 2 then 7 else if i = 4 then 510 else if i = 5 then 4
      else if i = 6 then 2 else 0
    pageTable := [freshEntry 0 1, freshEntry 1 0]
    memory := fun a => if a = 1022 then 0x61 else if a = 1023 then 0x62 else if a = 0 then 0x63
      else if a = 1 then 0x64 else 0
    fileSystem := (writer []).fileSystem.setContents 0 [0x77, 0x78, 0x79, 0x7A] }

theorem straddler_isSpace : IsSpace straddler.pageTable := by
  have hlt : ∀ {i : ℕ} {e}, straddler.pageTable[i]? = some e → i < 2 :=
    fun he => (List.getElem?_eq_some_iff.mp he).1
  have hentries : ∀ i < 2, ∀ j < 2, straddler.pageTable[i]?.all (fun e => e.readOnly = false ∧
      straddler.pageTable[j]?.all fun e' =>
        BitVec.ofInt 32 e.physicalPage = BitVec.ofInt 32 e'.physicalPage → i = j) = true := by
    decide
  constructor
  · intro i e he
    have h := hentries i (hlt he) i (hlt he)
    rw [he] at h
    exact (of_decide_eq_true h).1
  · intro i j e e' he he'
    have h := hentries i (hlt he) j (hlt he')
    rw [he, he'] at h
    exact of_decide_eq_true (of_decide_eq_true h).2

/-- Both buffers cross the boundary of the pages: the process writes `abcd`, reads `wxyz`, or writes
`abcd` and reads it back at another address. -/
theorem transfer_exact_straddling :
    WritesExactly straddler { inode := 0, offset := 0 } [0x61, 0x62, 0x63, 0x64] ∧
    ReadsExactly straddler [0x77, 0x78, 0x79, 0x7A] ∧
    RoundTrip straddler [0x61, 0x62, 0x63, 0x64] 0 509 := by
  have ho : straddler.Ordinary 6 { type := 0, file := 0, currentOffset := 0 }
      { inode := 0, offset := 0 } := ⟨rfl, by decide, by decide, by decide, rfl⟩
  have hcount : (straddler.registers 5).toInt = ([0x61, 0x62, 0x63, 0x64] : List Byte).length := by
    decide
  have hbytes : straddler.HasBytes (straddler.registers 4) [0x61, 0x62, 0x63, 0x64] := by
    intro i c hi
    have hall : ∀ i < 4, straddler.user (straddler.registers 4 + BitVec.ofNat 32 i) =
        ([0x61, 0x62, 0x63, 0x64] : List Byte)[i]? := by decide
    rw [hall i (List.getElem?_eq_some_iff.mp hi).1, hi]
  -- no byte is after a zero
  have hnul : ∀ bytes : List Byte, 0 ∉ bytes → ∀ j, ¬ AfterNul bytes j := by
    rintro bytes h0 j ⟨i, -, hi⟩
    exact h0 (List.mem_of_getElem? hi)
  obtain ⟨hwrite, hread, hround⟩ := transfer_exact_iff straddler_isSpace ho
  refine ⟨?_, ?_, ?_⟩
  · exact (hwrite _ (List.cons_ne_nil _ _) hcount hbytes).mpr fun j _ hj =>
      absurd hj (hnul _ (by decide) j)
  · exact (hread 4 hcount (by decide) (by decide)).mpr fun j _ hj =>
      absurd hj (hnul _ (by decide) j)
  · exact (hround _ 0 509 (List.cons_ne_nil _ _) hcount hbytes (by decide) (by decide)).mpr
      fun j _ hj => absurd hj (hnul _ (by decide) j)

/-- Of the bytes 97, 0, 98 the file gets 97, 0, 0, and the call returns 3. -/
theorem write_loses_bytes_after_nul : ∃ (k : Kernel) (f : OpenFile) (d : Descriptor)
    (leave : Leave) (k' : Kernel), IsSpace k.pageTable ∧ k.Ordinary 6 f d ∧
      (k.registers 5).toInt = 3 ∧ k.HasBytes (k.registers 4) [0x61, 0, 0x62] ∧
      scWrite.run k = .done leave k' ∧ k'.registers 2 = 3 ∧
      k'.fileSystem.host.contents d.inode ≠
        Host.overwrite (k.fileSystem.host.contents d.inode) d.offset [0x61, 0, 0x62] := by
  have hb := @writer_hasBytes [0x61, 0, 0x62] (by decide)
  obtain ⟨pt, -, hrun⟩ := scWrite_run (writer_isSpace [0x61, 0, 0x62]) (writer_ordinary _)
    (by decide) hb (List.cons_ne_nil _ _)
  refine ⟨_, _, _, _, _, writer_isSpace _, writer_ordinary _, by decide, hb, hrun,
    Registers.write_self (writer [0x61, 0, 0x62]).registers 2 _, ?_⟩
  rw [FileSystem.moveTo_contents, FileSystem.setContents_self]
  decide

end Nachos
