import Nachos.Test.Texts
import Nachos.Userprog.Transfer

/-!
# The file calls of the water-tap programs

`serve` is what a call does to the file system and what the program gets. A call with a bad id leaves
its handler by `return`: it is made again with -1 in register 2, and the machine halts. `serve_sound`
is that the handlers of `exception.cc` do this.

`serve` has no value where the simulator aborts, and on files of the console that the handlers do not
refuse; the programs have none of these. No program writes zero bytes.
-/

namespace Nachos.Test

open Prog

/-- The name in the program's text. -/
def DataFile.name (f : DataFile) : Name :=
  let base : List Char := match f with
    | .input => ['i', 'n', 'p', 'u', 't']
    | .output => ['o', 'u', 't', 'p', 'u', 't']
    | .sinhvien => ['s', 'i', 'n', 'h', 'v', 'i', 'e', 'n']
    | .voinuoc => ['v', 'o', 'i', 'n', 'u', 'o', 'c']
  (base ++ ['.', 't', 'x', 't']).map fun c => BitVec.ofNat 8 c.toNat

theorem DataFile.name_inj {f g : DataFile} (h : f.name = g.name) : f = g := by
  revert h
  cases f <;> cases g <;> decide

/-- What becomes of a call. -/
inductive Served where
  | reply (r : Reply) (fs : FileSystem)
  | halts

/-- The open file with an id and its descriptor. -/
def withFile (fs : FileSystem) (id : ℤ) (go : OpenFile → Descriptor → Option Served) :
    Option Served :=
  if id < 0 ∨ id > 9 then some .halts
  else
    match fs.openState id.toNat with
    | none => some .halts
    | some f => (fs.host.fds f.file).bind (go f)

def serve (fs : FileSystem) : UserCall → Option Served
  | .create f => (fs.create f.name).map (.reply { value := 0, ch := none })
  | .openFile f type =>
    if type = 0 ∨ type = 1 then
      match fs.findFreeSlot with
      -- register 2 still has the number of the call
      | none => some (.reply { value := 5, ch := none } fs)
      | some slot =>
        match fs.openFile f.name type with
        | none => some (.reply { value := -1, ch := none } (fs.setSlot slot none))
        | some (file, fs) =>
          some (.reply { value := slot, ch := none } (fs.setSlot slot (some file)))
    else some .halts
  | .close id =>
    match if 0 ≤ id ∧ id ≤ 9 then fs.openState id.toNat else none with
    | none => some (.reply { value := -1, ch := none } fs)
    | some f => (fs.host.close f.file).map fun h =>
      .reply { value := 0, ch := none } ((fs.setHost h).setSlot id.toNat none)
  | .read id => withFile fs id fun f d =>
    if f.type = 3 then some .halts
    else if f.type = 2 ∨ id < 2 then none
    else
      match (fs.rest d).head? with
      | none => some (.reply { value := -2, ch := none } (fs.moveTo id.toNat f d d.offset))
      | some ch =>
        some (.reply { value := 1, ch := some ch } (fs.moveTo id.toNat f d (d.offset + 1)))
  | .write bytes id => withFile fs id fun f d =>
    if f.type = 2 then some .halts
    else if f.type = 3 ∨ id < 2 ∨ bytes = [] then none
    else
      let file := Host.overwrite (fs.host.contents d.inode) d.offset (zeroFilled bytes)
      some (.reply { value := bytes.length, ch := none }
        ((fs.setContents d.inode file).moveTo id.toNat f d (d.offset + bytes.length)))
  | .seek pos id => withFile fs id fun f d =>
    if id = 0 ∨ id = 1 then some .halts
    else if f.type = 2 ∨ f.type = 3 then none
    else if pos = -1 then
      if f.currentOffset < 0 then none
      else
        let len := (fs.host.contents d.inode).length
        some (.reply { value := (BitVec.ofNat 32 len).toInt, ch := none } (fs.moveTo id.toNat f d len))
    else if pos < 0 then none
    else some (.reply { value := pos, ch := none } (fs.moveTo id.toNat f d pos.toNat))
  | _ => none

/-! ## The handlers -/

/-- The handler of a call. -/
def UserCall.handler : UserCall → KernelM Leave
  | .create _ => scCreate
  | .openFile _ _ => scOpen
  | .close _ => scClose
  | .read _ => scRead
  | .write _ _ => scWrite
  | .seek _ _ => scSeek
  | .createSemaphore _ _ => scCreateSemaphore
  | .up _ => scUp
  | .down _ => scDown
  | .exec _ => scExec
  | .printString _ => scPrintString
  | .halt => scHalt
  | .exit => scExit

/-- The registers and the memory have the arguments of a file call. -/
def Makes (k : Kernel) : UserCall → Prop
  | .create f => k.stringArg = some f.name
  | .openFile f type => k.stringArg = some f.name ∧ (k.registers 5).toInt = type ∧ k.registers 2 = 5
  | .close id => (k.registers 4).toInt = id
  | .read id => (k.registers 5).toInt = 1 ∧ (k.registers 6).toInt = id ∧ k.user (k.registers 4) ≠ none
  | .write bytes id => (k.registers 5).toInt = bytes.length ∧ (k.registers 6).toInt = id ∧
      k.HasBytes (k.registers 4) bytes
  | .seek pos id => (k.registers 4).toInt = pos ∧ (k.registers 5).toInt = id
  | _ => False

/-- The handler does to the kernel what `serve` says. -/
def Does (k : Kernel) (c : UserCall) : Served → Prop
  | .reply r fs => ∃ k', c.handler.run k = .done .brk k' ∧ k'.fileSystem = fs ∧
      (k'.registers 2).toInt = r.value ∧ ∀ ch, r.ch = some ch → k'.user (k.registers 4) = some ch
  | .halts => ∃ k', c.handler.run k = .done .ret k' ∧ k'.registers 2 = -1

section Handlers

variable {k : Kernel} {fs : FileSystem} {x : Served}

theorem name_length (f : DataFile) : 0 < f.name.length ∧ f.name.length ≤ 32 := by
  cases f <;> decide

theorem stringArg_eq_some {name : Name} (h : k.stringArg = some name) :
    ∃ buffer pt, (user2System (k.registers 4) (maxFileLength + 1)).run k =
      .done buffer { k with pageTable := pt } ∧ cstring buffer = name := by
  rcases user2System_cases (k.registers 4) (maxFileLength + 1) k with ⟨d, hs⟩ | ⟨buffer, pt, hs⟩
  · unfold Kernel.stringArg at h
    rw [hs] at h
    cases h
  · rw [stringArg_eq hs, Option.some.injEq] at h
    exact ⟨buffer, pt, hs, h⟩

/-- Register 2 after it was written. -/
theorem toInt_write (r : Registers) (v : Word) : ((r.write 2 v) 2).toInt = v.toInt := by
  rw [Registers.write_self]

theorem does_create {f : DataFile} (hm : Makes k (.create f))
    (hs : serve k.fileSystem (.create f) = some x) : Does k (.create f) x := by
  obtain ⟨fs, hfs, rfl⟩ := Option.map_eq_some_iff.mp hs
  obtain ⟨buffer, pt, hu, hname⟩ := stringArg_eq_some hm
  have hlen : ¬ strlen buffer = 0 := by
    have := (name_length f).1
    unfold strlen
    rw [hname]
    omega
  have hrun : scCreate.run k = .done .brk { k with
      pageTable := pt, registers := k.registers.write 2 0, fileSystem := fs } := by
    unfold scCreate
    simp only [run_bind, readRegister, run_look, Res.bind_done, hu]
    rw [if_neg hlen, run_bind]
    unfold fileOp
    dsimp only
    rw [hname, hfs]
    rfl
  exact ⟨_, hrun, rfl, toInt_write k.registers 0, by rintro _ ⟨⟩⟩

/-- `SC_Open` with a name and a type that are in order. -/
theorem scOpen_run {name : Name} (harg : k.stringArg = some name) (h0 : 0 < name.length)
    (h32 : name.length ≤ 32) (ht : k.registers 5 = 0 ∨ k.registers 5 = 1) :
    ∃ pt, scOpen.run k = .done .brk (match k.fileSystem.findFreeSlot with
      | none => { k with pageTable := pt }
      | some slot =>
        match k.fileSystem.openFile name (k.registers 5).toInt with
        | none => { k with
            pageTable := pt
            fileSystem := k.fileSystem.setSlot slot none
            registers := k.registers.write 2 (-1) }
        | some (f, fs) => { k with
            pageTable := pt
            fileSystem := fs.setSlot slot (some f)
            registers := k.registers.write 2 (BitVec.ofNat 32 slot) }) := by
  obtain ⟨buffer, pt, hu, rfl⟩ := stringArg_eq_some harg
  have hlen : ¬ (strlen buffer = 0 ∨ 32 < strlen buffer) := by
    unfold strlen
    omega
  have htype : ¬ (k.registers 5 ≠ 0 ∧ k.registers 5 ≠ 1) := fun h => ht.elim h.1 h.2
  refine ⟨pt, ?_⟩
  unfold scOpen
  simp only [run_bind, readRegister, run_look, Res.bind_done, hu]
  rw [if_neg hlen, run_bind, run_look, Res.bind_done, if_neg htype, run_bind, run_look, Res.bind_done]
  dsimp only
  cases k.fileSystem.findFreeSlot with
  | none => rfl
  | some slot =>
    dsimp only
    rw [run_bind, run_look, Res.bind_done]
    dsimp only
    cases k.fileSystem.openFile (cstring buffer) (k.registers 5).toInt with
    | none => rfl
    | some p => rfl

theorem scOpen_badType {name : Name} (harg : k.stringArg = some name) (h0 : 0 < name.length)
    (h32 : name.length ≤ 32) (ht : k.registers 5 ≠ 0 ∧ k.registers 5 ≠ 1) :
    ∃ k', scOpen.run k = .done .ret k' ∧ k'.registers 2 = -1 := by
  obtain ⟨buffer, pt, hu, rfl⟩ := stringArg_eq_some harg
  have hlen : ¬ (strlen buffer = 0 ∨ 32 < strlen buffer) := by
    unfold strlen
    omega
  unfold scOpen
  simp only [run_bind, readRegister, run_look, Res.bind_done, hu]
  rw [if_neg hlen, run_bind, run_look, Res.bind_done, if_pos ht]
  exact ⟨_, rfl, Registers.write_self k.registers 2 _⟩

theorem does_open {f : DataFile} {type : ℤ} (hm : Makes k (.openFile f type))
    (hs : serve k.fileSystem (.openFile f type) = some x) : Does k (.openFile f type) x := by
  obtain ⟨harg, rfl, h5⟩ := hm
  obtain ⟨h0, h32⟩ := name_length f
  have htype (v : Word) : (k.registers 5).toInt = v.toInt ↔ k.registers 5 = v :=
    ⟨BitVec.eq_of_toInt_eq, fun h => h ▸ rfl⟩
  have ht : ((k.registers 5).toInt = 0 ∨ (k.registers 5).toInt = 1) ↔
      (k.registers 5 = 0 ∨ k.registers 5 = 1) := or_congr (htype 0) (htype 1)
  unfold serve at hs
  dsimp only at hs
  by_cases hok : k.registers 5 = 0 ∨ k.registers 5 = 1
  · rw [if_pos (ht.mpr hok)] at hs
    obtain ⟨pt, hrun⟩ := scOpen_run harg h0 h32 hok
    cases hslot : k.fileSystem.findFreeSlot with
    | none =>
      rw [hslot] at hs hrun
      obtain rfl := Option.some.inj hs
      refine ⟨_, hrun, rfl, ?_, nofun⟩
      show (k.registers 2).toInt = 5
      rw [h5]
      rfl
    | some slot =>
      rw [hslot] at hs hrun
      dsimp only at hs hrun
      cases hopen : k.fileSystem.openFile f.name (k.registers 5).toInt with
      | none =>
        rw [hopen] at hs hrun
        obtain rfl := Option.some.inj hs
        exact ⟨_, hrun, rfl, toInt_write k.registers (-1), nofun⟩
      | some p =>
        rw [hopen] at hs hrun
        obtain rfl := Option.some.inj hs
        have hrange := FileSystem.findFreeSlot_range hslot
        exact ⟨_, hrun, rfl, (toInt_write k.registers (BitVec.ofNat 32 slot)).trans
          (toInt_ofNat (by omega)), nofun⟩
  · rw [if_neg (mt ht.mp hok)] at hs
    obtain rfl := Option.some.inj hs
    exact scOpen_badType harg h0 h32 (not_or.mp hok)

theorem serve_close (k : Kernel) :
    serve k.fileSystem (.close (k.registers 4).toInt) = match k.fileArg 4 with
      | none => some (.reply { value := -1, ch := none } k.fileSystem)
      | some f => (k.fileSystem.host.close f.file).map fun h => .reply { value := 0, ch := none }
          ((k.fileSystem.setHost h).setSlot (k.registers 4).toInt.toNat none) := rfl

theorem does_close {id : ℤ} (hm : Makes k (.close id))
    (hs : serve k.fileSystem (.close id) = some x) : Does k (.close id) x := by
  obtain rfl : (k.registers 4).toInt = id := hm
  rw [serve_close] at hs
  cases hf : k.fileArg 4 with
  | none =>
    rw [hf] at hs
    obtain rfl := Option.some.inj hs
    have hrun : scClose.run k = .done .brk { k with registers := k.registers.write 2 (-1) } := by
      unfold Kernel.fileArg at hf
      unfold scClose
      simp only [run_bind, readRegister, run_look, Res.bind_done, hf]
      rfl
    exact ⟨_, hrun, rfl, toInt_write k.registers (-1), by rintro _ ⟨⟩⟩
  | some f =>
    rw [hf] at hs
    obtain ⟨h, hc, rfl⟩ := Option.map_eq_some_iff.mp hs
    have hrun : scClose.run k = .done .brk { k with
        fileSystem := (k.fileSystem.setHost h).setSlot (k.registers 4).toInt.toNat none
        registers := k.registers.write 2 0 } := by
      unfold Kernel.fileArg at hf
      unfold scClose
      simp only [run_bind, readRegister, run_look, Res.bind_done, hf]
      unfold fileOp
      dsimp only
      rw [hc]
      rfl
    exact ⟨_, hrun, rfl, toInt_write k.registers 0, by rintro _ ⟨⟩⟩

/-- The open file with the id in a register, as the handlers of `Read`, `Write` and `Seek` find it:
`withFile` halts where they fail. -/
theorem withFile_eq {num : ℕ} {go : OpenFile → Descriptor → Option Served}
    (hs : withFile k.fileSystem (k.registers num).toInt go = some x) :
    (k.fileArg num = none ∧ x = .halts) ∨
      ∃ f d, k.fileArg num = some f ∧ k.fileSystem.host.fds f.file = some d ∧ go f d = some x := by
  unfold withFile at hs
  by_cases hr : (k.registers num).toInt < 0 ∨ (k.registers num).toInt > 9
  · rw [if_pos hr] at hs
    refine Or.inl ⟨?_, (Option.some.inj hs).symm⟩
    unfold Kernel.fileArg
    rw [if_neg (by omega)]
  · rw [if_neg hr] at hs
    have harg : k.fileArg num = k.fileSystem.openState (k.registers num).toInt.toNat := by
      unfold Kernel.fileArg
      rw [if_pos (by omega)]
    cases hf : k.fileSystem.openState (k.registers num).toInt.toNat with
    | none =>
      rw [hf] at hs
      exact Or.inl ⟨harg.trans hf, (Option.some.inj hs).symm⟩
    | some f =>
      rw [hf] at hs
      obtain ⟨d, hd, hgo⟩ := Option.bind_eq_some_iff.mp hs
      exact Or.inr ⟨f, d, harg.trans hf, hd, hgo⟩

/-- The checks of `SC_Read` and `SC_Write` fail. -/
theorem checkTransfer_fails {charcount wrongType : ℤ} {num : ℕ} {m₁ m₂ m₃ m₄ : Message}
    {go : OpenFile → KernelM Leave} (h : ∀ f, k.fileArg num = some f → f.type = wrongType) :
    ∃ k', (checkTransfer charcount (k.registers num).toInt wrongType m₁ m₂ m₃ m₄ go).run k =
      .done .ret k' ∧ k'.registers 2 = -1 := by
  unfold checkTransfer
  simp only [run_ite]
  split_ifs with h1 h2
  · exact ⟨_, rfl, Registers.write_self k.registers 2 _⟩
  · exact ⟨_, rfl, Registers.write_self k.registers 2 _⟩
  · unfold Kernel.fileArg at h
    rw [if_pos (by omega)] at h
    rw [run_bind, run_look, Res.bind_done]
    cases hf : k.fileSystem.openState (k.registers num).toInt.toNat with
    | none => exact ⟨_, rfl, Registers.write_self k.registers 2 _⟩
    | some f =>
      dsimp only
      rw [if_pos (h f hf)]
      exact ⟨_, rfl, Registers.write_self k.registers 2 _⟩

/-- `SC_Read` of one byte at the end of the file. -/
theorem scRead_end {f : OpenFile} {d : Descriptor} (ho : k.Ordinary 6 f d)
    (hn : (k.registers 5).toInt = 1) (hacc : k.user (k.registers 4) ≠ none)
    (hb : (k.fileSystem.rest d).head? = none) :
    ∃ pt, scRead.run k = .done .brk { k with
      pageTable := pt
      registers := k.registers.write 2 (-2)
      fileSystem := k.fileSystem.moveTo (k.id 6) f d d.offset } := by
  obtain ⟨hr, hf⟩ := fileArg_eq_some ho.arg
  obtain ⟨c, hc⟩ := Option.ne_none_iff_exists'.mp hacc
  have hhas : k.HasBytes (k.registers 4) [c] := by
    intro i b hi
    obtain ⟨hlt, rfl⟩ := List.getElem?_eq_some_iff.mp hi
    have hlt : i < 1 := hlt
    obtain rfl : i = 0 := by omega
    rwa [BitVec.add_zero]
  unfold Kernel.id
  generalize hid : (k.registers 6).toInt.toNat = id at hf
  obtain ⟨pt, hpt, hu⟩ := user2System_run (k := { k with
    fileSystem := k.fileSystem.moveTo id f d d.offset }) hhas (by show 1 + 1 < 2 ^ 31; decide)
  rw [List.length_singleton] at hu
  have hnil : (k.fileSystem.rest d).take 1 = [] := by
    rw [List.head?_eq_none_iff.mp hb]
    rfl
  refine ⟨pt, ?_⟩
  unfold scRead
  simp only [run_bind, readRegister, run_look, Res.bind_done]
  rw [checkTransfer_run (by omega) hr (hid ▸ hf) ho.notStdout]
  rw [run_bind, hid, getCurrentPos_ordinary hf ho.descriptor, Res.bind_done, hn, run_bind]
  rw [show (1 : ℤ).toNat = 1 from rfl, hu, Res.bind_done, if_neg ho.notStdin, run_bind]
  rw [@onFile_read _ _ _ _ 1 (FileSystem.moveTo_slot ..) (FileSystem.moveTo_descriptor ..) rfl []
    (by exact hnil), Res.bind_done, if_neg (by decide)]
  simp only [run_bind, writeRegister, run_change, Res.bind_done, run_pure, FileSystem.moveTo_moveTo,
    List.length_nil, Nat.add_zero]

theorem does_read (hsp : IsSpace k.pageTable) {id : ℤ} (hm : Makes k (.read id))
    (hs : serve k.fileSystem (.read id) = some x) : Does k (.read id) x := by
  obtain ⟨hn, rfl, hacc⟩ := hm
  have hfails (h : ∀ f, k.fileArg 6 = some f → f.type = 3) :
      ∃ k', scRead.run k = .done .ret k' ∧ k'.registers 2 = -1 := by
    unfold scRead
    simp only [run_bind, readRegister, run_look, Res.bind_done]
    exact checkTransfer_fails h
  rcases withFile_eq hs with ⟨hnone, rfl⟩ | ⟨f, d, harg, hd, hgo⟩
  · refine hfails fun f hf => ?_
    rw [hnone] at hf
    cases hf
  · by_cases h3 : f.type = 3
    · rw [if_pos h3] at hgo
      obtain rfl := Option.some.inj hgo
      refine hfails fun f' hf' => ?_
      rw [harg, Option.some.injEq] at hf'
      rwa [← hf']
    rw [if_neg h3] at hgo
    obtain ⟨h2, hgo⟩ := Option.ite_none_left_eq_some.mp hgo
    rw [not_or] at h2
    have ho : k.Ordinary 6 f d := ⟨harg, not_lt.mp h2.2, h2.1, h3, hd⟩
    cases hb : (k.fileSystem.rest d).head? with
    | none =>
      rw [hb] at hgo
      obtain rfl := Option.some.inj hgo
      obtain ⟨pt, hrun⟩ := scRead_end ho hn hacc hb
      exact ⟨_, hrun, rfl, toInt_write k.registers (-2), by rintro _ ⟨⟩⟩
    | some ch =>
      rw [hb] at hgo
      obtain rfl := Option.some.inj hgo
      have htake : (k.fileSystem.rest d).take 1 = [ch] := by
        obtain ⟨rest, hrest⟩ := List.head?_eq_some_iff.mp hb
        rw [hrest]
        rfl
      obtain ⟨m, pt, -, huser, hrun⟩ := scRead_run hsp ho (n := 1) hn (fun j hj => by
        obtain rfl : j = 0 := by omega
        rwa [BitVec.add_zero]) htake (List.cons_ne_nil _ _)
      refine ⟨_, hrun, rfl, toInt_write k.registers 1, fun c hc => ?_⟩
      obtain rfl := Option.some.inj hc
      show userMap m pt (k.registers 4) = some ch
      rw [huser]
      unfold untilNul
      split_ifs with h0
      · subst h0
        exact Function.update_self _ _ _
      · exact Function.update_self _ _ _

theorem does_write (hsp : IsSpace k.pageTable) {bytes : List Byte} {id : ℤ}
    (hm : Makes k (.write bytes id)) (hs : serve k.fileSystem (.write bytes id) = some x) :
    Does k (.write bytes id) x := by
  obtain ⟨hn, rfl, hb⟩ := hm
  have hfails (h : ∀ f, k.fileArg 6 = some f → f.type = 2) :
      ∃ k', scWrite.run k = .done .ret k' ∧ k'.registers 2 = -1 := by
    unfold scWrite
    simp only [run_bind, readRegister, run_look, Res.bind_done]
    exact checkTransfer_fails h
  rcases withFile_eq hs with ⟨hnone, rfl⟩ | ⟨f, d, harg, hd, hgo⟩
  · refine hfails fun f hf => ?_
    rw [hnone] at hf
    cases hf
  · by_cases h2 : f.type = 2
    · rw [if_pos h2] at hgo
      obtain rfl := Option.some.inj hgo
      refine hfails fun f' hf' => ?_
      rw [harg, Option.some.injEq] at hf'
      rwa [← hf']
    rw [if_neg h2] at hgo
    obtain ⟨h3, hgo⟩ := Option.ite_none_left_eq_some.mp hgo
    rw [not_or, not_or] at h3
    obtain rfl := Option.some.inj hgo
    have ho : k.Ordinary 6 f d := ⟨harg, not_lt.mp h3.2.1, h2, h3.1, hd⟩
    obtain ⟨pt, -, hrun⟩ := scWrite_run hsp ho hn hb h3.2.2
    have hlen : bytes.length ≤ 65536 := by
      have := (k.registers 5).toInt_lt
      exact length_le_memorySize hsp (by omega) hb.accessible
    exact ⟨_, hrun, rfl, (toInt_write k.registers (BitVec.ofNat 32 bytes.length)).trans
      (toInt_ofNat (by omega)), by rintro _ ⟨⟩⟩

/-- `Length` leaves the descriptor at the offset of the file. -/
theorem onFile_length {id : ℕ} {f : OpenFile} {d : Descriptor}
    (hf : k.fileSystem.openState id = some f) (hd : k.fileSystem.host.fds f.file = some d)
    (h0 : 0 ≤ f.currentOffset) :
    (onFile id fun f h => do let (len, h) ← f.length h; pure (len, f, h)).run k =
      .done ((k.fileSystem.host.contents d.inode).length : ℤ) { k with
        fileSystem := (k.fileSystem.setHost (k.fileSystem.host.setFd f.file
          (some { d with offset := f.currentOffset.toNat }))).setSlot id (some f) } := by
  refine onFile_run hf ?_
  simp [OpenFile.length, Host.lseekEnd, Host.lseek, Host.setFd, Host.tell, hd, not_lt.mpr h0]

/-- `SC_Seek` to the end. -/
theorem scSeek_end {f : OpenFile} {d : Descriptor} (ho : k.Ordinary 5 f d)
    (hpos : (k.registers 4).toInt = -1) (h0 : 0 ≤ f.currentOffset) :
    scSeek.run k = .done .brk { k with
      registers := k.registers.write 2
        (BitVec.ofNat 32 (k.fileSystem.host.contents d.inode).length)
      fileSystem := k.fileSystem.moveTo (k.id 5) f d (k.fileSystem.host.contents d.inode).length } := by
  obtain ⟨hr, hf⟩ := fileArg_eq_some ho.arg
  have hslot := ho.slot
  unfold Kernel.id
  generalize hid : (k.registers 5).toInt.toNat = id at hf
  generalize hlen : (k.fileSystem.host.contents d.inode).length = len
  unfold scSeek
  simp only [run_bind, readRegister, run_look, Res.bind_done]
  rw [if_neg (by omega), run_bind, run_look, Res.bind_done, hid, hf]
  dsimp only
  rw [if_neg (by omega), hpos, if_pos rfl, run_bind]
  rw [onFile_length hf ho.descriptor h0, hlen, Res.bind_done, run_bind,
    onFile_seek (f := f) (by exact Function.update_self _ _ _) (by exact Host.setFd_self _),
    Res.bind_done, BitVec.ofInt_natCast]
  simp only [run_bind, writeRegister, run_change, Res.bind_done, run_pure, FileSystem.setSlot,
    FileSystem.setHost, FileSystem.moveTo, Host.setFd, Function.update_idem]

theorem does_seek {pos id : ℤ} (hm : Makes k (.seek pos id))
    (hs : serve k.fileSystem (.seek pos id) = some x) : Does k (.seek pos id) x := by
  obtain ⟨rfl, rfl⟩ := hm
  have hfails (h : k.fileArg 5 = none ∨ (k.registers 5).toInt = 0 ∨ (k.registers 5).toInt = 1) :
      ∃ k', scSeek.run k = .done .ret k' ∧ k'.registers 2 = -1 := by
    unfold scSeek
    simp only [run_bind, readRegister, run_look, Res.bind_done]
    by_cases hr : (k.registers 5).toInt < 0 ∨ (k.registers 5).toInt > 9
    · rw [if_pos hr]
      exact ⟨_, rfl, Registers.write_self k.registers 2 _⟩
    · rw [if_neg hr]
      unfold Kernel.fileArg at h
      rw [if_pos (by omega)] at h
      rw [run_bind, run_look, Res.bind_done]
      cases hf : k.fileSystem.openState (k.registers 5).toInt.toNat with
      | none => exact ⟨_, rfl, Registers.write_self k.registers 2 _⟩
      | some f =>
        rw [hf] at h
        dsimp only
        rw [if_pos (h.resolve_left (by rintro ⟨⟩))]
        exact ⟨_, rfl, Registers.write_self k.registers 2 _⟩
  rcases withFile_eq hs with ⟨hnone, rfl⟩ | ⟨f, d, harg, hd, hgo⟩
  · exact hfails (Or.inl hnone)
  · have hrange := (fileArg_eq_some harg).1
    by_cases h01 : (k.registers 5).toInt = 0 ∨ (k.registers 5).toInt = 1
    · rw [if_pos h01] at hgo
      obtain rfl := Option.some.inj hgo
      exact hfails (Or.inr h01)
    rw [if_neg h01] at hgo
    obtain ⟨htype, hgo⟩ := Option.ite_none_left_eq_some.mp hgo
    rw [not_or] at htype
    have ho : k.Ordinary 5 f d := ⟨harg, by omega, htype.1, htype.2, hd⟩
    by_cases hend : (k.registers 4).toInt = -1
    · rw [if_pos hend] at hgo
      obtain ⟨h0, hgo⟩ := Option.ite_none_left_eq_some.mp hgo
      obtain rfl := Option.some.inj hgo
      exact ⟨_, scSeek_end ho hend (not_lt.mp h0), rfl, toInt_write k.registers _, by rintro _ ⟨⟩⟩
    · rw [if_neg hend] at hgo
      obtain ⟨h0, hgo⟩ := Option.ite_none_left_eq_some.mp hgo
      obtain rfl := Option.some.inj hgo
      have hpos : (k.registers 4).toInt = (k.registers 4).toInt.toNat := by omega
      have hlt := (k.registers 4).toInt_lt
      exact ⟨_, scSeek_run ho hpos, rfl,
        (toInt_write k.registers (BitVec.ofNat 32 (k.registers 4).toInt.toNat)).trans
          ((toInt_ofNat (by omega)).trans hpos.symm), by rintro _ ⟨⟩⟩

/-- The handlers of `exception.cc` do what `serve` says. -/
theorem serve_sound (hsp : IsSpace k.pageTable) {c : UserCall} (hm : Makes k c)
    (hs : serve k.fileSystem c = some x) : Does k c x := by
  cases c with
  | create f => exact does_create hm hs
  | openFile f type => exact does_open hm hs
  | close id => exact does_close hm hs
  | read id => exact does_read hsp hm hs
  | write bytes id => exact does_write hsp hm hs
  | seek pos id => exact does_seek hm hs
  | _ => exact absurd hm id

end Handlers

end Nachos.Test
