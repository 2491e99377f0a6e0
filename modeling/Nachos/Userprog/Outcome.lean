import Nachos.Userprog.Calls
import Nachos.Userprog.ReturnPath

/-!
# What a system call reports

Twelve system calls return a value in register 2. `Performed` says when the requested operation was
carried out, and with which result; a call is `Reported` when register 2 holds this result, or an
error value and nothing was carried out. `Unreported` lists the states where the code fails to do so.

The name of a file or a semaphore is what `User2System` copies of it. Which bytes of a buffer are
copied is not part of the outcome of `SC_Read`.
-/

namespace Nachos

open Prog

/-! ## Integers on the console -/

/-- The number that a row of digits stands for. -/
def decimal (digits : List Byte) : ℤ := digits.foldl (fun n c => n * 10 + (c.toNat - 0x30 : ℤ)) 0

/-- An optional minus sign and one or more digits. -/
inductive IsInt : List Byte → ℤ → Prop
  | digits {ds : List Byte} (hne : ds ≠ []) (hd : ∀ c ∈ ds, isDigit c = true) :
      IsInt ds (decimal ds)
  | minus {ds : List Byte} (hne : ds ≠ []) (hd : ∀ c ∈ ds, isDigit c = true) :
      IsInt (0x2D#8 :: ds) (-decimal ds)

theorem digit_value (c : Byte) :
    c.setWidth 32 - 0x30#32 = BitVec.ofInt 32 (c.toNat - 0x30 : ℤ) := by
  rw [Int.sub_eq_add_neg, BitVec.ofInt_add, BitVec.ofInt_natCast, BitVec.ofNat_toNat,
    BitVec.ofInt_neg, BitVec.sub_eq_add_neg]
  simp only [BitVec.ofInt_ofNat]

/-- The loop computes modulo `2 ^ 32`. -/
theorem readIntLoop_eq (ds : List Byte) : ∀ n : ℤ, readIntLoop (BitVec.ofInt 32 n) ds =
    if ∀ c ∈ ds, isDigit c = true then
      some (BitVec.ofInt 32 (ds.foldl (fun n c => n * 10 + (c.toNat - 0x30 : ℤ)) n))
    else none := by
  induction ds with
  | nil => intro n; simp [readIntLoop]
  | cons c cs ih =>
    intro n
    unfold readIntLoop
    by_cases hc : isDigit c = true
    · have hstep : BitVec.ofInt 32 n * 10 + (c.setWidth 32 - 0x30#32) =
          BitVec.ofInt 32 (n * 10 + (c.toNat - 0x30 : ℤ)) := by
        rw [digit_value, BitVec.ofInt_add, BitVec.ofInt_mul]
        rfl
      rw [if_pos hc, hstep, ih]
      simp [hc]
    · rw [if_neg hc, if_neg]
      simp [hc]

theorem readIntLoop_zero (ds : List Byte) {v : Word} : readIntLoop 0 ds = some v ↔
    (∀ c ∈ ds, isDigit c = true) ∧ v = BitVec.ofInt 32 (decimal ds) := by
  have h := readIntLoop_eq ds 0
  rw [show BitVec.ofInt 32 0 = 0 from rfl] at h
  rw [h]
  split_ifs with hd
  · rw [Option.some.injEq, eq_comm]
    exact ⟨fun hv => ⟨hd, hv⟩, fun hv => hv.2⟩
  · exact ⟨nofun, fun hv => absurd hv.1 hd⟩

/-- A line is accepted exactly when it is an integer. -/
theorem parseInt_eq_some {line : List Byte} {v : Word} :
    parseInt line = some v ↔ ∃ n, IsInt line n ∧ v = BitVec.ofInt 32 n := by
  have hsign : isDigit 0x2D#8 = false := rfl
  unfold parseInt
  rcases line with _ | ⟨c, cs⟩
  · refine ⟨nofun, ?_⟩
    rintro ⟨n, h, _⟩
    cases h with
    | digits hne _ => exact absurd rfl hne
  · dsimp only
    split_ifs with hc hcs
    · subst hc hcs
      refine ⟨nofun, ?_⟩
      rintro ⟨n, h, _⟩
      cases h with
      | digits hne hd => exact absurd (hd _ List.mem_cons_self) (by simp [hsign])
      | minus hne _ => exact absurd rfl hne
    · subst hc
      rw [Option.map_eq_some_iff]
      constructor
      · rintro ⟨r, hr, rfl⟩
        obtain ⟨hd, rfl⟩ := (readIntLoop_zero cs).mp hr
        refine ⟨-decimal cs, .minus hcs hd, ?_⟩
        rw [BitVec.ofInt_neg, BitVec.mul_neg]
        exact congrArg Neg.neg (BitVec.mul_one _)
      · rintro ⟨n, h, rfl⟩
        cases h with
        | digits hne hd => exact absurd (hd _ List.mem_cons_self) (by simp [hsign])
        | minus hne hd =>
          refine ⟨_, (readIntLoop_zero cs).mpr ⟨hd, rfl⟩, ?_⟩
          rw [BitVec.ofInt_neg, BitVec.mul_neg]
          exact congrArg Neg.neg (BitVec.mul_one _)
    · rw [readIntLoop_zero]
      constructor
      · rintro ⟨hd, rfl⟩
        exact ⟨_, .digits (List.cons_ne_nil c cs) hd, rfl⟩
      · rintro ⟨n, h, rfl⟩
        cases h with
        | digits _ hd => exact ⟨hd, rfl⟩
        | minus _ _ => exact absurd rfl hc

/-! ## Outcomes -/

/-- The system calls that return a value. -/
def Syscall.returnsValue : Syscall → Bool
  | .create | .openFile | .close | .read | .write | .seek | .readInt | .exec | .join
  | .createSemaphore | .up | .down => true
  | _ => false

/-- The values for an operation that was not performed: -2 is the end of a file, and `ReadInt`
returns 0 for a line that is not an integer. -/
def Syscall.errors : Syscall → List Word
  | .read => [-1, -2]
  | .readInt => [0]
  | _ => [-1]

namespace Kernel

variable (k k' : Kernel) (v : Word)

/-- An empty file of this name is on the host. -/
def Created : Prop := ∃ name i, k.stringArg = some name ∧ name ≠ [] ∧
  k'.fileSystem.host.names name = some i ∧ k'.fileSystem.host.contents i = []

/-- A free slot `v` got an open file of this name and type, at its start. -/
def Opened : Prop := ∃ name slot f d, k.stringArg = some name ∧ v = BitVec.ofNat 32 slot ∧
  k.fileSystem.openState slot = none ∧ k'.fileSystem.openState slot = some f ∧
  f.type = (k.registers 5).toInt ∧ k'.fileSystem.host.fds f.file = some d ∧
  k'.fileSystem.host.names name = some d.inode ∧ d.offset = 0

/-- The file that was open is not, and its descriptor is closed. -/
def Closed : Prop := ∃ f, k.fileArg 4 = some f ∧
  k'.fileSystem.openState (k.registers 4).toInt.toNat = none ∧
  k'.fileSystem.host.fds f.file = none

/-- `v` bytes, more than none, were taken from the file; or a line of `v` characters from the
console. -/
def Read : Prop := ∃ f, k.fileArg 6 = some f ∧ (
  (∃ d n, f.type ≠ 2 ∧ k.fileSystem.host.fds f.file = some d ∧ 0 < n ∧ v = BitVec.ofNat 32 n ∧
    (n : ℤ) ≤ (k.registers 5).toInt ∧
    k'.fileSystem.host.fds f.file = some { d with offset := d.offset + n }) ∨
  ∃ line e rest, f.type = 2 ∧ 0 ≤ (k.registers 5).toInt ∧
    readLine (k.registers 5).toInt.toNat k.input = some (line, e, rest) ∧ e ≠ .ctrlA ∧
    k'.input = rest ∧ v = BitVec.ofNat 32 line.length)

/-- All of the `v` bytes, more than none, were written to the file at its position. -/
def Written : Prop := ∃ f d bytes, k.fileArg 6 = some f ∧
  k.fileSystem.host.fds f.file = some d ∧ bytes ≠ [] ∧ v = BitVec.ofNat 32 bytes.length ∧
  (bytes.length : ℤ) = (k.registers 5).toInt ∧
  k'.fileSystem.host.fds f.file = some { d with offset := d.offset + bytes.length } ∧
  k'.fileSystem.host.contents d.inode =
    Host.overwrite (k.fileSystem.host.contents d.inode) d.offset bytes

/-- The position of the file is `v`: the one asked for, or the end for -1. A console has no
position. -/
def Sought : Prop := ∃ f d, k.fileArg 5 = some f ∧ (k.registers 5).toInt ≠ 0 ∧
  (k.registers 5).toInt ≠ 1 ∧ k'.fileSystem.host.fds f.file = some d ∧
  v = BitVec.ofNat 32 d.offset ∧
  if (k.registers 4).toInt = -1 then d.offset = (k'.fileSystem.host.contents d.inode).length
  else (d.offset : ℤ) = (k.registers 4).toInt

/-- The line read is the integer `v`. -/
def ReadInt : Prop := ∃ line e rest n, readLine maxBufferSize k.input = some (line, e, rest) ∧
  k'.input = rest ∧ IsInt line n ∧ v = BitVec.ofInt 32 n

/-- A process was created for slot `v`. -/
def Executed : Prop := ∃ log a slot, k'.pTab.log = k.pTab.log ++ log ∧
  .created k.thread a slot ∈ log ∧ v = BitVec.ofNat 32 slot

/-- The process was joined, and its exit code is `v`. -/
def Joined : Prop := ∃ log ec, k'.pTab.log = k.pTab.log ++ log ∧
  .joinRead k.thread (k.registers 4).toInt ec ∈ log ∧ v = BitVec.ofInt 32 ec

/-- A new semaphore of this name and value is in the table. -/
def SemaphoreCreated : Prop := ∃ name i s, k.stringArg = some name ∧
  k.semTab.lookup name = .missing ∧ k'.semTab.lookup name = .found i s ∧
  s.sem = Semaphore.new (k.registers 5).toInt

/-- `V` on the semaphore of this name. -/
def Upped : Prop := ∃ name i s, k.stringArg = some name ∧ k.semTab.lookup name = .found i s ∧
  k'.semTab = k.semTab.setSem i { s with sem := s.sem.V }

/-- `P` on the semaphore of this name returned. -/
def Downed : Prop := ∃ name i s, k.stringArg = some name ∧ k.semTab.lookup name = .found i s ∧
  k.Passed k' i

end Kernel

/-- The operation was performed, with the result `v`. -/
def Syscall.Performed (k k' : Kernel) (v : Word) : Syscall → Prop
  | .create => v = 0 ∧ k.Created k'
  | .openFile => k.Opened k' v
  | .close => v = 0 ∧ k.Closed k'
  | .read => k.Read k' v
  | .write => k.Written k' v
  | .seek => k.Sought k' v
  | .readInt => k.ReadInt k' v
  | .exec => k.Executed k' v
  | .join => k.Joined k' v
  | .createSemaphore => v = 0 ∧ k.SemaphoreCreated k'
  | .up => v = 0 ∧ k.Upped k'
  | .down => v = 0 ∧ k.Downed k'
  | _ => False

/-- Register 2 holds the result of the operation, or an error value and it was not performed. -/
def Syscall.Reported (k k' : Kernel) (c : Syscall) : Prop :=
  c.Performed k k' (k'.registers 2) ∨
    (∀ v, ¬ c.Performed k k' v) ∧ k'.registers 2 ∈ c.errors

/-- The states where the code does not report the outcome: the table of open files is full, no byte
is to be read from the console or written to a file, the line is empty, or a semaphore is new. -/
def Syscall.Unreported (k : Kernel) : Syscall → Prop
  | .openFile => (∃ name, k.stringArg = some name ∧ 0 < name.length ∧
      name.length ≤ maxFileLength) ∧ (k.registers 5 = 0 ∨ k.registers 5 = 1) ∧
      k.fileSystem.findFreeSlot = none
  | .read => (k.registers 5).toInt = 0 ∧ ∃ f, k.fileArg 6 = some f ∧ f.type = 2
  | .write => (k.registers 5).toInt = 0 ∧ ∃ f, k.fileArg 6 = some f ∧ f.type ≠ 2 ∧ f.type ≠ 3 ∧
      k.fileSystem.host.fds f.file ≠ none
  | .readInt => ∃ rest, readLine maxBufferSize k.input = some ([], .newline, rest)
  | .createSemaphore => ∃ name, k.stringArg = some name ∧ k.semTab.lookup name = .missing
  | _ => False

/-! ## The handlers -/

section Handlers

variable {k k' : Kernel}

/-- Outside of the listed states the handler reports its outcome. -/
structure Syscall.Reports (k : Kernel) (c : Syscall) : Prop where
  all : All Serves (fun _ k' => c.Reported k k') (c.handler.run k)

theorem reported_performed {c : Syscall} {r : Registers} {v : Word}
    (hr : k'.registers = r.write 2 v) (h : c.Performed k k' v) : c.Reported k k' := by
  refine Or.inl ?_
  rwa [hr, Registers.write_self]

theorem reported_error {c : Syscall} {r : Registers} {e : Word} (hr : k'.registers = r.write 2 e)
    (h : ∀ v, ¬ c.Performed k k' v) (he : e ∈ c.errors) : c.Reported k k' := by
  refine Or.inr ⟨h, ?_⟩
  rwa [hr, Registers.write_self]

theorem reports_create : Syscall.create.Reports k := by
  constructor
  show All Serves _ (scCreate.run k)
  unfold scCreate
  simp only [run_bind, all_bind, readRegister, run_look, all_done]
  refine all_user2System fun buffer pt hb => ?_
  have harg := stringArg_eq hb
  rw [run_ite]
  split_ifs with hlen
  · refine reported_error rfl ?_ (by simp [Syscall.errors])
    rintro v ⟨_, name, i, hname, hne, _⟩
    rw [harg, Option.some.injEq] at hname
    subst hname
    exact hne (List.eq_nil_of_length_eq_zero hlen)
  · simp only [run_bind, all_bind]
    refine all_fileOp fun _ fs hfs => ?_
    rw [Option.map_eq_some_iff] at hfs
    obtain ⟨fs', hc, heq⟩ := hfs
    obtain ⟨-, rfl⟩ := heq
    obtain ⟨i, hn, hi⟩ := FileSystem.create_spec hc
    refine reported_performed rfl ⟨rfl, cstring buffer, i, harg, ?_, hn, hi⟩
    exact fun hnil => hlen (congrArg List.length hnil)

theorem reports_open (hno : ¬ Syscall.openFile.Unreported k) : Syscall.openFile.Reports k := by
  constructor
  show All Serves _ (scOpen.run k)
  unfold scOpen
  simp only [run_bind, all_bind, readRegister, run_look, all_done]
  refine all_user2System fun buffer pt hb => ?_
  have harg := stringArg_eq hb
  -- a refused call leaves `openState` alone
  have hrefused : ∀ k' : Kernel, k'.registers = k.registers.write 2 (-1) →
      k'.fileSystem.openState = k.fileSystem.openState → Syscall.openFile.Reported k k' := by
    intro k' hr hopen
    refine reported_error hr ?_ (by simp [Syscall.errors])
    rintro v ⟨name, slot, f, d, _, _, hnone, hsome, _⟩
    rw [hopen, hnone] at hsome
    cases hsome
  rw [run_ite]
  split_ifs with hlen
  · exact hrefused _ rfl rfl
  · simp only [run_bind, all_bind, run_look, all_done]
    rw [run_ite]
    split_ifs with htype
    · exact hrefused _ rfl rfl
    · simp only [run_bind, all_bind, run_look, all_done]
      rcases hslot : k.fileSystem.findFreeSlot with _ | slot
      · refine absurd ⟨⟨_, harg, ?_, ?_⟩, ?_, hslot⟩ hno
        · exact Nat.pos_of_ne_zero fun h => hlen (Or.inl h)
        · exact not_lt.mp fun h => hlen (Or.inr h)
        · by_contra h
          exact htype (not_or.mp h)
      · have hfree := FileSystem.findFreeSlot_spec hslot
        simp only [run_bind, all_bind, run_look, all_done]
        rcases ho : k.fileSystem.openFile (cstring buffer) (k.registers 5).toInt with _ | ⟨f, fs⟩
        · refine hrefused _ rfl ?_
          exact (congrArg (Function.update _ slot) hfree.symm).trans (Function.update_eq_self _ _)
        · obtain ⟨ht, hos, i, hfd, hname⟩ := FileSystem.openFile_spec ho
          refine reported_performed rfl ?_
          exact ⟨cstring buffer, slot, f, _, harg, rfl, hfree, Function.update_self _ _ _, ht, hfd,
            hname, rfl⟩

theorem reports_close : Syscall.close.Reports k := by
  constructor
  show All Serves _ (scClose.run k)
  unfold scClose
  simp only [run_bind, all_bind, readRegister, run_look, all_done]
  have hfile : (if 0 ≤ (k.registers 4).toInt ∧ (k.registers 4).toInt ≤ 9 then
      k.fileSystem.openState (k.registers 4).toInt.toNat else none) = k.fileArg 4 := rfl
  rw [hfile]
  rcases hf : k.fileArg 4 with _ | f
  · refine reported_error rfl ?_ (by simp [Syscall.errors])
    rintro v ⟨_, f, hf', _⟩
    rw [hf] at hf'
    cases hf'
  · simp only [run_bind, all_bind]
    refine all_fileOp fun _ fs hfs => ?_
    rw [Option.map_eq_some_iff] at hfs
    obtain ⟨h', hc, heq⟩ := hfs
    obtain ⟨-, rfl⟩ := heq
    obtain rfl := Host.close_eq_some hc
    refine reported_performed rfl ⟨rfl, f, hf, ?_, ?_⟩
    · exact Function.update_self _ _ _
    · exact Host.setFd_self _

theorem user2SystemLoop_length (virtAddr : Word) (n : ℕ) : ∀ (i : ℕ) (k : Kernel) {bytes k'},
    (user2SystemLoop virtAddr i n).run k = .done bytes k' → bytes.length ≤ n := by
  induction n with
  | zero =>
    intro i k bytes k' h
    cases h
    exact le_rfl
  | succ n ih =>
    intro i k bytes k' h
    unfold user2SystemLoop at h
    rcases readMemByte_cases (virtAddr + BitVec.ofNat 32 i) k with ⟨d, hr⟩ | ⟨w, pt, hr⟩
    · rw [run_bind, hr] at h; cases h
    · rw [run_bind, hr, Res.bind_done, run_ite] at h
      split_ifs at h
      · cases h
        exact Nat.le_add_left 1 n
      · rcases user2SystemLoop_cases virtAddr n (i + 1) { k with pageTable := pt } with
          ⟨d, hl⟩ | ⟨rest, pt', hl⟩
        · rw [run_bind, hl] at h; cases h
        · rw [run_bind, hl] at h
          cases h
          exact Nat.succ_le_succ (ih (i + 1) _ hl)

/-- The buffer of `User2System` has `limit + 1` bytes. -/
theorem user2System_length {virtAddr : Word} {limit : ℕ} {buffer : List Byte}
    (h : (user2System virtAddr limit).run k = .done buffer k') : buffer.length = limit + 1 := by
  unfold user2System at h
  split_ifs at h
  · cases h
  · rcases user2SystemLoop_cases virtAddr limit 0 k with ⟨d, hl⟩ | ⟨bytes, pt, hl⟩
    · rw [run_bind, hl] at h; cases h
    · rw [run_bind, hl] at h
      cases h
      have := user2SystemLoop_length virtAddr limit 0 k hl
      rw [List.length_append, List.length_replicate]
      omega

/-- The rule for a method of an open file. -/
theorem all_onFile_of {α : Type} {Q : α → Kernel → Prop} {id : ℕ} {f : OpenFile}
    {op : OpenFile → Host → Option (α × OpenFile × Host)}
    (hf : k.fileSystem.openState id = some f)
    (h : ∀ a f' h', op f k.fileSystem.host = some (a, f', h') →
      Q a { k with fileSystem := (k.fileSystem.setHost h').setSlot id (some f') }) :
    All Serves Q ((onFile id op).run k) := by
  refine all_fileOp fun a fs hfs => ?_
  simp only [hf, Option.bind_eq_bind, Option.bind_some, Option.bind_eq_some_iff, Option.pure_def,
    Option.some.injEq, Prod.mk.injEq] at hfs
  obtain ⟨⟨a', f', h'⟩, hop, rfl, rfl⟩ := hfs
  exact h a' f' h' hop

/-- The rule for `GetCurrentPos`. -/
theorem all_getCurrentPos {Q : ℤ → Kernel → Prop} {id : ℕ} {f : OpenFile}
    (hf : k.fileSystem.openState id = some f)
    (h : Q (k.fileSystem.host.tell f.file)
      { k with
        fileSystem := k.fileSystem.setSlot id
          (some { f with currentOffset := k.fileSystem.host.tell f.file }) }) :
    All Serves Q ((getCurrentPos id).run k) := by
  refine all_onFile_of hf fun a f' h' hop => ?_
  simp only [OpenFile.getCurrentPos, Option.some.injEq, Prod.mk.injEq] at hop
  obtain ⟨rfl, rfl, rfl⟩ := hop
  exact h

theorem fileArg_eq {num : ℕ} {f : OpenFile}
    (h : 0 ≤ (k.registers num).toInt ∧ (k.registers num).toInt ≤ 9)
    (hf : k.fileSystem.openState (k.registers num).toInt.toNat = some f) :
    k.fileArg num = some f := by
  unfold Kernel.fileArg
  rw [if_pos h, hf]

/-- Nothing was read when the file system is as before. -/
theorem not_read_of_eq (hfs : k'.fileSystem = k.fileSystem)
    (hc : (k.registers 5).toInt < 0 ∨ ∀ f, k.fileArg 6 = some f → f.type = 3) (v : Word) :
    ¬ k.Read k' v := by
  rintro ⟨f, hf, ⟨d, n, _, hd, hn, _, hle, hd'⟩ | ⟨line, e, rest, h2, h0, _⟩⟩
  · rw [hfs, hd, Option.some.injEq] at hd'
    have := congrArg Descriptor.offset hd'
    simp only at this
    omega
  · rcases hc with hc | hc
    · omega
    · have := hc f hf
      omega

theorem reports_read (hno : ¬ Syscall.read.Unreported k) : Syscall.read.Reports k := by
  constructor
  show All Serves _ (scRead.run k)
  unfold scRead
  simp only [run_bind, all_bind, readRegister, run_look, all_done]
  refine all_checkTransfer (fun k' hk' hfs hc => ?_) fun f h1 h2 h3 h4 => ?_
  · exact reported_error hk' (not_read_of_eq hfs hc) (by simp [Syscall.errors])
  · have hf := fileArg_eq h2 h3
    simp only [run_bind, all_bind]
    refine all_getCurrentPos h3 ?_
    refine all_user2System fun buffer pt _ => ?_
    rw [run_ite]
    split_ifs with h5
    · simp only [run_bind, all_bind]
      have hpos : 0 < (k.registers 5).toInt := by
        refine lt_of_le_of_ne (not_lt.mp h1) fun h0 => hno ⟨h0.symm, f, hf, h5⟩
      refine all_synchRead (fun _ k₁ _ hle => absurd hle (by omega)) ?_
      intro line e rest k₁ hk₁ _ hline
      refine all_system2User fun _ mem pt' => ?_
      by_cases he : e = .ctrlA
      · rw [if_pos he]
        refine reported_error (e := -1) rfl ?_ (by simp [Syscall.errors])
        rintro v ⟨f', hf', ⟨d, n, htype, _⟩ | ⟨line', e', rest', _, _, hline', he', _⟩⟩
        · rw [hf, Option.some.injEq] at hf'
          exact htype (hf' ▸ h5)
        · have hline : readLine (k.registers 5).toInt.toNat k.input = _ := hline
          rw [hline', Option.some.injEq, Prod.mk.injEq, Prod.mk.injEq] at hline
          exact he' (hline.2.1.trans he)
      · rw [if_neg he]
        have hv : BitVec.ofInt 32 (line.length : ℤ) = BitVec.ofNat 32 line.length :=
          BitVec.ofInt_natCast ..
        refine reported_performed (congrArg (k₁.registers.write 2) hv) ?_
        exact ⟨f, hf, Or.inr ⟨line, e, rest, h5, hpos.le, hline, he, rfl, rfl⟩⟩
    · simp only [run_bind, all_bind]
      refine all_onFile_of (f := { f with currentOffset := k.fileSystem.host.tell f.file })
        (Function.update_self _ _ _) fun bytes f' h' hread => ?_
      obtain ⟨d, hd, hle, hfile, hd'⟩ := OpenFile.read_spec rfl hread
      have hd : k.fileSystem.host.fds f.file = some d := hd
      rw [run_ite]
      split_ifs with hlen
      · simp only [run_bind, all_bind]
        refine all_getCurrentPos (f := f') (Function.update_self _ _ _) ?_
        refine all_system2User fun _ mem pt' => ?_
        have hnew : h'.tell f'.file = (d.offset + bytes.length : ℕ) := by
          rw [hfile, Host.tell_of_some hd']
        have hold : k.fileSystem.host.tell f.file = d.offset := Host.tell_of_some hd
        have hv : BitVec.ofInt 32 (h'.tell f'.file - k.fileSystem.host.tell f.file) =
            BitVec.ofNat 32 bytes.length := by
          rw [hnew, hold, Nat.cast_add, add_sub_cancel_left, BitVec.ofInt_natCast]
        refine reported_performed (congrArg (k.registers.write 2) hv) ⟨f, hf, Or.inl ?_⟩
        refine ⟨d, bytes.length, h5, hd, hlen, rfl, ?_, hd'⟩
        have := not_lt.mp h1
        omega
      · refine reported_error (e := -2) rfl ?_ (by simp [Syscall.errors])
        have hnil : bytes.length = 0 := Nat.eq_zero_of_not_pos hlen
        rw [hnil] at hd'
        rintro v ⟨g, hg, ⟨d₁, n, _, hd₁, hn, _, _, hd₂⟩ | ⟨_, _, _, h2', _⟩⟩
        · rw [hf, Option.some.injEq] at hg
          subst hg
          rw [hd, Option.some.injEq] at hd₁
          subst hd₁
          have hd₂ : h'.fds f.file = _ := hd₂
          rw [hd', Option.some.injEq] at hd₂
          have := congrArg Descriptor.offset hd₂
          simp only at this
          omega
        · rw [hf, Option.some.injEq] at hg
          exact h5 (hg ▸ h2')

theorem not_written_of_eq (hfs : k'.fileSystem = k.fileSystem) (v : Word) : ¬ k.Written k' v := by
  rintro ⟨f, d, bytes, _, hd, hne, _, _, hd', _⟩
  rw [hfs, hd, Option.some.injEq] at hd'
  have := congrArg Descriptor.offset hd'
  have := List.length_pos_iff.mpr hne
  simp only at *
  omega

theorem reports_write (hno : ¬ Syscall.write.Unreported k) : Syscall.write.Reports k := by
  constructor
  show All Serves _ (scWrite.run k)
  unfold scWrite
  simp only [run_bind, all_bind, readRegister, run_look, all_done]
  refine all_checkTransfer (fun k' hk' hfs _ => ?_) fun f h1 h2 h3 h4 => ?_
  · exact reported_error hk' (not_written_of_eq hfs) (by simp [Syscall.errors])
  · have hf := fileArg_eq h2 h3
    simp only [run_bind, all_bind]
    refine all_getCurrentPos h3 ?_
    refine all_user2System fun buffer pt hb => ?_
    have hbuf := user2System_length hb
    rw [run_ite]
    split_ifs with h5
    · exact all_writeStdoutLoop _ _
    · simp only [run_bind, all_bind]
      refine all_onFile_of (f := { f with currentOffset := k.fileSystem.host.tell f.file })
        (Function.update_self _ _ _) fun written f' h' hwrite => ?_
      obtain ⟨d, hd, rfl, hfile, hd', hcont⟩ := OpenFile.write_spec rfl hwrite
      have hd : k.fileSystem.host.fds f.file = some d := hd
      have hlen : (buffer.take (k.registers 5).toInt.toNat).length = (k.registers 5).toInt.toNat := by
        rw [List.length_take, hbuf]
        omega
      generalize buffer.take (k.registers 5).toInt.toNat = bytes at *
      rw [run_ite]
      split_ifs with hw
      · simp only [run_bind, all_bind]
        refine all_getCurrentPos (f := f') (Function.update_self _ _ _) ?_
        have hnew : h'.tell f'.file = (d.offset + bytes.length : ℕ) := by
          rw [hfile, Host.tell_of_some hd']
        have hold : k.fileSystem.host.tell f.file = d.offset := Host.tell_of_some hd
        have hv : BitVec.ofInt 32 (h'.tell f'.file - k.fileSystem.host.tell f.file) =
            BitVec.ofNat 32 bytes.length := by
          rw [hnew, hold, Nat.cast_add, add_sub_cancel_left, BitVec.ofInt_natCast]
        refine reported_performed (congrArg (k.registers.write 2) hv) ?_
        refine ⟨f, d, bytes, hf, hd, ?_, rfl, ?_, hd', hcont⟩
        · exact List.length_pos_iff.mp (by omega)
        · have := not_lt.mp h1
          omega
      · refine absurd ⟨?_, f, hf, h4, h5, by rw [hd]; nofun⟩ hno
        have := not_lt.mp h1
        omega

theorem reports_seek : Syscall.seek.Reports k := by
  constructor
  show All Serves _ (scSeek.run k)
  unfold scSeek
  simp only [run_bind, all_bind, readRegister, run_look, all_done, run_ite]
  have hrefused : ∀ k' : Kernel, k'.registers = k.registers.write 2 (-1) →
      (k.fileArg 5 = none ∨ (k.registers 5).toInt = 0 ∨ (k.registers 5).toInt = 1) →
        Syscall.seek.Reported k k' := by
    intro k' hk' hc
    refine reported_error hk' ?_ (by simp [Syscall.errors])
    rintro v ⟨f, d, hf, h0, h1, _⟩
    rcases hc with hc | hc | hc
    · rw [hc] at hf; cases hf
    · exact h0 hc
    · exact h1 hc
  by_cases h1 : (k.registers 5).toInt < 0 ∨ (k.registers 5).toInt > 9
  · rw [if_pos h1]
    refine hrefused _ rfl (Or.inl ?_)
    unfold Kernel.fileArg
    rw [if_neg (by omega)]
  · have hr : 0 ≤ (k.registers 5).toInt ∧ (k.registers 5).toInt ≤ 9 := by omega
    rw [if_neg h1]
    rcases hf : k.fileSystem.openState (k.registers 5).toInt.toNat with _ | f
    · refine hrefused _ rfl (Or.inl ?_)
      unfold Kernel.fileArg
      rw [if_pos hr, hf]
    · simp only [Res.bind_done, run_ite]
      by_cases h2 : (k.registers 5).toInt = 0 ∨ (k.registers 5).toInt = 1
      · rw [if_pos h2]
        exact hrefused _ rfl (Or.inr h2)
      · have harg := fileArg_eq hr hf
        rw [not_or] at h2
        rw [if_neg (not_or.mpr h2)]
        split_ifs with hend
        · simp only [run_bind, all_bind]
          refine all_onFile_of hf fun len f₁ h₁ hlen => ?_
          simp only [Option.bind_eq_bind, Option.bind_eq_some_iff, Option.pure_def,
            Option.some.injEq, Prod.mk.injEq] at hlen
          obtain ⟨⟨len', h₁'⟩, hlen, rfl, rfl, rfl⟩ := hlen
          obtain ⟨d, hd, rfl, hcont, o, hd₁⟩ := OpenFile.length_spec hlen
          refine all_onFile_of (f := f) (Function.update_self _ _ _) fun _ f₂ h₂ hseek => ?_
          rw [Option.map_eq_some_iff] at hseek
          obtain ⟨⟨f₂', h₂'⟩, hseek, heq⟩ := hseek
          simp only [Prod.mk.injEq, true_and] at heq
          obtain ⟨rfl, rfl⟩ := heq
          obtain ⟨d', hd', hpos, _, hcont', hd₂⟩ := OpenFile.seek_spec hseek
          have hd' : h₁'.fds f.file = some d' := hd'
          rw [hd₁, Option.some.injEq] at hd'
          subst hd'
          have hcont' : h₂'.contents = h₁'.contents := hcont'
          have hv : BitVec.ofInt 32 ((k.fileSystem.host.contents d.inode).length : ℤ) =
              BitVec.ofNat 32 (k.fileSystem.host.contents d.inode).length := BitVec.ofInt_natCast ..
          refine reported_performed (congrArg (k.registers.write 2) hv) ?_
          refine ⟨f, _, harg, h2.1, h2.2, hd₂, rfl, ?_⟩
          rw [if_pos hend]
          show _ = (h₂'.contents d.inode).length
          rw [hcont', hcont, Int.toNat_natCast]
        · simp only [run_bind, all_bind, run_pure, all_done]
          refine all_onFile_of hf fun _ f₂ h₂ hseek => ?_
          rw [Option.map_eq_some_iff] at hseek
          obtain ⟨⟨f₂', h₂'⟩, hseek, heq⟩ := hseek
          simp only [Prod.mk.injEq, true_and] at heq
          obtain ⟨rfl, rfl⟩ := heq
          obtain ⟨d', hd', hpos, _, hcont', hd₂⟩ := OpenFile.seek_spec hseek
          have hv : BitVec.ofInt 32 (k.registers 4).toInt =
              BitVec.ofNat 32 (k.registers 4).toInt.toNat := by
            rw [← BitVec.ofInt_natCast, Int.toNat_of_nonneg hpos]
          refine reported_performed (congrArg (k.registers.write 2) hv) ?_
          refine ⟨f, _, harg, h2.1, h2.2, hd₂, rfl, ?_⟩
          rw [if_neg hend]
          exact Int.toNat_of_nonneg hpos

/-- A line without characters has an end. -/
theorem readLine_nil {n : ℕ} (hn : 0 < n) (input : List Byte) {e : LineEnd} {rest : List Byte}
    (h : readLine n input = some ([], e, rest)) : e = .newline ∨ e = .ctrlA := by
  obtain ⟨n, rfl⟩ := Nat.exists_eq_add_one.mpr hn
  induction input with
  | nil => cases h
  | cons ch input ih =>
    unfold readLine at h
    split_ifs at h
    · exact ih h
    · cases h
      exact Or.inl rfl
    · cases h
      exact Or.inr rfl
    · rw [Option.map_eq_some_iff] at h
      obtain ⟨_, _, heq⟩ := h
      cases heq

theorem reports_readInt (hno : ¬ Syscall.readInt.Unreported k) : Syscall.readInt.Reports k := by
  constructor
  show All Serves _ (scReadInt.run k)
  unfold scReadInt putByte
  simp only [run_bind, all_bind]
  generalize List.replicate (maxBufferSize + 1) (0 : Byte) = into
  generalize hn : (maxBufferSize : ℤ) = n
  have hn0 : 0 < n := by rw [← hn]; decide
  refine all_synchRead (fun _ k₁ _ hle => absurd hle (by omega)) ?_
  intro line e rest k₁ hk₁ _ hline
  rw [← hn, Int.toNat_natCast] at hline
  by_cases he : e = .ctrlA
  · rw [if_pos he, if_neg (by simp)]
    trivial
  · simp only [if_neg he, List.append_assoc]
    generalize List.replicate (n.toNat - line.length) 0 ++ into.drop n.toNat = tail
    have htake : ((line ++ tail).set (line.length : ℤ).toNat 0).take (line.length : ℤ).toNat =
        line := by
      rw [Int.toNat_natCast, List.take_set_of_le le_rfl, List.take_left]
    by_cases hin : 0 ≤ (line.length : ℤ) ∧ (line.length : ℤ) < (line ++ tail).length
    · rw [if_pos hin, run_pure, all_done, htake, run_ite]
      split_ifs with hpos
      · rcases hp : parseInt line with _ | result
        · refine reported_error (e := 0) rfl ?_ (by simp [Syscall.errors])
          rintro v ⟨line', e', rest', m, hline', _, hint, rfl⟩
          rw [hline, Option.some.injEq, Prod.mk.injEq] at hline'
          obtain ⟨rfl, _⟩ := hline'
          have := parseInt_eq_some.mpr ⟨m, hint, rfl⟩
          rw [hp] at this
          cases this
        · obtain ⟨m, hint, rfl⟩ := parseInt_eq_some.mp hp
          exact reported_performed rfl ⟨line, e, rest, m, hline, rfl, hint, rfl⟩
      · have hnil : line = [] := List.eq_nil_of_length_eq_zero (by omega)
        subst hnil
        rcases readLine_nil (by decide) k.input hline with rfl | rfl
        · exact absurd ⟨rest, hline⟩ hno
        · exact absurd rfl he
    · rw [if_neg hin]
      trivial

theorem reports_exec (hk : k.pTab.Normal) : Syscall.exec.Reports k := by
  constructor
  show All Serves _ (scExec.run k)
  unfold scExec
  simp only [run_bind, all_bind, readRegister, run_look, all_done]
  refine all_user2System fun buffer pt hb => ?_
  have hrefused : ∀ k' : Kernel, k'.registers = k.registers.write 2 (-1) →
      k'.pTab = k.pTab → Syscall.exec.Reported k k' := by
    intro k' hk' hp
    refine reported_error hk' ?_ (by simp [Syscall.errors])
    rintro v ⟨log, a, slot, hlog, hmem, _⟩
    rw [hp, List.self_eq_append_right] at hlog
    rw [hlog] at hmem
    cases hmem
  rw [run_ite]
  split_ifs with hlen
  · exact hrefused _ rfl rfl
  · simp only [run_bind, all_bind, run_look, all_done]
    rcases ho : k.fileSystem.openFile (cstring buffer) 0 with _ | ⟨f, fs⟩
    · exact hrefused _ rfl rfl
    · rintro pid k₁ ⟨_, log, hcall⟩
      simp only [run_bind, execRest, all_bind]
      refine all_fileOp fun _ fs' _ => ?_
      have hlog : k₁.pTab.log = k.pTab.log ++ (log ++ [Event.execReturned k.thread pid]) := hcall.1
      rcases hcall.exec hk with ⟨rfl, hno⟩ | ⟨a, slot, rfl, hmem⟩
      · refine reported_error (e := -1) rfl ?_ (by simp [Syscall.errors])
        rintro v ⟨log', a, slot, hlog', hmem, _⟩
        have hlog' : k₁.pTab.log = k.pTab.log ++ log' := hlog'
        rw [hlog] at hlog'
        obtain rfl := List.append_cancel_left hlog'
        rcases List.mem_append.mp hmem with h | h
        · exact hno a slot h
        · simp at h
      · have hv : BitVec.ofInt 32 (slot : ℤ) = BitVec.ofNat 32 slot := BitVec.ofInt_natCast ..
        refine reported_performed (congrArg (k₁.registers.write 2) hv) ?_
        exact ⟨_, a, slot, hlog, List.mem_append_left _ hmem, rfl⟩

theorem reports_join (hk : k.pTab.Normal) : Syscall.join.Reports k := by
  constructor
  rintro res k₁ ⟨_, log, hcall⟩
  show All Serves _ ((joinRest res).run k₁)
  have hlog : k₁.pTab.log = k.pTab.log ++ (log ++ [Event.joinReturned k.thread _ res]) := hcall.1
  rcases hcall.join hk with ⟨rfl, hno⟩ | ⟨rfl, hmem⟩
  · refine reported_error (e := -1) rfl ?_ (by simp [Syscall.errors])
    rintro v ⟨log', ec, hlog', hmem, _⟩
    have hlog' : k₁.pTab.log = k.pTab.log ++ log' := hlog'
    rw [hlog] at hlog'
    obtain rfl := List.append_cancel_left hlog'
    rcases List.mem_append.mp hmem with h | h
    · exact hno _ _ h
    · simp at h
  · refine reported_performed (v := 0) rfl ?_
    exact ⟨_, 0, hlog, List.mem_append_left _ hmem, rfl⟩

/-- The end of the three handlers of semaphores: success. -/
theorem all_reportSem_zero (m : Message) (leave : Leave) {c : Syscall} {k₁ : Kernel}
    (h : ∀ k', k'.semTab = k₁.semTab → k'.semLog = k₁.semLog → c.Performed k k' 0) :
    All Serves (fun _ k' => c.Reported k k') ((reportSem m leave 0).run k₁) :=
  reported_performed (v := 0) rfl (h _ rfl rfl)

/-- An error. -/
theorem all_reportSem_error (m : Message) (leave : Leave) {c : Syscall} {k₁ : Kernel}
    (he : -1 ∈ c.errors) (h : ∀ k' v, ¬ c.Performed k k' v) :
    All Serves (fun _ k' => c.Reported k k') ((reportSem m leave (-1)).run k₁) :=
  reported_error (e := -1) rfl (h _) he

theorem reports_createSemaphore (hno : ¬ Syscall.createSemaphore.Unreported k) :
    Syscall.createSemaphore.Reports k := by
  constructor
  show All Serves _ (scCreateSemaphore.run k)
  unfold scCreateSemaphore stableCreate
  simp only [run_bind, all_bind, readRegister, run_look, all_done]
  refine all_user2System fun buffer pt hb => ?_
  have harg := stringArg_eq hb
  rcases hl : k.semTab.lookup (cstring buffer) with ⟨i, s⟩ | _ | _
  · refine all_reportSem_error .createSemaphoreError .brk (by simp [Syscall.errors]) ?_
    rintro k' v ⟨_, name, i', s', hname, hmiss, _⟩
    rw [harg, Option.some.injEq] at hname
    rw [← hname, hl] at hmiss
    cases hmiss
  · exact absurd ⟨_, harg, hl⟩ hno
  · trivial

theorem reports_up : Syscall.up.Reports k := by
  constructor
  show All Serves _ (scUp.run k)
  unfold scUp stableSignal
  simp only [run_bind, all_bind, readRegister, run_look, all_done]
  refine all_user2System fun buffer pt hb => ?_
  have harg := stringArg_eq hb
  rcases hl : k.semTab.lookup (cstring buffer) with ⟨i, s⟩ | _ | _
  · refine all_reportSem_zero .upError .ret fun k' hk' _ => ?_
    exact ⟨rfl, cstring buffer, i, s, harg, hl, hk'⟩
  · refine all_reportSem_error .upError .ret (by simp [Syscall.errors]) ?_
    rintro k' v ⟨_, name, i, s, hname, hfound, _⟩
    rw [harg, Option.some.injEq] at hname
    rw [← hname, hl] at hfound
    cases hfound
  · trivial

theorem reports_down : Syscall.down.Reports k := by
  constructor
  show All Serves _ (scDown.run k)
  unfold scDown stableWait
  simp only [run_bind, all_bind, readRegister, run_look, all_done]
  refine all_user2System fun buffer pt hb => ?_
  have harg := stringArg_eq hb
  rcases hl : k.semTab.lookup (cstring buffer) with ⟨i, s⟩ | _ | _
  · rintro _ k₁ ⟨_, events, hlog, htab, hlast⟩
    refine all_reportSem_zero .downError .brk fun k' hk' hlog' => ?_
    refine ⟨rfl, cstring buffer, i, s, harg, hl, events, ?_, hk'.trans htab, hlast⟩
    exact hlog'.trans hlog
  · refine all_reportSem_error .downError .brk (by simp [Syscall.errors]) ?_
    rintro k' v ⟨_, name, i, s, hname, hfound, _⟩
    rw [harg, Option.some.injEq] at hname
    rw [← hname, hl] at hfound
    cases hfound
  · trivial

theorem reports (hk : k.pTab.Normal) {c : Syscall} (hc : c.returnsValue = true)
    (hno : ¬ c.Unreported k) : c.Reports k := by
  cases c with
  | create => exact reports_create
  | openFile => exact reports_open hno
  | close => exact reports_close
  | read => exact reports_read hno
  | write => exact reports_write hno
  | seek => exact reports_seek
  | readInt => exact reports_readInt hno
  | exec => exact reports_exec hk
  | join => exact reports_join hk
  | createSemaphore => exact reports_createSemaphore hno
  | up => exact reports_up
  | down => exact reports_down
  | _ => cases hc

end Handlers

/-! ## The states where it does not -/

section Unreported

variable {k : Kernel}

/-- The handler can return without a report. -/
def Syscall.Misreports (k : Kernel) (c : Syscall) : Prop :=
  ∃ leave k', Returns Serves (c.handler.run k) leave k' ∧ ¬ c.Reported k k'

theorem Kernel.mine_refl (k : Kernel) : k.Mine k := ⟨rfl, rfl, rfl, rfl, fun _ _ _ => rfl⟩

theorem onFile_run {α : Type} {id : ℕ} {f f' : OpenFile} {h' : Host} {a : α}
    {op : OpenFile → Host → Option (α × OpenFile × Host)}
    (hf : k.fileSystem.openState id = some f) (hop : op f k.fileSystem.host = some (a, f', h')) :
    (onFile id op).run k = .done a
      { k with fileSystem := (k.fileSystem.setHost h').setSlot id (some f') } := by
  unfold onFile fileOp
  simp [hf, hop]

theorem getCurrentPos_run {id : ℕ} {f : OpenFile} (hf : k.fileSystem.openState id = some f) :
    (getCurrentPos id).run k = .done (k.fileSystem.host.tell f.file)
      { k with
        fileSystem := k.fileSystem.setSlot id
          (some { f with currentOffset := k.fileSystem.host.tell f.file }) } :=
  onFile_run hf rfl

theorem checkTransfer_run {charcount id wrongType : ℤ} {m₁ m₂ m₃ m₄ : Message}
    {go : OpenFile → KernelM Leave} {f : OpenFile} (h1 : ¬ charcount < 0)
    (h2 : 0 ≤ id ∧ id ≤ 9) (hf : k.fileSystem.openState id.toNat = some f)
    (ht : f.type ≠ wrongType) :
    (checkTransfer charcount id wrongType m₁ m₂ m₃ m₄ go).run k = (go f).run k := by
  unfold checkTransfer
  rw [if_neg h1, if_neg (by omega), run_bind, run_look, Res.bind_done, hf]
  dsimp only
  rw [if_neg ht]

theorem fileArg_eq_some {num : ℕ} {f : OpenFile} (h : k.fileArg num = some f) :
    (0 ≤ (k.registers num).toInt ∧ (k.registers num).toInt ≤ 9) ∧
      k.fileSystem.openState (k.registers num).toInt.toNat = some f := by
  unfold Kernel.fileArg at h
  split_ifs at h with hr
  exact ⟨hr, h⟩

end Unreported

/-! ## Back in the user program -/

/-- The outcome does not depend on the program counters. -/
theorem Syscall.reported_congr {k k₁ k₂ : Kernel} {c : Syscall}
    (hr : k₂.registers 2 = k₁.registers 2) (hfs : k₂.fileSystem = k₁.fileSystem)
    (hin : k₂.input = k₁.input) (hp : k₂.pTab = k₁.pTab) (hs : k₂.semTab = k₁.semTab)
    (hl : k₂.semLog = k₁.semLog) :
    c.Reported k k₂ ↔ c.Reported k k₁ := by
  have hperf : ∀ v, c.Performed k k₂ v ↔ c.Performed k k₁ v := by
    intro v
    cases c <;> simp only [Syscall.Performed, Kernel.Created, Kernel.Opened, Kernel.Closed,
      Kernel.Read, Kernel.Written, Kernel.Sought, Kernel.ReadInt, Kernel.Executed, Kernel.Joined,
      Kernel.SemaphoreCreated, Kernel.Upped, Kernel.Downed, Kernel.Passed, hfs, hin, hp, hs, hl]
  unfold Syscall.Reported
  rw [hr, hperf]
  simp only [hperf]

theorem leaveSyscall_run {c : Syscall} {k : Kernel} (leave : Leave) (k₁ : Kernel) :
    ∃ k₂, (leaveSyscall leave).run k₁ = .done () k₂ ∧ (c.Reported k k₂ ↔ c.Reported k k₁) := by
  cases leave with
  | brk =>
    refine ⟨_, rfl, Syscall.reported_congr ?_ rfl rfl rfl rfl rfl⟩
    simp [Registers.write]
  | ret => exact ⟨k₁, rfl, Iff.rfl⟩

theorem exceptionHandler_run {k : Kernel} {c : Syscall}
    (hc : Syscall.ofNumber (k.registers 2) = some c) :
    (exceptionHandler .syscallException).run k =
      (c.handler.run k).bind fun leave k₁ => (leaveSyscall leave).run k₁ := by
  unfold exceptionHandler
  simp only [run_bind, readRegister, run_look, Res.bind_done, hc]

theorem Syscall.Misreports.returns {k : Kernel} {c : Syscall} (h : c.Misreports k)
    (hc : Syscall.ofNumber (k.registers 2) = some c) :
    ∃ k', Returns Serves ((exceptionHandler .syscallException).run k) () k' ∧
      ¬ c.Reported k k' := by
  obtain ⟨leave, k₁, hret, hno⟩ := h
  obtain ⟨k₂, hleave, hiff⟩ := leaveSyscall_run (c := c) (k := k) leave k₁
  rw [exceptionHandler_run hc]
  refine ⟨k₂, hret.bind ?_, fun hrep => hno (hiff.mp hrep)⟩
  rw [hleave]
  exact .done _ _

end Nachos
