import Nachos.Userprog.Exception

/-!
# How a system call returns

A case of `ExceptionHandler` that leaves by `break` comes to `IncreatePC`; one that leaves by
`return` does not, and the user program makes the same system call again. `LeavesByReturn` lists the
states in which this happens. No handler touches the program counters itself.
-/

namespace Nachos

open Prog

/-! ## The parts of the handlers -/

section Parts

variable {α : Type} {k : Kernel} {Q : α → Kernel → Prop}

theorem access_cases (f : Kernel → Access (α × Kernel)) (k : Kernel) :
    (∃ d, (access f).run k = .stop d) ∨ ∃ a k', f k = .ok (a, k') ∧ (access f).run k = .done a k' := by
  unfold access
  dsimp only
  rcases h : f k with ⟨a, k'⟩ | which | _
  · exact Or.inr ⟨a, k', rfl, rfl⟩
  · exact Or.inl ⟨_, rfl⟩
  · exact Or.inl ⟨_, rfl⟩

/-- Reading user memory changes the page table only. -/
theorem readMemByte_cases (addr : Word) (k : Kernel) :
    (∃ d, (readMemByte addr).run k = .stop d) ∨
      ∃ w pt, (readMemByte addr).run k = .done w { k with pageTable := pt } := by
  unfold readMemByte
  rcases access_cases _ k with h | ⟨w, k', hf, h⟩
  · exact Or.inl h
  · refine Or.inr ?_
    rcases hm : readMem k.memory k.pageTable addr 1 with ⟨v, pt⟩ | which | _ <;> rw [hm] at hf <;>
      cases hf
    exact ⟨_, _, h⟩

theorem writeMemByte_cases (addr value : Word) (k : Kernel) :
    (∃ d, (writeMemByte addr value).run k = .stop d) ∨
      ∃ m pt, (writeMemByte addr value).run k = .done () { k with memory := m, pageTable := pt } := by
  unfold writeMemByte
  rcases access_cases _ k with h | ⟨w, k', hf, h⟩
  · exact Or.inl h
  · refine Or.inr ?_
    rcases hm : writeMem k.memory k.pageTable addr 1 value with ⟨m, pt⟩ | which | _ <;>
      rw [hm] at hf <;> cases hf
    exact ⟨_, _, h⟩

theorem user2SystemLoop_cases (virtAddr : Word) (n : ℕ) : ∀ (i : ℕ) (k : Kernel),
    (∃ d, (user2SystemLoop virtAddr i n).run k = .stop d) ∨
      ∃ bytes pt, (user2SystemLoop virtAddr i n).run k = .done bytes { k with pageTable := pt } := by
  induction n with
  | zero => exact fun i k => Or.inr ⟨[], k.pageTable, rfl⟩
  | succ n ih =>
    intro i k
    unfold user2SystemLoop
    rcases readMemByte_cases (virtAddr + BitVec.ofNat 32 i) k with ⟨d, h⟩ | ⟨w, pt, h⟩
    · exact Or.inl ⟨d, by rw [run_bind, h]; rfl⟩
    · rw [run_bind, h, Res.bind_done, run_ite]
      split_ifs
      · exact Or.inr ⟨[0], pt, rfl⟩
      · rcases ih (i + 1) { k with pageTable := pt } with ⟨d, h'⟩ | ⟨bytes, pt', h'⟩
        · exact Or.inl ⟨d, by rw [run_bind, h']; rfl⟩
        · exact Or.inr ⟨_, pt', by rw [run_bind, h', Res.bind_done, run_pure]⟩

theorem user2System_cases (virtAddr : Word) (limit : ℕ) (k : Kernel) :
    (∃ d, (user2System virtAddr limit).run k = .stop d) ∨
      ∃ buffer pt, (user2System virtAddr limit).run k = .done buffer { k with pageTable := pt } := by
  unfold user2System
  split_ifs
  · exact Or.inl ⟨_, rfl⟩
  · rcases user2SystemLoop_cases virtAddr limit 0 k with ⟨d, h⟩ | ⟨bytes, pt, h⟩
    · exact Or.inl ⟨d, by rw [run_bind, h]; rfl⟩
    · exact Or.inr ⟨_, pt, by rw [run_bind, h, Res.bind_done, run_pure]⟩

/-- The rule for `User2System`. -/
theorem all_user2System {virtAddr : Word} {limit : ℕ} {Q : List Byte → Kernel → Prop}
    (h : ∀ buffer pt, (user2System virtAddr limit).run k = .done buffer { k with pageTable := pt } →
      Q buffer { k with pageTable := pt }) : All Serves Q ((user2System virtAddr limit).run k) := by
  rcases user2System_cases virtAddr limit k with ⟨d, hs⟩ | ⟨buffer, pt, hs⟩
  · rw [hs]; trivial
  · rw [hs]; exact h buffer pt hs

/-- `System2User` changes memory and the page table only. -/
theorem all_system2UserLoop {virtAddr : Word} {buffer : List Byte} (n : ℕ) :
    ∀ (i : ℕ) (k : Kernel), All Serves (fun (_ : ℤ) k' => ∃ m pt,
      k' = { k with memory := m, pageTable := pt }) ((system2UserLoop virtAddr buffer i n).run k) := by
  induction n with
  | zero => exact fun i k => ⟨k.memory, k.pageTable, rfl⟩
  | succ n ih =>
    intro i k
    unfold system2UserLoop
    rcases buffer[i]? with _ | ch
    · trivial
    · simp only [run_bind, all_bind]
      rcases writeMemByte_cases (virtAddr + BitVec.ofNat 32 i) (ch.signExtend 32) k with
        ⟨d, h⟩ | ⟨m, pt, h⟩
      · rw [h]; trivial
      · rw [h, all_done, run_ite]
        split_ifs
        · exact ⟨m, pt, rfl⟩
        · refine (ih (i + 1) _).mono ?_
          rintro _ _ ⟨m', pt', rfl⟩
          exact ⟨m', pt', rfl⟩

theorem all_system2User {virtAddr : Word} {len : ℤ} {buffer : List Byte}
    {Q : ℤ → Kernel → Prop} (h : ∀ r m pt, Q r { k with memory := m, pageTable := pt }) :
    All Serves Q ((system2User virtAddr len buffer).run k) := by
  unfold system2User
  rw [run_ite, run_ite]
  split_ifs
  · exact h (-1) k.memory k.pageTable
  · exact h len k.memory k.pageTable
  · refine (all_system2UserLoop len.toNat 0 k).mono ?_
    rintro r _ ⟨m, pt, rfl⟩
    exact h r m pt

/-- Calls of the file system change it only. -/
theorem all_fileOp {f : FileSystem → Option (α × FileSystem)}
    (h : ∀ a fs, f k.fileSystem = some (a, fs) → Q a { k with fileSystem := fs }) :
    All Serves Q ((fileOp f).run k) := by
  unfold fileOp
  dsimp only
  rcases hf : f k.fileSystem with _ | ⟨a, fs⟩
  · trivial
  · exact h a fs hf

/-- The rule for `SynchConsole::Read`. -/
theorem all_synchRead {into : List Byte} {n : ℤ} {Q : List Byte × ℤ → Kernel → Prop}
    (hnone : ∀ (ch : ℤ) k₁, k.Mine k₁ → n ≤ 0 → Q (into, if ch = 1 then -1 else 0) k₁)
    (hline : ∀ line e rest k₁, k.Mine k₁ → 0 < n → readLine n.toNat k.input = some (line, e, rest) →
      Q (line ++ List.replicate (n.toNat - line.length) 0 ++ into.drop n.toNat,
        if e = .ctrlA then -1 else (line.length : ℤ)) { k₁ with input := rest }) :
    All Serves Q ((synchRead into n).run k) := by
  unfold synchRead
  rw [run_ite]
  split_ifs with _ hn
  · trivial
  · intro _ k₁ hk₁
    rintro ch k₂ rfl
    exact hnone ch _ hk₁ hn
  · intro _ k₁ hk₁
    simp only [run_bind, run_look, Res.bind_done]
    rcases hl : readLine n.toNat k₁.input with _ | ⟨line, e, rest⟩
    · trivial
    · rw [hk₁.input] at hl
      exact hline line e rest k₁ hk₁ (not_le.mp hn) hl

/-- It leaves the registers alone. -/
theorem all_synchRead_registers {into : List Byte} {n : ℤ} {Q : List Byte × ℤ → Kernel → Prop}
    (h : ∀ r k', k'.registers = k.registers → Q r k') : All Serves Q ((synchRead into n).run k) :=
  all_synchRead (fun _ _ hk₁ _ => h _ _ hk₁.registers) fun _ _ _ _ hk₁ _ _ => h _ _ hk₁.registers

/-- `SynchConsole::Write` leaves the registers alone. -/
theorem all_synchWrite {from_ : List Byte} {n : ℕ} {Q : Unit → Kernel → Prop}
    (h : ∀ k', k'.registers = k.registers → Q () k') : All Serves Q ((synchWrite from_ n).run k) := by
  unfold synchWrite
  rw [run_ite]
  split_ifs
  · trivial
  · exact fun _ k' hk' => h k' hk'.1.registers

end Parts

/-! ## The condition -/

/-- The string at the address in register 4, as `User2System` reads it. -/
def Kernel.stringArg (k : Kernel) : Option Name :=
  match (user2System (k.registers 4) (maxFileLength + 1)).run k with
  | .done buffer _ => some (cstring buffer)
  | _ => none

/-- `openState[id]` for the id in a register. -/
def Kernel.fileArg (k : Kernel) (num : ℕ) : Option OpenFile :=
  if 0 ≤ (k.registers num).toInt ∧ (k.registers num).toInt ≤ 9 then
    k.fileSystem.openState (k.registers num).toInt.toNat
  else none

/-- The handler leaves by `return`. -/
def Syscall.LeavesByReturn (k : Kernel) : Syscall → Prop
  | .openFile => ∃ name, k.stringArg = some name ∧ (name.length = 0 ∨ maxFileLength < name.length ∨
      (k.registers 5 ≠ 0 ∧ k.registers 5 ≠ 1))
  | .read => (k.registers 5).toInt < 0 ∨ ∀ f, k.fileArg 6 = some f → f.type = 2 ∨ f.type = 3
  | .write => (k.registers 5).toInt < 0 ∨ ∀ f, k.fileArg 6 = some f → f.type = 2
  | .seek => k.fileArg 5 = none ∨ (k.registers 5).toInt = 0 ∨ (k.registers 5).toInt = 1
  | .exec => ∃ name, k.stringArg = some name ∧ (name.length = 0 ∨ maxFileLength < name.length ∨
      k.fileSystem.openFile name 0 = none)
  | .up => ∃ name, k.stringArg = some name ∧ k.semTab.lookup name = .missing
  | _ => False

/-- All registers but the second are as before. -/
def Kernel.Kept (k k' : Kernel) : Prop := ∀ num, num ≠ 2 → k'.registers num = k.registers num

theorem Kernel.kept_of_eq {k k' : Kernel} (h : k'.registers = k.registers) : k.Kept k' :=
  fun _ _ => by rw [h]

theorem Kernel.kept_write {k k' : Kernel} {v : Word}
    (h : k'.registers = k.registers.write 2 v) : k.Kept k' :=
  fun _ hn => by rw [h, Registers.write_of_ne hn]

/-! ## The handlers -/

section Handlers

variable {k : Kernel}

theorem stringArg_eq {buffer : List Byte} {k' : Kernel}
    (h : (user2System (k.registers 4) (maxFileLength + 1)).run k = .done buffer k') :
    k.stringArg = some (cstring buffer) := by
  unfold Kernel.stringArg
  rw [h]

/-- The handler keeps the registers and leaves as the condition says. -/
structure Syscall.Leaves (k : Kernel) (c : Syscall) : Prop where
  all : All Serves (fun leave k' => k.Kept k' ∧ (leave = .ret ↔ c.LeavesByReturn k))
    (c.handler.run k)

theorem leaves_create : Syscall.create.Leaves k := by
  constructor
  show All Serves _ (scCreate.run k)
  unfold scCreate
  simp only [run_bind, all_bind, readRegister, run_look, all_done]
  refine all_user2System fun buffer pt _ => ?_
  rw [run_ite]
  split_ifs
  · exact ⟨k.kept_write rfl, by simp [Syscall.LeavesByReturn]⟩
  · simp only [run_bind, all_bind]
    refine all_fileOp fun _ fs _ => ?_
    exact ⟨k.kept_write rfl, by simp [Syscall.LeavesByReturn]⟩

theorem leaves_open : Syscall.openFile.Leaves k := by
  constructor
  show All Serves _ (scOpen.run k)
  unfold scOpen
  simp only [run_bind, all_bind, readRegister, run_look, all_done]
  refine all_user2System fun buffer pt hb => ?_
  have harg := stringArg_eq hb
  rw [run_ite]
  split_ifs with hlen
  · refine ⟨k.kept_write rfl, ?_⟩
    simp only [Syscall.LeavesByReturn, harg, Option.some.injEq, exists_eq_left', true_iff]
    exact hlen.imp_right Or.inl
  · simp only [run_bind, all_bind, run_look, all_done]
    rw [run_ite]
    split_ifs with htype
    · refine ⟨k.kept_write rfl, ?_⟩
      simp only [Syscall.LeavesByReturn, harg, Option.some.injEq, exists_eq_left', true_iff]
      exact Or.inr (Or.inr htype)
    · have hno : ¬ Syscall.openFile.LeavesByReturn k := by
        simp only [Syscall.LeavesByReturn, harg, Option.some.injEq, exists_eq_left']
        rintro (h | h | h)
        · exact hlen (Or.inl h)
        · exact hlen (Or.inr h)
        · exact htype h
      simp only [run_bind, all_bind, run_look, all_done]
      rcases k.fileSystem.findFreeSlot with _ | slot
      · exact ⟨k.kept_of_eq rfl, by simp [hno]⟩
      · simp only [run_bind, all_bind, run_look, all_done]
        rcases k.fileSystem.openFile (cstring buffer) (k.registers 5).toInt with _ | ⟨f, fs⟩
        · exact ⟨k.kept_write rfl, by simp [hno]⟩
        · exact ⟨k.kept_write rfl, by simp [hno]⟩

theorem leaves_close : Syscall.close.Leaves k := by
  constructor
  show All Serves _ (scClose.run k)
  unfold scClose
  simp only [run_bind, all_bind, readRegister, run_look, all_done]
  split
  · simp only [run_bind, all_bind]
    refine all_fileOp fun _ fs _ => ?_
    exact ⟨k.kept_write rfl, by simp [Syscall.LeavesByReturn]⟩
  · exact ⟨k.kept_write rfl, by simp [Syscall.LeavesByReturn]⟩

/-- The checks of `SC_Read` and `SC_Write`. -/
theorem all_checkTransfer {wrongType : ℤ} {m₁ m₂ m₃ m₄ : Message} {go : OpenFile → KernelM Leave}
    {charcount id : Word} {Q : Leave → Kernel → Prop}
    (hfail : ∀ k', k'.registers = k.registers.write 2 (-1) → k'.fileSystem = k.fileSystem →
      (charcount.toInt < 0 ∨ ∀ f, (if 0 ≤ id.toInt ∧ id.toInt ≤ 9 then
        k.fileSystem.openState id.toInt.toNat else none) = some f → f.type = wrongType) →
      Q .ret k')
    (hgo : ∀ f, ¬ charcount.toInt < 0 → 0 ≤ id.toInt ∧ id.toInt ≤ 9 →
      k.fileSystem.openState id.toInt.toNat = some f → f.type ≠ wrongType →
      All Serves Q ((go f).run k)) :
    All Serves Q ((checkTransfer charcount.toInt id.toInt wrongType m₁ m₂ m₃ m₄ go).run k) := by
  unfold checkTransfer
  simp only [run_ite]
  split_ifs with h1 h2
  · exact hfail _ rfl rfl (Or.inl h1)
  · refine hfail _ rfl rfl (Or.inr fun f hf => ?_)
    rw [if_neg (by omega)] at hf
    cases hf
  · have hr : 0 ≤ id.toInt ∧ id.toInt ≤ 9 := by omega
    simp only [run_bind, run_look, Res.bind_done]
    rcases hf : k.fileSystem.openState id.toInt.toNat with _ | f
    · refine hfail _ rfl rfl (Or.inr fun f' hf' => ?_)
      rw [if_pos hr, hf] at hf'
      cases hf'
    · simp only [run_ite]
      split_ifs with h3
      · refine hfail _ rfl rfl (Or.inr fun f' hf' => ?_)
        rw [if_pos hr, hf, Option.some.injEq] at hf'
        rw [← hf', h3]
      · exact hgo f h1 hr hf h3

/-- A method of an open file changes the file system only. -/
theorem all_onFile {α : Type} {Q : α → Kernel → Prop} {id : ℕ}
    {op : OpenFile → Host → Option (α × OpenFile × Host)}
    (h : ∀ a fs, Q a { k with fileSystem := fs }) : All Serves Q ((onFile id op).run k) :=
  all_fileOp fun a fs _ => h a fs

theorem leaves_read : Syscall.read.Leaves k := by
  constructor
  show All Serves _ (scRead.run k)
  unfold scRead
  simp only [run_bind, all_bind, readRegister, run_look, all_done]
  refine all_checkTransfer (fun k' hk' _ hc => ⟨k.kept_write hk', ?_⟩) fun f h1 h2 h3 h4 => ?_
  · simp only [Syscall.LeavesByReturn, true_iff]
    exact hc.imp_right fun hf f hfa => Or.inr (hf f hfa)
  · have hcond : Syscall.read.LeavesByReturn k ↔ f.type = 2 := by
      simp only [Syscall.LeavesByReturn, Kernel.fileArg, if_pos h2, h3, Option.some.injEq,
        forall_eq', h1, false_or, h4, or_false]
    simp only [run_bind, all_bind, getCurrentPos]
    refine all_onFile fun curPos fs => ?_
    refine all_user2System fun buffer pt _ => ?_
    rw [run_ite]
    split_ifs with h5
    · simp only [run_bind, all_bind]
      refine all_synchRead_registers fun r k₁ hk₁ => ?_
      refine all_system2User fun _ mem pt' => ?_
      refine ⟨k.kept_write (v := BitVec.ofInt 32 r.2) ?_, by simp [hcond, h5]⟩
      exact congrArg (fun q : Registers => q.write 2 (BitVec.ofInt 32 r.2)) hk₁
    · simp only [run_bind, all_bind]
      refine all_onFile fun bytes fs' => ?_
      rw [run_ite]
      split_ifs
      · simp only [run_bind, all_bind]
        refine all_onFile fun newPos fs'' => ?_
        refine all_system2User fun _ mem pt' => ?_
        exact ⟨k.kept_write rfl, by simp [hcond, h5]⟩
      · exact ⟨k.kept_write rfl, by simp [hcond, h5]⟩

theorem all_writeStdoutLoop {Q : Leave → Kernel → Prop} (n : ℕ) : ∀ k : Kernel,
    All Serves Q ((writeStdoutLoop n).run k) := by
  induction n with
  | zero => exact fun _ => trivial
  | succ n ih => exact fun k _ k' _ => ih k'

theorem leaves_write : Syscall.write.Leaves k := by
  constructor
  show All Serves _ (scWrite.run k)
  unfold scWrite
  simp only [run_bind, all_bind, readRegister, run_look, all_done]
  refine all_checkTransfer (fun k' hk' _ hc => ⟨k.kept_write hk', ?_⟩) fun f h1 h2 h3 h4 => ?_
  · simp only [Syscall.LeavesByReturn, true_iff]
    exact hc
  · have hcond : ¬ Syscall.write.LeavesByReturn k := by
      simp only [Syscall.LeavesByReturn, Kernel.fileArg, if_pos h2, h3, Option.some.injEq,
        forall_eq', h1, false_or, h4, not_false_eq_true]
    simp only [run_bind, all_bind, getCurrentPos]
    refine all_onFile fun curPos fs => ?_
    refine all_user2System fun buffer pt _ => ?_
    rw [run_ite]
    split_ifs
    · exact all_writeStdoutLoop _ _
    · simp only [run_bind, all_bind]
      refine all_onFile fun written fs' => ?_
      rw [run_ite]
      split_ifs
      · simp only [run_bind, all_bind]
        refine all_onFile fun newPos fs'' => ?_
        exact ⟨k.kept_write rfl, by simp [hcond]⟩
      · exact ⟨k.kept_of_eq rfl, by simp [hcond]⟩

theorem leaves_seek : Syscall.seek.Leaves k := by
  constructor
  show All Serves _ (scSeek.run k)
  unfold scSeek
  simp only [run_bind, all_bind, readRegister, run_look, all_done, run_ite]
  by_cases h1 : (k.registers 5).toInt < 0 ∨ (k.registers 5).toInt > 9
  · rw [if_pos h1]
    refine ⟨k.kept_write rfl, ?_⟩
    simp only [Syscall.LeavesByReturn, Kernel.fileArg, true_iff]
    rw [if_neg (by omega)]
    exact Or.inl rfl
  · have hr : 0 ≤ (k.registers 5).toInt ∧ (k.registers 5).toInt ≤ 9 := by omega
    rw [if_neg h1]
    rcases hf : k.fileSystem.openState (k.registers 5).toInt.toNat with _ | f
    · refine ⟨k.kept_write rfl, ?_⟩
      simp only [Syscall.LeavesByReturn, Kernel.fileArg, if_pos hr, hf, true_or]
    · simp only [Res.bind_done, run_ite]
      by_cases h2 : (k.registers 5).toInt = 0 ∨ (k.registers 5).toInt = 1
      · rw [if_pos h2]
        refine ⟨k.kept_write rfl, ?_⟩
        simp only [Syscall.LeavesByReturn, true_iff]
        exact Or.inr h2
      · have hcond : ¬ Syscall.seek.LeavesByReturn k := by
          simp only [Syscall.LeavesByReturn, Kernel.fileArg, if_pos hr, hf, reduceCtorEq, false_or]
          exact h2
        rw [if_neg h2]
        split_ifs
        · simp only [run_bind, all_bind]
          refine all_onFile fun pos fs => ?_
          refine all_onFile fun _ fs' => ?_
          exact ⟨k.kept_write rfl, by simp [hcond]⟩
        · simp only [run_bind, all_bind, run_pure, all_done]
          refine all_onFile fun _ fs' => ?_
          exact ⟨k.kept_write rfl, by simp [hcond]⟩

/-! ### Console -/

theorem leaves_readInt : Syscall.readInt.Leaves k := by
  constructor
  show All Serves _ (scReadInt.run k)
  unfold scReadInt putByte
  simp only [run_bind, all_bind]
  generalize List.replicate (maxBufferSize + 1) (0 : Byte) = into
  generalize (maxBufferSize : ℤ) = n
  refine all_synchRead_registers fun r k₁ hk₁ => ?_
  have hw : ∀ v : Word, k.Kept { k₁ with registers := k₁.registers.write 2 v } := fun v =>
    k.kept_write (v := v) (congrArg (fun q : Registers => q.write 2 v) hk₁)
  by_cases h1 : 0 ≤ r.2 ∧ r.2 < r.1.length
  · rw [if_pos h1, run_pure, all_done, run_ite]
    split_ifs
    · split
      · exact ⟨hw _, by simp [Syscall.LeavesByReturn]⟩
      · exact ⟨hw _, by simp [Syscall.LeavesByReturn]⟩
    · exact ⟨k.kept_of_eq hk₁, by simp [Syscall.LeavesByReturn]⟩
  · rw [if_neg h1]; trivial

theorem leaves_readChar : Syscall.readChar.Leaves k := by
  constructor
  show All Serves _ (scReadChar.run k)
  unfold scReadChar
  simp only [run_bind, all_bind]
  generalize List.replicate (maxBufferSize + 1) (0 : Byte) = into
  generalize (maxBufferSize : ℤ) = n
  refine all_synchRead_registers fun r k₁ hk₁ => ?_
  have hw : ∀ v : Word, k.Kept { k₁ with registers := k₁.registers.write 2 v } := fun v =>
    k.kept_write (v := v) (congrArg (fun q : Registers => q.write 2 v) hk₁)
  simp only [run_ite]
  split_ifs
  · exact ⟨hw _, by simp [Syscall.LeavesByReturn]⟩
  · exact ⟨hw _, by simp [Syscall.LeavesByReturn]⟩
  · exact ⟨hw _, by simp [Syscall.LeavesByReturn]⟩
  · exact ⟨k.kept_of_eq hk₁, by simp [Syscall.LeavesByReturn]⟩

theorem leaves_readString : Syscall.readString.Leaves k := by
  constructor
  show All Serves _ (scReadString.run k)
  unfold scReadString putByte
  simp only [run_bind, all_bind, readRegister, run_look, all_done, run_ite]
  by_cases h0 : (k.registers 5 + 1).toInt < 0
  · rw [if_pos h0]; trivial
  · rw [if_neg h0]
    refine all_bind.mpr (all_synchRead_registers fun r k₁ hk₁ => ?_)
    by_cases h1 : 0 ≤ r.2 ∧ r.2 < r.1.length
    · rw [if_pos h1, run_pure, Res.bind_done]
      split_ifs
      · exact ⟨k.kept_of_eq hk₁, by simp [Syscall.LeavesByReturn]⟩
      · refine all_bind.mpr (all_system2User fun copied m pt => ?_)
        split_ifs
        · exact ⟨k.kept_of_eq hk₁, by simp [Syscall.LeavesByReturn]⟩
        · exact ⟨k.kept_of_eq hk₁, by simp [Syscall.LeavesByReturn]⟩
    · rw [if_neg h1]; trivial

theorem leaves_printInt : Syscall.printInt.Leaves k := by
  constructor
  show All Serves _ (scPrintInt.run k)
  unfold scPrintInt
  simp only [run_bind, all_bind, readRegister, run_look, all_done, run_ite]
  -- the digits do not matter
  generalize (BitVec.ofInt 32 ((k.registers 4).toInt * -1)).toInt = number
  split_ifs
  · refine all_bind.mpr (all_synchWrite fun k₁ hk₁ => ?_)
    exact ⟨k.kept_of_eq hk₁, by simp [Syscall.LeavesByReturn]⟩
  · refine all_bind.mpr (all_synchWrite fun k₁ hk₁ => ?_)
    refine all_bind.mpr (all_synchWrite fun k₂ hk₂ => ?_)
    exact ⟨k.kept_of_eq (hk₂.trans hk₁), by simp [Syscall.LeavesByReturn]⟩
  · refine all_bind.mpr (all_synchWrite fun k₁ hk₁ => ?_)
    exact ⟨k.kept_of_eq hk₁, by simp [Syscall.LeavesByReturn]⟩

theorem leaves_printChar : Syscall.printChar.Leaves k := by
  constructor
  show All Serves _ (scPrintChar.run k)
  unfold scPrintChar
  simp only [run_bind, all_bind, readRegister, run_look, all_done]
  refine all_synchWrite fun k₁ hk₁ => ?_
  exact ⟨k.kept_of_eq hk₁, by simp [Syscall.LeavesByReturn]⟩

theorem leaves_printString : Syscall.printString.Leaves k := by
  constructor
  show All Serves _ (scPrintString.run k)
  unfold scPrintString
  simp only [run_bind, all_bind, readRegister, run_look, all_done]
  refine all_user2System fun buffer pt _ => ?_
  refine all_synchWrite fun k₁ hk₁ => ?_
  exact ⟨k.kept_of_eq hk₁, by simp [Syscall.LeavesByReturn]⟩

/-! ### Processes -/

theorem leaves_exec : Syscall.exec.Leaves k := by
  constructor
  show All Serves _ (scExec.run k)
  unfold scExec
  simp only [run_bind, all_bind, readRegister, run_look, all_done]
  refine all_user2System fun buffer pt hb => ?_
  have harg := stringArg_eq hb
  rw [run_ite]
  split_ifs with hlen
  · refine ⟨k.kept_write rfl, ?_⟩
    simp only [Syscall.LeavesByReturn, harg, Option.some.injEq, exists_eq_left', true_iff]
    exact hlen.imp_right Or.inl
  · simp only [run_bind, all_bind, run_look, all_done]
    rcases ho : k.fileSystem.openFile (cstring buffer) 0 with _ | ⟨f, fs⟩
    · refine ⟨k.kept_write rfl, ?_⟩
      simp only [Syscall.LeavesByReturn, harg, Option.some.injEq, exists_eq_left', true_iff]
      exact Or.inr (Or.inr ho)
    · have hno : ¬ Syscall.exec.LeavesByReturn k := by
        simp only [Syscall.LeavesByReturn, harg, Option.some.injEq, exists_eq_left', ho,
          reduceCtorEq, or_false]
        exact hlen
      intro pid k₁ hk₁
      simp only [run_bind, execRest, all_bind]
      refine all_fileOp fun _ fs' _ => ?_
      refine ⟨k.kept_write (v := BitVec.ofInt 32 pid) ?_, by simp [hno]⟩
      exact congrArg (fun q : Registers => q.write 2 (BitVec.ofInt 32 pid)) hk₁.1.registers

theorem leaves_join : Syscall.join.Leaves k := by
  constructor
  intro res k₁ hk₁
  have hw : ∀ v : Word, k.Kept { k₁ with registers := k₁.registers.write 2 v } := fun v =>
    k.kept_write (v := v) (congrArg (fun q : Registers => q.write 2 v) hk₁.1.registers)
  show All Serves _ ((joinRest res).run k₁)
  unfold joinRest
  rw [run_ite]
  split_ifs
  · exact ⟨hw _, by simp [Syscall.LeavesByReturn]⟩
  · exact ⟨hw _, by simp [Syscall.LeavesByReturn]⟩

theorem leaves_exit : Syscall.exit.Leaves k := by
  constructor
  show All Serves _ (scExit.run k)
  unfold scExit
  simp only [run_bind, all_bind, readRegister, run_look, all_done, run_ite]
  split_ifs
  · exact ⟨k.kept_of_eq rfl, by simp [Syscall.LeavesByReturn]⟩
  · exact fun _ _ _ => trivial

/-! ### Semaphores -/

/-- The end of the three handlers. -/
theorem all_reportSem {m : Message} {leave : Leave} {res : ℤ} {Q : Leave → Kernel → Prop}
    (h : ∀ k' v, k'.registers = k.registers.write 2 v →
      Q (if res = -1 then leave else .brk) k') :
    All Serves Q ((reportSem m leave res).run k) := by
  unfold reportSem
  rw [run_ite]
  split_ifs with hr
  · rw [if_pos hr] at h
    exact h _ _ rfl
  · rw [if_neg hr] at h
    exact h _ _ rfl

theorem all_stableCreate {name : Name} {init : ℤ} {Q : ℤ → Kernel → Prop}
    (h : ∀ r k', k'.registers = k.registers → Q r k') :
    All Serves Q ((stableCreate name init).run k) := by
  unfold stableCreate
  simp only [run_bind, all_bind, run_look, all_done]
  rcases k.semTab.lookup name with ⟨i, s⟩ | _ | _
  · exact h _ _ rfl
  · simp only [run_bind, all_bind, run_change, all_done]
    rintro freeSpace k₁ rfl
    show All Serves _ (Prog.run _ _)
    rw [run_ite, run_ite]
    split_ifs
    · exact h _ _ rfl
    · rintro r k₂ rfl
      exact h _ _ rfl
    · trivial
  · trivial

theorem leaves_createSemaphore : Syscall.createSemaphore.Leaves k := by
  constructor
  show All Serves _ (scCreateSemaphore.run k)
  unfold scCreateSemaphore
  simp only [run_bind, all_bind, readRegister, run_look, all_done]
  refine all_user2System fun buffer pt _ => ?_
  refine all_stableCreate fun res k₁ hk₁ => ?_
  refine all_reportSem fun k₂ v hk₂ => ?_
  refine ⟨k.kept_write (v := v) ?_, by simp [Syscall.LeavesByReturn]⟩
  rw [hk₂, hk₁]

theorem leaves_up : Syscall.up.Leaves k := by
  constructor
  show All Serves _ (scUp.run k)
  unfold scUp stableSignal
  simp only [run_bind, all_bind, readRegister, run_look, all_done]
  refine all_user2System fun buffer pt hb => ?_
  have hcond : Syscall.up.LeavesByReturn k ↔ k.semTab.lookup (cstring buffer) = .missing := by
    simp only [Syscall.LeavesByReturn, stringArg_eq hb, Option.some.injEq, exists_eq_left']
  rcases hl : k.semTab.lookup (cstring buffer) with ⟨i, s⟩ | _ | _
  · refine all_reportSem fun k₂ v hk₂ => ⟨k.kept_write (v := v) hk₂, ?_⟩
    simp [hcond, hl]
  · refine all_reportSem fun k₂ v hk₂ => ⟨k.kept_write (v := v) hk₂, ?_⟩
    simp [hcond, hl]
  · trivial

theorem leaves_down : Syscall.down.Leaves k := by
  constructor
  show All Serves _ (scDown.run k)
  unfold scDown stableWait
  simp only [run_bind, all_bind, readRegister, run_look, all_done]
  refine all_user2System fun buffer pt _ => ?_
  rcases k.semTab.lookup (cstring buffer) with ⟨i, s⟩ | _ | _
  · intro _ k₁ hk₁
    refine all_reportSem fun k₂ v hk₂ => ?_
    refine ⟨k.kept_write (v := v) ?_, by simp [Syscall.LeavesByReturn]⟩
    rw [hk₂, hk₁.1.registers]
  · refine all_reportSem fun k₂ v hk₂ => ?_
    exact ⟨k.kept_write (v := v) hk₂, by simp [Syscall.LeavesByReturn]⟩
  · trivial

theorem leaves (c : Syscall) : c.Leaves k := by
  cases c with
  | halt => exact ⟨trivial⟩
  | exit => exact leaves_exit
  | exec => exact leaves_exec
  | join => exact leaves_join
  | create => exact leaves_create
  | openFile => exact leaves_open
  | read => exact leaves_read
  | write => exact leaves_write
  | close => exact leaves_close
  | readInt => exact leaves_readInt
  | printInt => exact leaves_printInt
  | readChar => exact leaves_readChar
  | printChar => exact leaves_printChar
  | readString => exact leaves_readString
  | printString => exact leaves_printString
  | createSemaphore => exact leaves_createSemaphore
  | up => exact leaves_up
  | down => exact leaves_down
  | seek => exact leaves_seek

end Handlers

/-! ## The program counters -/

/-- The program counters have moved on by one instruction. -/
def Kernel.Advanced (k k' : Kernel) : Prop :=
  k'.registers prevPCReg = k.registers pcReg ∧ k'.registers pcReg = k.registers nextPCReg ∧
    k'.registers nextPCReg = k.registers nextPCReg + 4

theorem Kernel.Kept.advanced {k k₁ : Kernel} (h : k.Kept k₁) :
    All Serves (fun _ k' => k.Advanced k') (increatePC.run k₁) := by
  have hpc := h pcReg (by decide)
  have hnext := h nextPCReg (by decide)
  simp [increatePC, readRegister, writeRegister, Kernel.Advanced, Registers.write, hpc, hnext]

/-- An instruction is not its own successor. -/
theorem Kernel.Kept.not_advanced {k k' : Kernel} (h : k.Kept k') : ¬ k.Advanced k' := by
  rintro ⟨-, -, hnext⟩
  rw [h nextPCReg (by decide)] at hnext
  simp at hnext

/-- **The return path**: a system call that gives control back to the user program has advanced the
program counters, except when its handler leaves by `return`. -/
theorem advanced_iff_not_leavesByReturn {k k' : Kernel}
    (h : Returns Serves ((exceptionHandler .syscallException).run k) () k') :
    k.Advanced k' ↔
      ¬ ∃ c, Syscall.ofNumber (k.registers 2) = some c ∧ c.LeavesByReturn k := by
  suffices hall : All Serves (fun _ k' => k.Advanced k' ↔
      ¬ ∃ c, Syscall.ofNumber (k.registers 2) = some c ∧ c.LeavesByReturn k)
      ((exceptionHandler .syscallException).run k) from all_iff_returns.mp hall _ _ h
  unfold exceptionHandler
  simp only [run_bind, all_bind, readRegister, run_look, all_done]
  rcases hc : Syscall.ofNumber (k.registers 2) with _ | c
  · trivial
  · simp only [run_bind, all_bind, Option.some.injEq, exists_eq_left']
    refine (leaves c).all.mono ?_
    rintro (_ | _) k₁ ⟨hkept, hret⟩
    · have hno : ¬ c.LeavesByReturn k := fun hl => by cases hret.mpr hl
      exact hkept.advanced.mono fun _ _ ha => iff_of_true ha hno
    · exact iff_of_false hkept.not_advanced (not_not.mpr (hret.mp rfl))

/-- `Close(0)`, right after the start: the console is closed, and the program goes on. -/
theorem advanced_close_stdin : ∃ k k' : Kernel,
    Kernel.boot (fun num => if num = 2 then 8 else 0) [] (fun _ => 0) [] = some k ∧
      Returns Serves ((exceptionHandler .syscallException).run k) () k' ∧ k.Advanced k' := by
  refine ⟨_, _, rfl, .done _ _, ?_⟩
  refine (advanced_iff_not_leavesByReturn (.done _ _)).mpr ?_
  rintro ⟨c, hc, hl⟩
  cases hc
  exact hl

/-- `Seek(0, 0)`: a seek on the console leaves by `return`, and the program makes it again. -/
theorem not_advanced_seek_stdin : ∃ k k' : Kernel,
    Kernel.boot (fun num => if num = 2 then 20 else 0) [] (fun _ => 0) [] = some k ∧
      Returns Serves ((exceptionHandler .syscallException).run k) () k' ∧ ¬ k.Advanced k' := by
  refine ⟨_, _, rfl, .done _ _, ?_⟩
  exact Kernel.Kept.not_advanced (Kernel.kept_write rfl)

end Nachos
