import Nachos.Userprog.ReturnPath

/-!
# The table of open files under any sequence of system calls

All processes share `openState`. A step is one of the five calls that use an id, by any process with
any registers, memory and page table, up to the point where the call ends or waits for the console;
after this wait it does not touch the file system any more.

An `OpenFile` object is known by its descriptor: each has its own, and the host uses none twice.
-/

namespace Nachos

open Prog

namespace FileSystem

/-- The table holds the same objects as before. -/
structure Kept (fs fs' : FileSystem) : Prop where
  slots : ∀ i, (fs'.openState i).map (fun f => (f.type, f.file)) =
    (fs.openState i).map fun f => (f.type, f.file)
  nextFd : fs'.host.nextFd = fs.host.nextFd

theorem kept_refl (fs : FileSystem) : fs.Kept fs := ⟨fun _ => rfl, rfl⟩

theorem Kept.trans {fs₁ fs₂ fs₃ : FileSystem} (h₁ : fs₁.Kept fs₂) (h₂ : fs₂.Kept fs₃) :
    fs₁.Kept fs₃ :=
  ⟨fun i => (h₂.slots i).trans (h₁.slots i), h₂.nextFd.trans h₁.nextFd⟩

/-- The same, and no file has other contents than before. -/
structure Unwritten (fs fs' : FileSystem) : Prop where
  kept : fs.Kept fs'
  contents : fs'.host.contents = fs.host.contents

theorem unwritten_refl (fs : FileSystem) : fs.Unwritten fs := ⟨fs.kept_refl, rfl⟩

theorem Unwritten.trans {fs₁ fs₂ fs₃ : FileSystem} (h₁ : fs₁.Unwritten fs₂)
    (h₂ : fs₂.Unwritten fs₃) : fs₁.Unwritten fs₃ :=
  ⟨h₁.kept.trans h₂.kept, h₂.contents.trans h₁.contents⟩

/-- A method of an open file that leaves its type and descriptor alone. -/
theorem Kept.of_setSlot {fs : FileSystem} {id : ℕ} {f f' : OpenFile} {h' : Host}
    (hf : fs.openState id = some f) (ht : f'.type = f.type) (hd : f'.file = f.file)
    (hn : h'.nextFd = fs.host.nextFd) : fs.Kept ((fs.setHost h').setSlot id (some f')) := by
  refine ⟨fun i => ?_, hn⟩
  show (Function.update fs.openState id (some f') i).map _ = _
  by_cases hi : i = id
  · subst hi
    rw [Function.update_self, hf]
    exact congrArg some (Prod.ext ht hd)
  · rw [Function.update_of_ne hi]

end FileSystem

/-! ## The parts of the handlers -/

section Parts

variable {α : Type} {rel : FileSystem → FileSystem → Prop}

/-- A relation between the file systems of two states. -/
def OnFiles (rel : FileSystem → FileSystem → Prop) (k k' : Kernel) : Prop :=
  rel k.fileSystem k'.fileSystem

theorem within_same (hrefl : ∀ fs, rel fs fs) {x : KernelM α}
    (h : ∀ k k', (x.run k).reached = some k' → k'.fileSystem = k.fileSystem) :
    Within (OnFiles rel) x := by
  intro k k' hk
  show rel k.fileSystem k'.fileSystem
  rw [h k k' hk]
  exact hrefl _

theorem within_writeRegister (hrefl : ∀ fs, rel fs fs) (num : ℕ) (value : Word) :
    Within (OnFiles rel) (writeRegister num value) :=
  within_change fun _ => hrefl _

theorem within_fail (hrefl : ∀ fs, rel fs fs) (m : Message) (leave : Leave) :
    Within (OnFiles rel) (fail m leave) := by
  apply within_same hrefl
  rintro k _ ⟨⟩
  rfl

theorem within_user2System (hrefl : ∀ fs, rel fs fs) (virtAddr : Word) (limit : ℕ) :
    Within (OnFiles rel) (user2System virtAddr limit) := by
  apply within_same hrefl
  intro k k' hk
  rcases user2System_cases virtAddr limit k with ⟨d, h⟩ | ⟨buffer, pt, h⟩
  · rw [h] at hk
    cases hk
  · rw [h] at hk
    cases hk
    rfl

theorem reached_system2UserLoop (virtAddr : Word) (buffer : List Byte) (n : ℕ) :
    ∀ (i : ℕ) (k k' : Kernel), ((system2UserLoop virtAddr buffer i n).run k).reached = some k' →
      k'.fileSystem = k.fileSystem := by
  induction n with
  | zero =>
    rintro i k _ ⟨⟩
    rfl
  | succ n ih =>
    intro i k k' hk
    unfold system2UserLoop at hk
    rcases hb : buffer[i]? with _ | ch
    · rw [hb] at hk
      cases hk
    · rw [hb] at hk
      simp only [run_bind] at hk
      rcases writeMemByte_cases (virtAddr + BitVec.ofNat 32 i) (ch.signExtend 32) k with
        ⟨d, h⟩ | ⟨m, pt, h⟩
      · rw [h] at hk
        cases hk
      · rw [h, Res.bind_done, run_ite] at hk
        split_ifs at hk
        · cases hk
          rfl
        · exact (ih (i + 1) { k with memory := m, pageTable := pt } k' hk :)

theorem within_system2User (hrefl : ∀ fs, rel fs fs) (virtAddr : Word) (len : ℤ)
    (buffer : List Byte) : Within (OnFiles rel) (system2User virtAddr len buffer) := by
  apply within_same hrefl
  intro k k' hk
  unfold system2User at hk
  rw [run_ite, run_ite] at hk
  split_ifs at hk
  · cases hk
    rfl
  · cases hk
    rfl
  · exact reached_system2UserLoop virtAddr buffer len.toNat 0 k k' hk

/-- `SynchConsole::Read` waits before it does anything else. -/
theorem within_synchRead (hrefl : ∀ fs, rel fs fs) (into : List Byte) (numBytes : ℤ) :
    Within (OnFiles rel) (synchRead into numBytes) := by
  apply within_same hrefl
  intro k k' hk
  unfold synchRead at hk
  rw [run_ite] at hk
  split_ifs at hk
  · cases hk
  · cases hk
    rfl
  · cases hk
    rfl

theorem within_onFile {id : ℕ} {op : OpenFile → Host → Option (α × OpenFile × Host)}
    (hop : ∀ (fs : FileSystem) f a f' h', fs.openState id = some f →
      op f fs.host = some (a, f', h') → rel fs ((fs.setHost h').setSlot id (some f'))) :
    Within (OnFiles rel) (onFile id op) := by
  intro k k' hk
  unfold onFile fileOp at hk
  dsimp only at hk
  rcases hf : k.fileSystem.openState id with _ | f
  · simp only [hf, Option.bind_eq_bind, Option.bind_none] at hk
    cases hk
  · rcases ho : op f k.fileSystem.host with _ | ⟨a, f', h'⟩
    · simp only [hf, ho, Option.bind_eq_bind, Option.bind_some, Option.bind_none] at hk
      cases hk
    · simp only [hf, ho, Option.bind_eq_bind, Option.bind_some, Option.pure_def] at hk
      cases hk
      exact hop k.fileSystem f a f' h' hf ho

end Parts

/-! ## The handlers that use an id -/

section Handlers

open FileSystem

theorem kernel_kept_trans (k₁ k₂ k₃ : Kernel) (h₁ : OnFiles Kept k₁ k₂) (h₂ : OnFiles Kept k₂ k₃) :
    OnFiles Kept k₁ k₃ := Kept.trans h₁ h₂

theorem kernel_unwritten_trans (k₁ k₂ k₃ : Kernel) (h₁ : OnFiles Unwritten k₁ k₂)
    (h₂ : OnFiles Unwritten k₂ k₃) : OnFiles Unwritten k₁ k₃ := Unwritten.trans h₁ h₂

theorem lseek_frame {h h' : Host} {fd : ℕ} {pos : ℤ} (hl : h.lseek fd pos = some h') :
    h'.nextFd = h.nextFd ∧ h'.contents = h.contents := by
  obtain ⟨d, -, -, rfl⟩ := Host.lseek_eq_some hl
  exact ⟨rfl, rfl⟩

theorem unwritten_getCurrentPos (id : ℕ) : Within (OnFiles Unwritten) (getCurrentPos id) := by
  apply within_onFile
  intro fs f a f' h' hf ho
  cases ho
  exact ⟨Kept.of_setSlot hf rfl rfl rfl, rfl⟩

theorem unwritten_read (id n : ℕ) :
    Within (OnFiles Unwritten) (onFile id fun f h => f.read h n) := by
  apply within_onFile
  intro fs f a f' h' hf ho
  simp only [OpenFile.read, OpenFile.readAt, Option.bind_eq_bind, Option.bind_eq_some_iff,
    Option.pure_def, Option.some.injEq] at ho
  obtain ⟨⟨bytes, h₂⟩, ⟨h₁, hl, hr⟩, ho⟩ := ho
  simp only [Prod.mk.injEq] at ho
  obtain ⟨-, rfl, rfl⟩ := ho
  obtain ⟨hn, hc⟩ := lseek_frame hl
  have hh : h₂.nextFd = h₁.nextFd ∧ h₂.contents = h₁.contents := by
    unfold Host.readPartial at hr
    split at hr
    · cases hr
      exact ⟨rfl, rfl⟩
    · cases hr
      exact ⟨rfl, rfl⟩
  exact ⟨Kept.of_setSlot hf rfl rfl (hh.1.trans hn), hh.2.trans hc⟩

theorem unwritten_length (id : ℕ) : Within (OnFiles Unwritten)
    (onFile id fun f h => do let (len, h) ← f.length h; pure (len, f, h)) := by
  apply within_onFile
  intro fs f a f' h' hf ho
  simp only [OpenFile.length, Option.bind_eq_bind, Option.bind_eq_some_iff, Option.pure_def,
    Option.some.injEq, Prod.mk.injEq] at ho
  obtain ⟨⟨len, h₃⟩, ⟨h₁, he, h₂, hl, rfl, rfl⟩, -, rfl, rfl⟩ := ho
  obtain ⟨hn, hc⟩ := lseek_frame hl
  have hh : h₁.nextFd = fs.host.nextFd ∧ h₁.contents = fs.host.contents := by
    unfold Host.lseekEnd at he
    split at he
    · cases he
    · cases he
      exact ⟨rfl, rfl⟩
  exact ⟨Kept.of_setSlot hf rfl rfl (hn.trans hh.1), hc.trans hh.2⟩

theorem unwritten_seek (id : ℕ) (pos : ℤ) : Within (OnFiles Unwritten)
    (onFile id fun f h => (f.seek h pos).map fun (f, h) => ((), f, h)) := by
  apply within_onFile
  intro fs f a f' h' hf ho
  simp only [OpenFile.seek, Option.bind_eq_bind, Option.map_eq_some_iff, Option.bind_eq_some_iff,
    Option.pure_def, Option.some.injEq, Prod.mk.injEq] at ho
  obtain ⟨⟨f₁, h₁⟩, ⟨h₂, hl, rfl, rfl⟩, -, rfl, rfl⟩ := ho
  obtain ⟨hn, hc⟩ := lseek_frame hl
  exact ⟨Kept.of_setSlot hf rfl rfl hn, hc⟩

theorem kept_write (id : ℕ) (bytes : List Byte) :
    Within (OnFiles Kept) (onFile id fun f h => f.write h bytes) := by
  apply within_onFile
  intro fs f a f' h' hf ho
  simp only [OpenFile.write, OpenFile.writeAt, Option.bind_eq_bind, Option.bind_eq_some_iff,
    Option.pure_def, Option.some.injEq, Prod.mk.injEq] at ho
  obtain ⟨h₂, ⟨h₁, hl, hw⟩, -, rfl, rfl⟩ := ho
  obtain ⟨hn, -⟩ := lseek_frame hl
  have hh : h₂.nextFd = h₁.nextFd := by
    unfold Host.writeFile at hw
    split at hw
    · cases hw
    · cases hw
      rfl
  exact Kept.of_setSlot hf rfl rfl (hh.trans hn)

/-- The checks of `SC_Read` and `SC_Write`. -/
theorem within_checkTransfer {rel : FileSystem → FileSystem → Prop} (hrefl : ∀ fs, rel fs fs)
    (htrans : ∀ k₁ k₂ k₃, OnFiles rel k₁ k₂ → OnFiles rel k₂ k₃ → OnFiles rel k₁ k₃)
    {charcount id wrongType : ℤ} {m₁ m₂ m₃ m₄ : Message} {go : OpenFile → KernelM Leave}
    (hgo : ∀ f, Within (OnFiles rel) (go f)) :
    Within (OnFiles rel) (checkTransfer charcount id wrongType m₁ m₂ m₃ m₄ go) := by
  unfold checkTransfer
  split_ifs
  · exact within_fail hrefl _ _
  · exact within_fail hrefl _ _
  · have hk : ∀ k : Kernel, OnFiles rel k k := fun k => hrefl k.fileSystem
    refine (within_look hk _).bind htrans fun file => ?_
    cases file with
    | none => exact within_fail hrefl _ _
    | some f =>
      dsimp only
      split_ifs
      · exact within_fail hrefl _ _
      · exact hgo f

section Relation

variable {rel : FileSystem → FileSystem → Prop} (hrefl : ∀ fs, rel fs fs)
  (htrans : ∀ k₁ k₂ k₃, OnFiles rel k₁ k₂ → OnFiles rel k₂ k₃ → OnFiles rel k₁ k₃)

include hrefl htrans

/-- `SC_Read` does to the file system what its methods do. -/
theorem within_scRead (hpos : ∀ id, Within (OnFiles rel) (getCurrentPos id))
    (hread : ∀ id n, Within (OnFiles rel) (onFile id fun f h => f.read h n)) :
    Within (OnFiles rel) scRead := by
  have hk : ∀ k : Kernel, OnFiles rel k k := fun k => hrefl k.fileSystem
  have hlook : ∀ {β : Type} (g : Kernel → β), Within (OnFiles rel) (look g : KernelM β) :=
    fun g => within_look hk g
  refine (hlook _).bind htrans fun virtAddr => (hlook _).bind htrans fun charcount =>
    (hlook _).bind htrans fun id => within_checkTransfer hrefl htrans fun f => ?_
  refine (hpos _).bind htrans fun curPos =>
    (within_user2System hrefl _ _).bind htrans fun buffer => ?_
  split_ifs
  · refine (within_synchRead hrefl _ _).bind htrans fun (buffer, size) => ?_
    refine (within_system2User hrefl _ _ _).bind htrans fun _ => ?_
    exact (within_writeRegister hrefl _ _).bind htrans fun _ => within_pure hk _
  · refine (hread _ _).bind htrans fun bytes => ?_
    split_ifs
    · refine (hpos _).bind htrans fun newPos => ?_
      refine (within_system2User hrefl _ _ _).bind htrans fun _ => ?_
      exact (within_writeRegister hrefl _ _).bind htrans fun _ => within_pure hk _
    · exact (within_writeRegister hrefl _ _).bind htrans fun _ => within_pure hk _

omit htrans in
theorem within_writeStdoutLoop (n : ℕ) : Within (OnFiles rel) (writeStdoutLoop n) := by
  cases n with
  | zero => exact within_stop _
  | succ n =>
    -- it waits at once
    apply within_same hrefl
    rintro k _ ⟨⟩
    rfl

/-- `SC_Write` likewise. -/
theorem within_scWrite (hpos : ∀ id, Within (OnFiles rel) (getCurrentPos id))
    (hwrite : ∀ id bytes, Within (OnFiles rel) (onFile id fun f h => f.write h bytes)) :
    Within (OnFiles rel) scWrite := by
  have hk : ∀ k : Kernel, OnFiles rel k k := fun k => hrefl k.fileSystem
  have hlook : ∀ {β : Type} (g : Kernel → β), Within (OnFiles rel) (look g : KernelM β) :=
    fun g => within_look hk g
  refine (hlook _).bind htrans fun virtAddr => (hlook _).bind htrans fun charcount =>
    (hlook _).bind htrans fun id => within_checkTransfer hrefl htrans fun f => ?_
  refine (hpos _).bind htrans fun curPos =>
    (within_user2System hrefl _ _).bind htrans fun buffer => ?_
  split_ifs
  · exact within_writeStdoutLoop hrefl _
  · refine (hwrite _ _).bind htrans fun written => ?_
    split_ifs
    · refine (hpos _).bind htrans fun newPos => ?_
      exact (within_writeRegister hrefl _ _).bind htrans fun _ => within_pure hk _
    · exact within_pure hk _

/-- `SC_Seek` likewise. -/
theorem within_scSeek
    (hlength : ∀ id, Within (OnFiles rel)
      (onFile id fun f h => do let (len, h) ← f.length h; pure (len, f, h)))
    (hseek : ∀ id pos, Within (OnFiles rel)
      (onFile id fun f h => (f.seek h pos).map fun (f, h) => ((), f, h))) :
    Within (OnFiles rel) scSeek := by
  have hk : ∀ k : Kernel, OnFiles rel k k := fun k => hrefl k.fileSystem
  have hlook : ∀ {β : Type} (g : Kernel → β), Within (OnFiles rel) (look g : KernelM β) :=
    fun g => within_look hk g
  refine (hlook _).bind htrans fun pos => (hlook _).bind htrans fun id => ?_
  dsimp only
  by_cases hid : id.toInt < 0 ∨ id.toInt > 9
  · rw [if_pos hid]
    exact within_fail hrefl _ _
  · rw [if_neg hid]
    refine (hlook _).bind htrans fun file => ?_
    cases file with
    | none => exact within_fail hrefl _ _
    | some f =>
      dsimp only
      split_ifs
      · exact within_fail hrefl _ _
      · refine (hlength _).bind htrans fun pos => (hseek _ _).bind htrans fun _ => ?_
        exact (within_writeRegister hrefl _ _).bind htrans fun _ => within_pure hk _
      · refine (within_pure hk _).bind htrans fun pos => (hseek _ _).bind htrans fun _ => ?_
        exact (within_writeRegister hrefl _ _).bind htrans fun _ => within_pure hk _

end Relation

theorem unwritten_scRead : Within (OnFiles Unwritten) scRead :=
  within_scRead unwritten_refl kernel_unwritten_trans unwritten_getCurrentPos unwritten_read

theorem kept_scWrite : Within (OnFiles Kept) scWrite :=
  within_scWrite kept_refl kernel_kept_trans
    (fun id k k' h => (unwritten_getCurrentPos id k k' h).kept) kept_write

theorem unwritten_scSeek : Within (OnFiles Unwritten) scSeek :=
  within_scSeek unwritten_refl kernel_unwritten_trans unwritten_length unwritten_seek

/-- What `SC_Open` does: it fails and the table is as before, it finds no free slot and leaves
register 2 alone, or it puts a file into the first free slot. -/
theorem scOpen_cases (k : Kernel) :
    (∃ d, scOpen.run k = .stop d) ∨ ∃ leave k', scOpen.run k = .done leave k' ∧
      (k'.fileSystem = k.fileSystem ∧ k'.registers 2 = -1 ∨
        k'.fileSystem = k.fileSystem ∧ k.fileSystem.findFreeSlot = none ∧
          (∃ name, k.stringArg = some name ∧ 0 < name.length ∧ name.length ≤ maxFileLength) ∧
          (k.registers 5 = 0 ∨ k.registers 5 = 1) ∨
        ∃ slot name f fs, k.fileSystem.findFreeSlot = some slot ∧ k.stringArg = some name ∧
          (k.registers 5 = 0 ∨ k.registers 5 = 1) ∧
          k.fileSystem.openFile name (k.registers 5).toInt = some (f, fs) ∧
          k'.fileSystem = fs.setSlot slot (some f) ∧ k'.registers 2 = BitVec.ofNat 32 slot) := by
  rcases user2System_cases (k.registers 4) (maxFileLength + 1) k with ⟨d, hs⟩ | ⟨buffer, pt, hs⟩
  · refine Or.inl ⟨d, ?_⟩
    unfold scOpen
    simp only [run_bind, readRegister, run_look, Res.bind_done, hs, Res.bind_stop]
  · right
    have hname : k.stringArg = some (cstring buffer) := by
      unfold Kernel.stringArg
      rw [hs]
    unfold scOpen
    simp only [run_bind, readRegister, run_look, Res.bind_done, hs]
    by_cases hlen : strlen buffer = 0 ∨ maxFileLength < strlen buffer
    · rw [if_pos hlen]
      exact ⟨_, _, rfl, Or.inl ⟨rfl, Registers.write_self k.registers 2 _⟩⟩
    · rw [if_neg hlen, run_bind, run_look, Res.bind_done]
      by_cases htype : k.registers 5 ≠ 0 ∧ k.registers 5 ≠ 1
      · rw [if_pos htype]
        exact ⟨_, _, rfl, Or.inl ⟨rfl, Registers.write_self k.registers 2 _⟩⟩
      · rw [if_neg htype, run_bind, run_look, Res.bind_done]
        have htype : k.registers 5 = 0 ∨ k.registers 5 = 1 := by
          by_contra hno
          exact htype (not_or.mp hno)
        cases hslot : k.fileSystem.findFreeSlot with
        | none =>
          rw [not_or] at hlen
          exact ⟨_, _, rfl, Or.inr (Or.inl ⟨rfl, rfl,
            ⟨_, hname, Nat.pos_of_ne_zero hlen.1, not_lt.mp hlen.2⟩, htype⟩)⟩
        | some slot =>
          dsimp only
          rw [run_bind, run_look, Res.bind_done]
          cases hopen : k.fileSystem.openFile (cstring buffer) (k.registers 5).toInt with
          | none =>
            refine ⟨_, _, rfl, Or.inl ⟨?_, Registers.write_self k.registers 2 _⟩⟩
            show k.fileSystem.setSlot slot none = k.fileSystem
            unfold FileSystem.setSlot
            rw [← FileSystem.findFreeSlot_spec hslot, Function.update_eq_self]
          | some p =>
            obtain ⟨f, fs⟩ := p
            exact ⟨_, _, rfl, Or.inr (Or.inr ⟨slot, _, f, fs, rfl, hname, htype, hopen, rfl,
              Registers.write_self k.registers 2 _⟩)⟩

/-- What `SC_Close` does: it closes the file and empties its slot, or fails. -/
theorem scClose_cases (k : Kernel) :
    (∃ d, scClose.run k = .stop d) ∨ ∃ k', scClose.run k = .done .brk k' ∧
      (k.fileArg 4 = none ∧ k'.fileSystem = k.fileSystem ∧ k'.registers 2 = -1 ∨
        ∃ f h, k.fileArg 4 = some f ∧ k.fileSystem.host.close f.file = some h ∧
          k'.fileSystem = (k.fileSystem.setHost h).setSlot (k.registers 4).toInt.toNat none ∧
          k'.registers 2 = 0) := by
  unfold scClose
  simp only [run_bind, readRegister, run_look, Res.bind_done]
  cases hf : k.fileArg 4 with
  | none =>
    unfold Kernel.fileArg at hf
    rw [hf]
    exact Or.inr ⟨_, rfl, Or.inl ⟨rfl, rfl, Registers.write_self k.registers 2 _⟩⟩
  | some f =>
    unfold Kernel.fileArg at hf
    rw [hf]
    dsimp only
    rw [run_bind]
    unfold fileOp
    dsimp only
    cases hc : k.fileSystem.host.close f.file with
    | none => exact Or.inl ⟨_, rfl⟩
    | some h =>
      exact Or.inr ⟨_, rfl, Or.inr ⟨f, h, rfl, hc, rfl, Registers.write_self k.registers 2 _⟩⟩

/-- The table where `SC_Open` ends. -/
theorem scOpen_reached {k k' : Kernel} (hk : (scOpen.run k).reached = some k') :
    k'.fileSystem = k.fileSystem ∨ ∃ slot name f fs, k.fileSystem.findFreeSlot = some slot ∧
      k.fileSystem.openFile name (k.registers 5).toInt = some (f, fs) ∧
      k'.fileSystem = fs.setSlot slot (some f) := by
  rcases scOpen_cases k with ⟨d, hd⟩ | ⟨leave, k₁, hd, hcases⟩
  · rw [hd] at hk
    cases hk
  · rw [hd] at hk
    cases hk
    rcases hcases with ⟨hfs, -⟩ | ⟨hfs, -⟩ | ⟨slot, name, f, fs, hslot, -, -, hopen, hfs, -⟩
    · exact Or.inl hfs
    · exact Or.inl hfs
    · exact Or.inr ⟨slot, name, f, fs, hslot, hopen, hfs⟩

/-- The table where `SC_Close` ends. -/
theorem scClose_reached {k k' : Kernel} (hk : (scClose.run k).reached = some k') :
    k'.fileSystem = k.fileSystem ∨ ∃ f h, k.fileArg 4 = some f ∧
      k.fileSystem.host.close f.file = some h ∧
      k'.fileSystem = (k.fileSystem.setHost h).setSlot (k.registers 4).toInt.toNat none := by
  rcases scClose_cases k with ⟨d, hd⟩ | ⟨k₁, hd, hcases⟩
  · rw [hd] at hk
    cases hk
  · rw [hd] at hk
    cases hk
    rcases hcases with ⟨-, hfs, -⟩ | ⟨f, h, harg, hclose, hfs, -⟩
    · exact Or.inl hfs
    · exact Or.inr ⟨f, h, harg, hclose, hfs⟩

end Handlers

/-! ## Runs -/

/-- The calls that use the table. -/
def Syscall.onFiles : Syscall → Bool
  | .openFile | .close | .read | .write | .seek => true
  | _ => false

namespace FileSystem

/-- A process makes a call; `k` is what it has besides the file system. -/
def step (fs : FileSystem) : Syscall × Kernel → Option FileSystem
  | (c, k) =>
    if c.onFiles then (c.handler.run { k with fileSystem := fs }).reached.map Kernel.fileSystem
    else none

/-- What happens to the table of open files and the host under it. The other system calls do not
touch them. -/
inductive Use where
  /-- One of the calls that use the table. -/
  | call (c : Syscall) (k : Kernel)
  /-- `SC_Create`. -/
  | create (name : Name)
  /-- The file of a program is opened, and closed again. -/
  | execute (name : Name)

def use (fs : FileSystem) : Use → Option FileSystem
  | .call c k => fs.step (c, k)
  | .create name => fs.create name
  | .execute name => do
    let (executable, fs) ← fs.openFile name 0
    let h ← fs.host.close executable.file
    pure (fs.setHost h)

/-- System start. -/
def Init (fs : FileSystem) : Prop := ∃ h, FileSystem.new h = some fs

/-- No console is closed, and a valid `SC_Open` is made only while a slot is free. -/
def Regular (fs : FileSystem) : Syscall × Kernel → Prop
  | (.close, k) => (k.registers 4).toInt ≠ 0 ∧ (k.registers 4).toInt ≠ 1
  | (.openFile, k) => ∀ name, k.stringArg = some name → 0 < name.length →
      name.length ≤ maxFileLength → k.registers 5 = 0 ∨ k.registers 5 = 1 → fs.findFreeSlot ≠ none
  | _ => True

structure TableInv (fs : FileSystem) : Prop where
  stdin : ∃ f, fs.openState 0 = some f ∧ f.type = 2
  stdout : ∃ f, fs.openState 1 = some f ∧ f.type = 3
  used : ∀ i f, fs.openState i = some f → f.file < fs.host.nextFd
  distinct : ∀ i j f g, fs.openState i = some f → fs.openState j = some g → f.file = g.file → i = j

theorem openFile_frame {fs fs' : FileSystem} {name : Name} {type : ℤ} {f : OpenFile}
    (h : fs.openFile name type = some (f, fs')) :
    fs'.openState = fs.openState ∧ f.file = fs.host.nextFd ∧
      fs'.host.nextFd = fs.host.nextFd + 1 := by
  simp only [openFile, Option.map_eq_some_iff, Prod.mk.injEq] at h
  obtain ⟨⟨fd, h₁⟩, ho, rfl, rfl⟩ := h
  unfold Host.openForReadWrite at ho
  split_ifs at ho
  simp only [Option.map_eq_some_iff, Host.newFd, Prod.mk.injEq] at ho
  obtain ⟨i, -, rfl, rfl⟩ := ho
  exact ⟨rfl, rfl, rfl⟩

theorem create_openState {fs fs' : FileSystem} {name : Name} (h : fs.create name = some fs') :
    fs'.openState = fs.openState := by
  simp only [create, Option.bind_eq_bind, Option.bind_eq_some_iff, Option.pure_def,
    Option.some.injEq] at h
  obtain ⟨_, -, _, -, rfl⟩ := h
  rfl

theorem tableInv_of_init {fs : FileSystem} (h : Init fs) : fs.TableInv := by
  obtain ⟨host, h⟩ := h
  simp only [new, Option.bind_eq_bind, Option.bind_eq_some_iff, Option.pure_def,
    Option.some.injEq] at h
  obtain ⟨fs₁, -, fs₂, -, ⟨f₀, fs₃⟩, h₀, ⟨f₁, fs₄⟩, h₁, rfl⟩ := h
  have h₁ : fs₃.openFile _ 3 = some (f₁, fs₄) := h₁
  obtain ⟨-, hf₀, hn₀⟩ := openFile_frame h₀
  obtain ⟨-, hf₁, hn₁⟩ := openFile_frame h₁
  have hslot : ∀ i f, (if i = 0 then some f₀ else if i = 1 then some f₁ else none) = some f →
      i = 0 ∧ f = f₀ ∨ i = 1 ∧ f = f₁ := by
    intro i f hf
    split_ifs at hf with hi hi
    · exact Or.inl ⟨hi, (Option.some.inj hf).symm⟩
    · exact Or.inr ⟨hi, (Option.some.inj hf).symm⟩
  refine ⟨⟨f₀, rfl, (openFile_spec h₀).1⟩, ⟨f₁, rfl, (openFile_spec h₁).1⟩, ?_, ?_⟩
  · intro i f hf
    show f.file < fs₄.host.nextFd
    rcases hslot i f hf with ⟨-, rfl⟩ | ⟨-, rfl⟩ <;> omega
  · intro i j f g hf hg he
    rcases hslot i f hf with ⟨hi, rfl⟩ | ⟨hi, rfl⟩ <;>
      rcases hslot j g hg with ⟨hj, rfl⟩ | ⟨hj, rfl⟩ <;> omega

variable {fs fs' : FileSystem}

theorem TableInv.kept (h : fs.TableInv) (hk : fs.Kept fs') : fs'.TableInv := by
  -- a file in a slot was there before, with the same type and descriptor
  have back : ∀ i f, fs'.openState i = some f →
      ∃ f₀, fs.openState i = some f₀ ∧ f₀.type = f.type ∧ f₀.file = f.file := by
    intro i f hf
    have hs := hk.slots i
    rw [hf, Option.map_some] at hs
    obtain ⟨f₀, hf₀, he⟩ := Option.map_eq_some_iff.mp hs.symm
    exact ⟨f₀, hf₀, congrArg Prod.fst he, congrArg Prod.snd he⟩
  have forth : ∀ i f₀, fs.openState i = some f₀ → ∃ f, fs'.openState i = some f ∧ f.type = f₀.type := by
    intro i f₀ hf
    have hs := hk.slots i
    rw [hf, Option.map_some] at hs
    obtain ⟨f, hf', he⟩ := Option.map_eq_some_iff.mp hs
    exact ⟨f, hf', congrArg Prod.fst he⟩
  obtain ⟨⟨f₀, h0, ht0⟩, ⟨f₁, h1, ht1⟩, hu, hd⟩ := h
  obtain ⟨g₀, hg0, hgt0⟩ := forth 0 f₀ h0
  obtain ⟨g₁, hg1, hgt1⟩ := forth 1 f₁ h1
  refine ⟨⟨g₀, hg0, hgt0.trans ht0⟩, ⟨g₁, hg1, hgt1.trans ht1⟩, ?_, ?_⟩
  · intro i f hf
    obtain ⟨f', hf', -, he⟩ := back i f hf
    rw [hk.nextFd, ← he]
    exact hu i f' hf'
  · intro i j f g hf hg he
    obtain ⟨f', hf', -, hef⟩ := back i f hf
    obtain ⟨g', hg', -, heg⟩ := back j g hg
    exact hd i j f' g' hf' hg' (by rw [hef, heg, he])

theorem findFreeSlot_range {slot : ℕ} (h : fs.findFreeSlot = some slot) : 2 ≤ slot ∧ slot ≤ 9 := by
  have hmem := List.mem_of_find?_eq_some h
  simp only [List.mem_cons, List.not_mem_nil, or_false] at hmem
  omega

theorem TableInv.opened (h : fs.TableInv) {slot : ℕ} {name : Name} {type : ℤ} {f : OpenFile}
    (hs : fs.findFreeSlot = some slot) (ho : fs.openFile name type = some (f, fs')) :
    (fs'.setSlot slot (some f)).TableInv := by
  obtain ⟨hst, hf, hn⟩ := openFile_frame ho
  obtain ⟨h2, -⟩ := findFreeSlot_range hs
  have hslot : ∀ i, (fs'.setSlot slot (some f)).openState i =
      if i = slot then some f else fs.openState i := by
    intro i
    rw [← hst]
    exact Function.update_apply _ _ _ _
  obtain ⟨⟨f₀, h0, ht0⟩, ⟨f₁, h1, ht1⟩, hu, hd⟩ := h
  refine ⟨⟨f₀, ?_, ht0⟩, ⟨f₁, ?_, ht1⟩, ?_, ?_⟩
  · rw [hslot, if_neg (by omega), h0]
  · rw [hslot, if_neg (by omega), h1]
  · intro i g hg
    rw [hslot] at hg
    show g.file < fs'.host.nextFd
    rw [hn]
    split_ifs at hg
    · cases hg
      omega
    · have := hu i g hg
      omega
  · intro i j g₁ g₂ hg₁ hg₂ he
    rw [hslot] at hg₁ hg₂
    split_ifs at hg₁ hg₂ with hi hj hj
    · omega
    · cases hg₁
      have := hu j g₂ hg₂
      omega
    · cases hg₂
      have := hu i g₁ hg₁
      omega
    · exact hd i j g₁ g₂ hg₁ hg₂ he

theorem TableInv.closed (h : fs.TableInv) {id fd : ℕ} {host : Host} (h2 : 2 ≤ id)
    (hc : fs.host.close fd = some host) : ((fs.setHost host).setSlot id none).TableInv := by
  have hn : host.nextFd = fs.host.nextFd := by
    rw [Host.close_eq_some hc]
    rfl
  have hslot : ∀ i g, ((fs.setHost host).setSlot id none).openState i = some g →
      fs.openState i = some g := by
    intro i g hg
    have hg : Function.update fs.openState id none i = some g := hg
    rw [Function.update_apply] at hg
    split_ifs at hg
    exact hg
  have hother : ∀ i, i ≠ id →
      ((fs.setHost host).setSlot id none).openState i = fs.openState i :=
    fun i hi => Function.update_of_ne hi _ _
  obtain ⟨⟨f₀, h0, ht0⟩, ⟨f₁, h1, ht1⟩, hu, hd⟩ := h
  refine ⟨⟨f₀, ?_, ht0⟩, ⟨f₁, ?_, ht1⟩, ?_, ?_⟩
  · rw [hother 0 (by omega), h0]
  · rw [hother 1 (by omega), h1]
  · intro i g hg
    show g.file < host.nextFd
    rw [hn]
    exact hu i g (hslot i g hg)
  · exact fun i j f g hf hg he => hd i j f g (hslot i f hf) (hslot j g hg) he

theorem TableInv.step (h : fs.TableInv) {l : Syscall × Kernel} (hr : Regular fs l)
    (hs : fs.step l = some fs') : fs'.TableInv := by
  obtain ⟨c, k⟩ := l
  obtain ⟨hc, hs⟩ := Option.ite_none_right_eq_some.mp hs
  obtain ⟨k', hk', rfl⟩ := Option.map_eq_some_iff.mp hs
  cases c with
  | read => exact h.kept (unwritten_scRead _ k' hk').kept
  | write => exact h.kept (kept_scWrite _ k' hk')
  | seek => exact h.kept (unwritten_scSeek _ k' hk').kept
  | openFile =>
    rcases scOpen_reached hk' with hfs | ⟨slot, name, f, fs₁, hslot, hopen, hfs⟩
    · rw [hfs]
      exact h
    · rw [hfs]
      exact h.opened hslot hopen
  | close =>
    rcases scClose_reached hk' with hfs | ⟨f, host, harg, hclose, hfs⟩
    · rw [hfs]
      exact h
    · rw [hfs]
      refine h.closed ?_ hclose
      unfold Kernel.fileArg at harg
      split_ifs at harg with hid
      obtain ⟨h0, h1⟩ := hr
      dsimp only at hid ⊢
      omega
  | _ => cases hc

theorem tableInv_of_reach (h : Run.ReachBy step Regular Init fs) : fs.TableInv :=
  h.inv TableInv (fun _ => tableInv_of_init) fun _ _ _ hi hr hs => hi.step hr hs

/-- A kernel whose running process has `r4`, `r5` and `r6` in the argument registers, and a page
with a file name at address 0. -/
def caller (r4 r5 r6 : Word) : Kernel where
  thread := 0
  registers := fun i => if i = 4 then r4 else if i = 5 then r5 else if i = 6 then r6 else 0
  pageTable := [{ virtualPage := 0, physicalPage := 0, valid := true, readOnly := false, use := false,
                  dirty := false }]
  memory := fun a => if a = 0 then 0x61 else 0
  fileSystem := { openState := fun _ => none, host := Host.empty }
  semTab := STable.new fun _ => 0
  pTab := Procs.initial fun _ => 0
  input := []
  output := []
  printed := []

/-- A host with an empty file `a`. -/
def hostWithFile : Host :=
  { Host.empty with names := fun n => if n = [0x61] then some 0 else none, nextInode := 1 }

end FileSystem

end Nachos
