import Nachos.Filesys.SeekPosition
import Nachos.Userprog.Files
import Nachos.Userprog.Outcome

/-!
# `SC_Seek` and the positions of open files

The handler does not look at a position that is less than -1. On an ordinary file `Lseek` of the
stub aborts at it, so that the positions stay offsets; `Seek` of the FILESYS build stores it.
`seek_positions` has both: the calls that are refused, and the positions in the states of a run.
-/

namespace Nachos

open Prog

/-- `SC_Seek` returns -1 and changes no file. -/
def RejectsSeek (k : Kernel) : Prop :=
  ∃ leave k', scSeek.run k = .done leave k' ∧ k'.registers 2 = -1 ∧ k'.fileSystem = k.fileSystem

/-- The id in register 5 is that of an open file which is not a console. -/
def Kernel.SeeksFile (k : Kernel) : Prop :=
  2 ≤ (k.registers 5).toInt ∧ (k.registers 5).toInt ≤ 9 ∧
    k.fileSystem.openState (k.registers 5).toInt.toNat ≠ none

theorem rejectsSeek_of_not_seeksFile {k : Kernel} (h : ¬ k.SeeksFile) : RejectsSeek k := by
  unfold RejectsSeek scSeek
  simp only [run_bind, readRegister, run_look, Res.bind_done]
  have hminus : ∀ k : Kernel, (k.registers.write 2 (-1)) 2 = -1 :=
    fun k => Registers.write_self k.registers 2 _
  by_cases hid : (k.registers 5).toInt < 0 ∨ (k.registers 5).toInt > 9
  · rw [if_pos hid]
    exact ⟨_, _, rfl, hminus k, rfl⟩
  rw [if_neg hid, run_bind, run_look, Res.bind_done]
  rcases hf : k.fileSystem.openState (k.registers 5).toInt.toNat with _ | f
  · exact ⟨_, _, rfl, hminus k, rfl⟩
  dsimp only
  have hconsole : (k.registers 5).toInt = 0 ∨ (k.registers 5).toInt = 1 := by
    by_contra hc
    exact h ⟨by omega, by omega, hf ▸ Option.some_ne_none f⟩
  rw [if_pos hconsole]
  exact ⟨_, _, rfl, hminus k, rfl⟩

/-- `Lseek` aborts. -/
theorem scSeek_aborts {k : Kernel} (hpos : (k.registers 4).toInt < -1) (h : k.SeeksFile) :
    scSeek.run k = .stop (.down .aborted) := by
  obtain ⟨h2, h9, hopen⟩ := h
  obtain ⟨f, hf⟩ := Option.ne_none_iff_exists'.mp hopen
  unfold scSeek
  simp only [run_bind, readRegister, run_look, Res.bind_done]
  rw [if_neg (by omega), run_bind, run_look, Res.bind_done, hf]
  dsimp only
  rw [if_neg (by omega), if_neg (by omega), run_bind, run_pure, Res.bind_done, run_bind]
  have hseek : ∀ h : Host, f.seek h (k.registers 4).toInt = none := by
    intro h
    unfold OpenFile.seek Host.lseek
    rcases h.fds f.file with _ | d
    · rfl
    · dsimp only
      rw [if_pos (by omega)]
      rfl
  unfold onFile fileOp
  simp only [hf, hseek, Option.map_none, Option.bind_eq_bind, Option.bind_some, Option.bind_none]
  rfl

theorem rejectsSeek_iff {k : Kernel} (hpos : (k.registers 4).toInt < -1) :
    RejectsSeek k ↔ ¬ k.SeeksFile := by
  refine ⟨?_, rejectsSeek_of_not_seeksFile⟩
  rintro ⟨leave, k', hdone, -⟩ hseeks
  rw [scSeek_aborts hpos hseeks] at hdone
  cases hdone

/-! ## The positions of the stub -/

namespace FileSystem

/-- The open files have descriptors of their own, at their positions, and all is below `2 ^ 31`. -/
structure PositionInv (fs : FileSystem) : Prop where
  used : ∀ i f, fs.openState i = some f → f.file < fs.host.nextFd
  distinct : ∀ i j f g, fs.openState i = some f → fs.openState j = some g → f.file = g.file → i = j
  position : ∀ i f, fs.openState i = some f →
    ∃ d, fs.host.fds f.file = some d ∧ f.currentOffset = d.offset ∧ d.offset < 2 ^ 31
  short : ∀ inode, (fs.host.contents inode).length < 2 ^ 31

/-- One descriptor, which was open, is now `d`. -/
structure MovesFd (h : Host) (fd : ℕ) (d : Descriptor) (h' : Host) : Prop where
  nextFd : h'.nextFd = h.nextFd
  fds : h'.fds = Function.update h.fds fd (some d)

section Hosts

variable {h h₁ h' : Host} {fd : ℕ} {d d' : Descriptor}

theorem MovesFd.fds_self (hm : MovesFd h fd d h') : h'.fds fd = some d := by
  rw [hm.fds, Function.update_self]

theorem MovesFd.trans (hm : MovesFd h fd d h₁) (hm' : MovesFd h₁ fd d' h') : MovesFd h fd d' h' :=
  ⟨hm'.nextFd.trans hm.nextFd, by rw [hm'.fds, hm.fds, Function.update_idem]⟩

theorem movesFd_lseek {pos : ℤ} (hd : h.fds fd = some d) (hl : h.lseek fd pos = some h') :
    0 ≤ pos ∧ h'.contents = h.contents ∧ MovesFd h fd { d with offset := pos.toNat } h' := by
  obtain ⟨d', hd', hpos, rfl⟩ := Host.lseek_eq_some hl
  rw [hd, Option.some.injEq] at hd'
  subst hd'
  exact ⟨hpos, rfl, rfl, rfl⟩

theorem movesFd_lseekEnd (hd : h.fds fd = some d) (he : h.lseekEnd fd = some h') :
    h'.contents = h.contents ∧
      MovesFd h fd { d with offset := (h.contents d.inode).length } h' := by
  unfold Host.lseekEnd at he
  rw [hd] at he
  cases he
  exact ⟨rfl, rfl, rfl⟩

theorem movesFd_readPartial {bytes : List Byte} {n : ℕ} (hd : h.fds fd = some d)
    (hr : h.readPartial fd n = (bytes, h')) :
    bytes.length ≤ (h.contents d.inode).length - d.offset ∧ h'.contents = h.contents ∧
      MovesFd h fd { d with offset := d.offset + bytes.length } h' := by
  unfold Host.readPartial at hr
  rw [hd] at hr
  cases hr
  refine ⟨?_, rfl, rfl, rfl⟩
  rw [List.length_take, List.length_drop]
  exact Nat.min_le_right _ _

theorem length_overwrite_le (file bytes : List Byte) (offset : ℕ) :
    (Host.overwrite file offset bytes).length ≤ max file.length (offset + bytes.length) := by
  unfold Host.overwrite
  split_ifs
  · exact le_max_left _ _
  · simp only [List.length_append, List.length_take, List.length_replicate, List.length_drop]
    omega

theorem movesFd_writeFile {bytes : List Byte} (hd : h.fds fd = some d)
    (hw : h.writeFile fd bytes = some h') (hend : d.offset + bytes.length < 2 ^ 31)
    (hshort : ∀ inode, (h.contents inode).length < 2 ^ 31) :
    (∀ inode, (h'.contents inode).length < 2 ^ 31) ∧
      MovesFd h fd { d with offset := d.offset + bytes.length } h' := by
  unfold Host.writeFile at hw
  rw [hd] at hw
  cases hw
  refine ⟨fun inode => ?_, rfl, rfl⟩
  show (Function.update h.contents d.inode _ inode).length < _
  by_cases hi : inode = d.inode
  · subst hi
    rw [Function.update_self]
    exact lt_of_le_of_lt (length_overwrite_le _ _ _) (max_lt (hshort _) hend)
  · rw [Function.update_of_ne hi]
    exact hshort inode

end Hosts

variable {fs fs' : FileSystem}

/-- A method of an open file that leaves it at its descriptor's position. -/
theorem PositionInv.moved (hi : fs.PositionInv) {id : ℕ} {f f' : OpenFile} {d : Descriptor}
    {h' : Host} (hf : fs.openState id = some f) (hfile : f'.file = f.file)
    (hm : MovesFd fs.host f.file d h') (hpos : f'.currentOffset = d.offset)
    (hlt : d.offset < 2 ^ 31) (hshort : ∀ inode, (h'.contents inode).length < 2 ^ 31) :
    ((fs.setHost h').setSlot id (some f')).PositionInv := by
  -- what is in a slot has the descriptor of what was in it
  have hback : ∀ i g, ((fs.setHost h').setSlot id (some f')).openState i = some g →
      i = id ∧ g = f' ∨ i ≠ id ∧ fs.openState i = some g := by
    intro i g hg
    have hg : Function.update fs.openState id (some f') i = some g := hg
    by_cases hid : i = id
    · subst hid
      rw [Function.update_self] at hg
      exact Or.inl ⟨rfl, (Option.some.inj hg).symm⟩
    · rw [Function.update_of_ne hid] at hg
      exact Or.inr ⟨hid, hg⟩
  refine ⟨fun i g hg => ?_, fun i j g₁ g₂ hg₁ hg₂ he => ?_, fun i g hg => ?_, hshort⟩
  · show g.file < h'.nextFd
    rw [hm.nextFd]
    rcases hback i g hg with ⟨-, rfl⟩ | ⟨-, hold⟩
    · rw [hfile]
      exact hi.used id f hf
    · exact hi.used i g hold
  · rcases hback i g₁ hg₁ with ⟨rfl, rfl⟩ | ⟨hid₁, hold₁⟩ <;>
      rcases hback j g₂ hg₂ with ⟨rfl, rfl⟩ | ⟨hid₂, hold₂⟩
    · rfl
    · exact hi.distinct i j f g₂ hf hold₂ (hfile ▸ he)
    · exact hi.distinct i j g₁ f hold₁ hf (hfile ▸ he)
    · exact hi.distinct i j g₁ g₂ hold₁ hold₂ he
  · show ∃ d, h'.fds g.file = some d ∧ _
    rcases hback i g hg with ⟨-, rfl⟩ | ⟨hid, hold⟩
    · rw [hfile]
      exact ⟨d, hm.fds_self, hpos, hlt⟩
    · rw [hm.fds, Function.update_of_ne fun he => hid (hi.distinct i id g f hold hf he)]
      exact hi.position i g hold

/-- The host is used otherwise: open descriptors stay, and files stay short. -/
theorem PositionInv.hosted (hi : fs.PositionInv) {h : Host} (hnext : fs.host.nextFd ≤ h.nextFd)
    (hfds : ∀ fd < fs.host.nextFd, h.fds fd = fs.host.fds fd)
    (hshort : ∀ inode, (h.contents inode).length < 2 ^ 31) : (fs.setHost h).PositionInv := by
  refine ⟨fun i f hf => lt_of_lt_of_le (hi.used i f hf) hnext, hi.distinct, fun i f hf => ?_,
    hshort⟩
  obtain ⟨d, hd, hpos⟩ := hi.position i f hf
  exact ⟨d, (hfds f.file (hi.used i f hf)).trans hd, hpos⟩

theorem PositionInv.opened (hi : fs.PositionInv) (slot : ℕ) {name : Name} {type : ℤ} {f : OpenFile}
    (ho : fs.openFile name type = some (f, fs')) : (fs'.setSlot slot (some f)).PositionInv := by
  simp only [openFile, Option.map_eq_some_iff, Prod.mk.injEq] at ho
  obtain ⟨⟨fd, h₁⟩, ho, rfl, rfl⟩ := ho
  unfold Host.openForReadWrite at ho
  split_ifs at ho
  simp only [Option.map_eq_some_iff, Host.newFd, Prod.mk.injEq] at ho
  obtain ⟨inode, -, rfl, rfl⟩ := ho
  set f : OpenFile := { type := type, file := fs.host.nextFd, currentOffset := 0 }
  have hback : ∀ i g, Function.update fs.openState slot (some f) i = some g →
      i = slot ∧ g = f ∨ fs.openState i = some g := by
    intro i g hg
    by_cases hi : i = slot
    · subst hi
      rw [Function.update_self] at hg
      exact Or.inl ⟨rfl, (Option.some.inj hg).symm⟩
    · rw [Function.update_of_ne hi] at hg
      exact Or.inr hg
  refine ⟨fun i g hg => ?_, fun i j g₁ g₂ hg₁ hg₂ he => ?_, fun i g hg => ?_, hi.short⟩
  · show g.file < fs.host.nextFd + 1
    rcases hback i g hg with ⟨-, rfl⟩ | hold
    · exact Nat.lt_succ_self _
    · exact Nat.lt_succ_of_lt (hi.used i g hold)
  · rcases hback i g₁ hg₁ with ⟨hslot₁, rfl⟩ | hold₁ <;>
      rcases hback j g₂ hg₂ with ⟨hslot₂, rfl⟩ | hold₂
    · rw [hslot₁, hslot₂]
    · exact absurd he (ne_of_gt (hi.used j g₂ hold₂))
    · exact absurd he (ne_of_lt (hi.used i g₁ hold₁))
    · exact hi.distinct i j g₁ g₂ hold₁ hold₂ he
  · show ∃ d, Function.update fs.host.fds fs.host.nextFd _ g.file = some d ∧ _
    rcases hback i g hg with ⟨-, rfl⟩ | hold
    · exact ⟨_, Function.update_self _ _ _, rfl, Nat.two_pow_pos 31⟩
    · rw [Function.update_of_ne (ne_of_lt (hi.used i g hold))]
      exact hi.position i g hold

/-- What is in a slot is not looked at. -/
theorem openFile_setSlot {name : Name} {type : ℤ} {f : OpenFile}
    (ho : fs.openFile name type = some (f, fs')) (i : ℕ) (g : Option OpenFile) :
    (fs.setSlot i g).openFile name type = some (f, fs'.setSlot i g) := by
  simp only [openFile, Option.map_eq_some_iff, Prod.mk.injEq] at ho ⊢
  obtain ⟨p, hp, rfl, rfl⟩ := ho
  exact ⟨p, hp, rfl, rfl⟩

theorem PositionInv.closed (hi : fs.PositionInv) {id : ℕ} {f : OpenFile} {host : Host}
    (hf : fs.openState id = some f) (hc : fs.host.close f.file = some host) :
    ((fs.setHost host).setSlot id none).PositionInv := by
  obtain rfl := Host.close_eq_some hc
  have hback : ∀ i g, Function.update fs.openState id none i = some g →
      i ≠ id ∧ fs.openState i = some g := by
    intro i g hg
    rw [Function.update_apply] at hg
    split_ifs at hg with hid
    exact ⟨hid, hg⟩
  refine ⟨fun i g hg => hi.used i g (hback i g hg).2, fun i j g₁ g₂ hg₁ hg₂ he =>
    hi.distinct i j g₁ g₂ (hback i g₁ hg₁).2 (hback j g₂ hg₂).2 he, fun i g hg => ?_, hi.short⟩
  obtain ⟨hid, hold⟩ := hback i g hg
  show ∃ d, Function.update fs.host.fds f.file none g.file = some d ∧ _
  rw [Function.update_of_ne fun he => hid (hi.distinct i id g f hold hf he)]
  exact hi.position i g hold

/-! ## The calls -/

/-- The positions stay those of the descriptors. -/
def KeepsPositions (fs fs' : FileSystem) : Prop := fs.PositionInv → fs'.PositionInv

theorem keepsPositions_refl (fs : FileSystem) : fs.KeepsPositions fs := id

theorem kernel_keepsPositions_trans (k₁ k₂ k₃ : Kernel) (h₁ : OnFiles KeepsPositions k₁ k₂)
    (h₂ : OnFiles KeepsPositions k₂ k₃) : OnFiles KeepsPositions k₁ k₃ := h₂ ∘ h₁

theorem keepsPositions_getCurrentPos (id : ℕ) :
    Within (OnFiles KeepsPositions) (getCurrentPos id) := by
  apply within_onFile
  intro fs f a f' h' hf ho hi
  cases ho
  obtain ⟨d, hd, -, hlt⟩ := hi.position id f hf
  refine hi.moved (d := d) hf rfl ⟨rfl, ?_⟩ (Host.tell_of_some hd) hlt hi.short
  rw [← hd, Function.update_eq_self]

/-- What is read ends where the file ends, or the position stays. -/
theorem keepsPositions_read (id n : ℕ) :
    Within (OnFiles KeepsPositions) (onFile id fun f h => f.read h n) := by
  apply within_onFile
  intro fs f a f' h' hf ho hi
  simp only [OpenFile.read, OpenFile.readAt, Option.bind_eq_bind, Option.bind_eq_some_iff,
    Option.pure_def, Option.some.injEq] at ho
  obtain ⟨⟨bytes, h₂⟩, ⟨h₁, hl, hr⟩, ho⟩ := ho
  simp only [Prod.mk.injEq] at ho
  obtain ⟨-, rfl, rfl⟩ := ho
  obtain ⟨d, hd, hpos, hlt⟩ := hi.position id f hf
  rw [hpos] at hl
  obtain ⟨-, hc₁, hm₁⟩ := movesFd_lseek hd hl
  obtain ⟨hlen, hc₂, hm₂⟩ := movesFd_readPartial hm₁.fds_self hr
  rw [Int.toNat_natCast] at hlen hm₂
  have hshort : (h₁.contents d.inode).length < 2 ^ 31 := by
    rw [hc₁]
    exact hi.short d.inode
  refine hi.moved hf rfl (hm₁.trans hm₂) ?_ ?_ ?_
  · dsimp only
    rw [hpos, Nat.cast_add]
  · dsimp only at hlen ⊢
    omega
  · rw [hc₂, hc₁]
    exact hi.short

theorem onFile_cases {α : Type} (id : ℕ) (op : OpenFile → Host → Option (α × OpenFile × Host))
    (k : Kernel) :
    (∃ d, (onFile id op).run k = .stop d) ∨ ∃ f a f' h', k.fileSystem.openState id = some f ∧
      op f k.fileSystem.host = some (a, f', h') ∧ (onFile id op).run k =
        .done a { k with fileSystem := (k.fileSystem.setHost h').setSlot id (some f') } := by
  unfold onFile fileOp
  dsimp only
  rcases hf : k.fileSystem.openState id with _ | f
  · exact Or.inl ⟨.down .aborted, by simp only [Option.bind_eq_bind, Option.bind_none]⟩
  · rcases ho : op f k.fileSystem.host with _ | ⟨a, f', h'⟩
    · exact Or.inl ⟨.down .aborted, by simp only [Option.bind_eq_bind, Option.bind_some, ho,
        Option.bind_none]⟩
    · exact Or.inr ⟨f, a, f', h', rfl, ho, by simp only [Option.bind_eq_bind, Option.bind_some, ho,
        Option.pure_def]⟩

/-- A position that is asked for, or the length of the file. -/
theorem positionInv_seek {id : ℕ} {pos : ℤ} {f f' : OpenFile} {h' : Host} (hi : fs.PositionInv)
    (hpos : pos < 2 ^ 31) (hf : fs.openState id = some f)
    (hs : f.seek fs.host pos = some (f', h')) :
    ((fs.setHost h').setSlot id (some f')).PositionInv := by
  simp only [OpenFile.seek, Option.bind_eq_bind, Option.bind_eq_some_iff, Option.pure_def,
    Option.some.injEq, Prod.mk.injEq] at hs
  obtain ⟨h₁, hl, rfl, rfl⟩ := hs
  obtain ⟨d, hd, -, -⟩ := hi.position id f hf
  obtain ⟨h0, hc, hm⟩ := movesFd_lseek hd hl
  refine hi.moved (d := { d with offset := pos.toNat }) hf rfl hm (Host.tell_of_some hm.fds_self)
    (by dsimp only; omega) ?_
  rw [hc]
  exact hi.short

/-- A request that ends below `2 ^ 31`. -/
theorem positionInv_write {id : ℕ} {bytes : List Byte} {written : ℤ} {f f' : OpenFile} {h' : Host}
    (hi : fs.PositionInv) (hf : fs.openState id = some f)
    (hend : f.currentOffset + bytes.length < 2 ^ 31)
    (hw : f.write fs.host bytes = some (written, f', h')) :
    ((fs.setHost h').setSlot id (some f')).PositionInv := by
  simp only [OpenFile.write, OpenFile.writeAt, Option.bind_eq_bind, Option.bind_eq_some_iff,
    Option.pure_def, Option.some.injEq, Prod.mk.injEq] at hw
  obtain ⟨h₂, ⟨h₁, hl, hw⟩, -, rfl, rfl⟩ := hw
  obtain ⟨d, hd, hpos, -⟩ := hi.position id f hf
  rw [hpos] at hl hend
  obtain ⟨-, hc, hm₁⟩ := movesFd_lseek hd hl
  have hshort : ∀ inode, (h₁.contents inode).length < 2 ^ 31 := by
    rw [hc]
    exact hi.short
  rw [Int.toNat_natCast] at hm₁
  have hlt : d.offset + bytes.length < 2 ^ 31 := by omega
  obtain ⟨hshort₂, hm₂⟩ := movesFd_writeFile hm₁.fds_self hw hlt hshort
  refine hi.moved hf rfl (hm₁.trans hm₂) ?_ hlt hshort₂
  dsimp only
  rw [hpos, Nat.cast_add]

theorem positionInv_length {id : ℕ} {f : OpenFile} {len : ℤ} {h' : Host} (hi : fs.PositionInv)
    (hf : fs.openState id = some f) (hl : f.length fs.host = some (len, h')) :
    len < 2 ^ 31 ∧ ((fs.setHost h').setSlot id (some f)).PositionInv := by
  simp only [OpenFile.length, Option.bind_eq_bind, Option.bind_eq_some_iff, Option.pure_def,
    Option.some.injEq, Prod.mk.injEq] at hl
  obtain ⟨h₁, he, h₂, hl, rfl, rfl⟩ := hl
  obtain ⟨d, hd, hpos, hlt⟩ := hi.position id f hf
  obtain ⟨hc₁, hm₁⟩ := movesFd_lseekEnd hd he
  rw [hpos] at hl
  obtain ⟨-, hc₂, hm₂⟩ := movesFd_lseek hm₁.fds_self hl
  constructor
  · rw [Host.tell_of_some hm₁.fds_self]
    exact Nat.cast_lt_ofNat.mpr (hi.short d.inode)
  · refine hi.moved hf rfl (hm₁.trans hm₂) hpos ?_ ?_
    · exact hlt
    · rw [hc₂, hc₁]
      exact hi.short

section Handlers

variable {k k' : Kernel}

/-- `GetCurrentPos` of a file at its descriptor's position. -/
theorem getCurrentPos_run {id : ℕ} {f : OpenFile} {d : Descriptor}
    (hf : k.fileSystem.openState id = some f) (hd : k.fileSystem.host.fds f.file = some d)
    (hpos : f.currentOffset = d.offset) : (getCurrentPos id).run k = .done f.currentOffset k := by
  have htell : k.fileSystem.host.tell f.file = f.currentOffset := by
    rw [hpos, Host.tell_of_some hd]
  have hsame : (k.fileSystem.setHost k.fileSystem.host).setSlot id (some f) = k.fileSystem := by
    unfold setSlot setHost
    dsimp only
    rw [← hf, Function.update_eq_self]
  unfold getCurrentPos onFile fileOp OpenFile.getCurrentPos
  simp only [hf, htell, hsame, Option.bind_eq_bind, Option.bind_some, Option.pure_def]

/-- `Seek`, and what `SC_Seek` does after it. -/
theorem positionInv_seekTo {id : ℕ} {pos : ℤ} (hi : k.fileSystem.PositionInv) (hpos : pos < 2 ^ 31)
    (hk : ((do
      onFile id fun f h => (f.seek h pos).map fun (f, h) => ((), f, h)
      writeRegister 2 (BitVec.ofInt 32 pos)
      pure .brk : KernelM Leave).run k).reached = some k') : k'.fileSystem.PositionInv := by
  rw [run_bind] at hk
  rcases onFile_cases id (fun f h => (f.seek h pos).map fun (f, h) => ((), f, h)) k with
    ⟨d, hd⟩ | ⟨f, a, f', h', hf, hop, hd⟩
  · rw [hd] at hk
    cases hk
  · rw [hd] at hk
    cases hk
    simp only [Option.map_eq_some_iff, Prod.mk.injEq] at hop
    obtain ⟨⟨f₁, h₁⟩, hs, -, rfl, rfl⟩ := hop
    exact positionInv_seek hi hpos hf hs

theorem length_cases (id : ℕ) (k : Kernel) :
    (∃ d, (onFile id fun f h => do let (len, h) ← f.length h; pure (len, f, h)).run k = .stop d) ∨
      ∃ f len h', k.fileSystem.openState id = some f ∧
        f.length k.fileSystem.host = some (len, h') ∧
        (onFile id fun f h => do let (len, h) ← f.length h; pure (len, f, h)).run k =
          .done len { k with fileSystem := (k.fileSystem.setHost h').setSlot id (some f) } := by
  refine (onFile_cases id _ k).imp_right ?_
  rintro ⟨f, len, f', h', hf, hop, hd⟩
  simp only [Option.bind_eq_bind, Option.bind_eq_some_iff, Option.pure_def, Option.some.injEq,
    Prod.mk.injEq] at hop
  obtain ⟨⟨len, h₁⟩, hl, rfl, rfl, rfl⟩ := hop
  exact ⟨f, len, h₁, hf, hl, hd⟩

theorem positionInv_scSeek (hi : k.fileSystem.PositionInv)
    (hk : (scSeek.run k).reached = some k') : k'.fileSystem.PositionInv := by
  unfold scSeek at hk
  simp only [run_bind, readRegister, run_look, Res.bind_done] at hk
  by_cases hid : (k.registers 5).toInt < 0 ∨ (k.registers 5).toInt > 9
  · rw [if_pos hid] at hk
    cases hk
    exact hi
  rw [if_neg hid, run_bind, run_look, Res.bind_done] at hk
  rcases hf : k.fileSystem.openState (k.registers 5).toInt.toNat with _ | f
  · rw [hf] at hk
    cases hk
    exact hi
  rw [hf] at hk
  dsimp only at hk
  by_cases hconsole : (k.registers 5).toInt = 0 ∨ (k.registers 5).toInt = 1
  · rw [if_pos hconsole] at hk
    cases hk
    exact hi
  rw [if_neg hconsole] at hk
  by_cases hend : (k.registers 4).toInt = -1
  · rw [if_pos hend, run_bind] at hk
    rcases length_cases (k.registers 5).toInt.toNat k with ⟨d, hd⟩ | ⟨f, len, h₁, hf, hl, hd⟩
    · rw [hd] at hk
      cases hk
    · rw [hd, Res.bind_done] at hk
      obtain ⟨hlen, hmoved⟩ := positionInv_length hi hf hl
      exact positionInv_seekTo (k := { k with
        fileSystem := (k.fileSystem.setHost h₁).setSlot (k.registers 5).toInt.toNat (some f) })
        hmoved hlen hk
  · rw [if_neg hend, run_bind, run_pure, Res.bind_done] at hk
    exact positionInv_seekTo hi (k.registers 4).toInt_lt hk

/-- `SC_Write` when the request ends below `2 ^ 31`. -/
theorem positionInv_scWrite (hi : k.fileSystem.PositionInv)
    (hshort : ∀ f, k.fileArg 6 = some f → f.currentOffset + (k.registers 5).toInt < 2 ^ 31)
    (hk : (scWrite.run k).reached = some k') : k'.fileSystem.PositionInv := by
  unfold scWrite checkTransfer at hk
  simp only [run_bind, readRegister, run_look, Res.bind_done] at hk
  by_cases hcount : (k.registers 5).toInt < 0
  · rw [if_pos hcount] at hk
    cases hk
    exact hi
  rw [if_neg hcount] at hk
  by_cases hid : (k.registers 6).toInt < 0 ∨ (k.registers 6).toInt > 9
  · rw [if_pos hid] at hk
    cases hk
    exact hi
  rw [if_neg hid, run_bind, run_look, Res.bind_done] at hk
  rcases hf : k.fileSystem.openState (k.registers 6).toInt.toNat with _ | f
  · rw [hf] at hk
    cases hk
    exact hi
  rw [hf] at hk
  dsimp only at hk
  by_cases hstdin : f.type = 2
  · rw [if_pos hstdin] at hk
    cases hk
    exact hi
  have hroom := hshort f (fileArg_eq (by omega) hf)
  obtain ⟨d, hd, hpos, -⟩ := hi.position _ f hf
  rw [if_neg hstdin, run_bind, getCurrentPos_run hf hd hpos, Res.bind_done, run_bind] at hk
  rcases user2System_cases (k.registers 4) (k.registers 5).toInt.toNat k with
    ⟨d, hs⟩ | ⟨buffer, pt, hs⟩
  · rw [hs] at hk
    cases hk
  rw [hs, Res.bind_done] at hk
  by_cases hstdout : f.type = 3
  · rw [if_pos hstdout] at hk
    have hk := within_writeStdoutLoop keepsPositions_refl buffer.length _ k' hk
    exact hk hi
  rw [if_neg hstdout, run_bind] at hk
  generalize hbytes : buffer.take (k.registers 5).toInt.toNat = bytes at hk
  have hlen : (bytes.length : ℤ) ≤ (k.registers 5).toInt := by
    rw [← hbytes, List.length_take]
    omega
  rcases onFile_cases (k.registers 6).toInt.toNat (fun f h => f.write h bytes)
      { k with pageTable := pt } with ⟨d, hd⟩ | ⟨f, written, f', h', hf', hop, hd⟩
  · rw [hd] at hk
    cases hk
  rw [hd, Res.bind_done] at hk
  obtain rfl := Option.some.inj (hf.symm.trans hf')
  have hmoved := positionInv_write hi hf (by omega) hop
  have hafter : Within (OnFiles KeepsPositions) (if written > 0 then do
      let newPos ← getCurrentPos (k.registers 6).toInt.toNat
      writeRegister 2 (BitVec.ofInt 32 (newPos - f.currentOffset))
      pure Leave.brk
    else pure .brk) := by
    have hrefl : ∀ k : Kernel, OnFiles KeepsPositions k k := fun k => keepsPositions_refl _
    split_ifs
    · refine (keepsPositions_getCurrentPos _).bind kernel_keepsPositions_trans fun newPos => ?_
      exact (within_writeRegister keepsPositions_refl _ _).bind kernel_keepsPositions_trans
        fun _ => within_pure hrefl _
    · exact within_pure hrefl _
  exact hafter _ k' hk hmoved

end Handlers

/-! ## Runs -/

/-- System start on a host whose files are shorter than `2 ^ 31` bytes. -/
def Starts (fs : FileSystem) : Prop :=
  ∃ h : Host, (∀ inode, (h.contents inode).length < 2 ^ 31) ∧ FileSystem.new h = some fs

/-- A request of `SC_Write` on an open file ends below `2 ^ 31`. -/
def EndsBelow (fs : FileSystem) : Use → Prop
  | .call .write k => ∀ f, Kernel.fileArg { k with fileSystem := fs } 6 = some f →
      f.currentOffset + (k.registers 5).toInt < 2 ^ 31
  | _ => True

/-- A descriptor that is closed again leaves the other ones. -/
theorem PositionInv.newFd (hi : fs.PositionInv) {h h₁ h₂ : Host} {inode fd : ℕ}
    (hnext : h.nextFd = fs.host.nextFd) (hfds : h.fds = fs.host.fds)
    (hshort : ∀ inode, (h.contents inode).length < 2 ^ 31) (hn : h.newFd inode = (fd, h₁))
    (hc : h₁.close fd = some h₂) : (fs.setHost h₂).PositionInv := by
  obtain rfl := Host.close_eq_some hc
  unfold Host.newFd at hn
  cases hn
  refine hi.hosted (by rw [← hnext]; exact Nat.le_succ _) (fun x hx => ?_) hshort
  have hne : x ≠ h.nextFd := by omega
  show Function.update (Function.update h.fds h.nextFd _) h.nextFd none x = _
  rw [Function.update_of_ne hne, Function.update_of_ne hne, hfds]

theorem PositionInv.created (hi : fs.PositionInv) {name : Name} (hc : fs.create name = some fs') :
    fs'.PositionInv := by
  simp only [create, Option.bind_eq_bind, Option.bind_eq_some_iff, Option.pure_def,
    Option.some.injEq] at hc
  obtain ⟨⟨fd, h₁⟩, ho, h₂, hcl, rfl⟩ := hc
  -- the file is empty after `OpenForWrite`
  have hempty : ∀ i inode, (Function.update fs.host.contents i [] inode).length < 2 ^ 31 := by
    intro i inode
    by_cases h : inode = i
    · rw [h, Function.update_self]
      exact Nat.two_pow_pos 31
    · rw [Function.update_of_ne h]
      exact hi.short inode
  unfold Host.openForWrite at ho
  split_ifs at ho
  split at ho
  · exact hi.newFd (by rfl) (by rfl) (hempty _) (Option.some.inj ho) hcl
  · exact hi.newFd (by rfl) (by rfl) (hempty _) (Option.some.inj ho) hcl

theorem PositionInv.executed (hi : fs.PositionInv) {name : Name} {f : OpenFile} {h : Host}
    (ho : fs.openFile name 0 = some (f, fs')) (hc : fs'.host.close f.file = some h) :
    (fs'.setHost h).PositionInv := by
  simp only [openFile, Option.map_eq_some_iff, Prod.mk.injEq] at ho
  obtain ⟨⟨fd, h₁⟩, ho, rfl, rfl⟩ := ho
  unfold Host.openForReadWrite at ho
  split_ifs at ho
  obtain ⟨inode, -, hn⟩ := Option.map_eq_some_iff.mp ho
  exact hi.newFd rfl rfl hi.short hn hc

theorem PositionInv.use (hi : fs.PositionInv) {u : Use} (hu : fs.EndsBelow u)
    (hs : fs.use u = some fs') : fs'.PositionInv := by
  cases u with
  | create name => exact hi.created hs
  | execute name =>
    simp only [FileSystem.use, Option.bind_eq_bind, Option.bind_eq_some_iff, Option.pure_def,
      Option.some.injEq] at hs
    obtain ⟨⟨f, fs₁⟩, ho, h, hc, rfl⟩ := hs
    exact hi.executed ho hc
  | call c k =>
    obtain ⟨hc, hs⟩ := Option.ite_none_right_eq_some.mp hs
    obtain ⟨k', hk', rfl⟩ := Option.map_eq_some_iff.mp hs
    cases c with
    | read =>
      exact within_scRead keepsPositions_refl kernel_keepsPositions_trans
        keepsPositions_getCurrentPos keepsPositions_read _ k' hk' hi
    | write => exact positionInv_scWrite (k := { k with fileSystem := fs }) hi hu hk'
    | seek => exact positionInv_scSeek (k := { k with fileSystem := fs }) hi hk'
    | openFile =>
      rcases scOpen_reached hk' with hfs | ⟨slot, name, f, fs₁, -, hopen, hfs⟩
      · rw [hfs]
        exact hi
      · rw [hfs]
        exact hi.opened slot hopen
    | close =>
      rcases scClose_reached hk' with hfs | ⟨f, host, harg, hclose, hfs⟩
      · rw [hfs]
        exact hi
      · rw [hfs]
        exact hi.closed (fileArg_eq_some harg).2 hclose
    | _ => cases hc

theorem positionInv_of_starts (h : Starts fs) : fs.PositionInv := by
  obtain ⟨host, hshort, h⟩ := h
  simp only [new, Option.bind_eq_bind, Option.bind_eq_some_iff, Option.pure_def,
    Option.some.injEq] at h
  obtain ⟨fs₁, hc₁, fs₂, hc₂, ⟨f₀, fs₃⟩, h₀, ⟨f₁, fs₄⟩, h₁, rfl⟩ := h
  have h₁ : fs₃.openFile _ 3 = some (f₁, fs₄) := h₁
  have hnew : PositionInv { openState := fun _ => none, host := host } :=
    ⟨by simp, by simp, by simp, hshort⟩
  -- the standard input is put into its slot before the standard output is opened
  have hboth := (((hnew.created hc₁).created hc₂).opened 0 h₀).opened 1
    (openFile_setSlot h₁ 0 (some f₀))
  have hst : fs₄.openState = fun _ => none := by
    rw [(openFile_frame h₁).1, (openFile_frame h₀).1, create_openState hc₂, create_openState hc₁]
  have hslots : (fun i => if i = 0 then some f₀ else if i = 1 then some f₁ else none) =
      Function.update (Function.update fs₄.openState 0 (some f₀)) 1 (some f₁) := by
    funext i
    rw [hst, Function.update_apply, Function.update_apply]
    split_ifs <;> first | rfl | omega
  show PositionInv { fs₄ with
    openState := fun i => if i = 0 then some f₀ else if i = 1 then some f₁ else none }
  rw [hslots]
  exact hboth

theorem positionInv_of_reach (h : Run.ReachBy use EndsBelow Starts fs) : fs.PositionInv :=
  h.inv PositionInv (fun _ => positionInv_of_starts) fun _ _ _ hi hu hs => hi.use hu hs

end FileSystem

open FileSystem Filesys

/-- A position less than -1 is refused just where every position is. In the stub, on a host whose
files are short, the positions are offsets as long as requests of `SC_Write` end below `2 ^ 31`. In
the FILESYS build they are as long as, besides this, `SC_Seek` stores no position less than -1; then
`ReadAt` and `WriteAt` compute no index outside of the file and of their buffer. -/
theorem seek_positions {pos : Word} (hpos : pos.toInt < -1) (id : Word) :
    (∀ k : Kernel, k.registers 4 = pos → k.registers 5 = id → (RejectsSeek k ↔ ¬ k.SeeksFile)) ∧
    (∀ s : SeekTable, s.scSeek pos id = (-1, s) ↔ ¬ s.SeeksFile id) ∧
    (∀ fs, Run.ReachBy FileSystem.use EndsBelow Starts fs → ∀ i f, fs.openState i = some f →
      0 ≤ f.currentOffset ∧ f.currentOffset < 2 ^ 31) ∧
    ∀ s, Run.ReachBy SeekTable.step SeekTable.Regular SeekTable.Init s →
      ∀ i f, s.openState i = some f → 0 ≤ f.seekPosition ∧ f.seekPosition < 2 ^ 31 ∧
        ∀ numBytes sp, f.seekPosition + numBytes < 2 ^ 31 →
          span f.hdr.numBytes numBytes f.seekPosition = some sp →
          sp.InRange f.hdr.numSectors f.seekPosition := by
  refine ⟨fun k hk _ => rejectsSeek_iff (hk ▸ hpos), fun s => SeekTable.scSeek_refuses_iff hpos id,
    fun fs hfs i f hf => ?_, fun s hs i f hf => ?_⟩
  · obtain ⟨d, -, hoffset, hlt⟩ := (positionInv_of_reach hfs).position i f hf
    omega
  · have hinv := SeekTable.inv_of_reach hs
    exact ⟨(hinv i f hf).nonneg, (hinv i f hf).int,
      fun numBytes sp hshort hspan => hinv.inRange hf hshort hspan⟩

/-- A process opens the file `a`, gets the id 2 and writes a byte. -/
theorem reach_written : ∃ fs f, Run.ReachBy FileSystem.use EndsBelow Starts fs ∧
    fs.openState 2 = some f ∧ f.currentOffset = 1 := by
  have hrun : (FileSystem.new hostWithFile).any (fun fs₀ =>
      (fs₀.use (.call .openFile (caller 0 0 0))).any fun fs₁ =>
        (Kernel.fileArg { caller 0 1 2 with fileSystem := fs₁ } 6).all
            (fun f => decide (f.currentOffset = 0)) &&
          (fs₁.use (.call .write (caller 0 1 2))).any fun fs =>
            (fs.openState 2).any fun f => decide (f.currentOffset = 1)) = true := by
    decide +kernel
  obtain ⟨fs₀, h₀, hrun⟩ := (Option.any_eq_true _ _).mp hrun
  obtain ⟨fs₁, h₁, hrun⟩ := (Option.any_eq_true _ _).mp hrun
  obtain ⟨hstart, hrun⟩ := Bool.and_eq_true_iff.mp hrun
  obtain ⟨fs, hs, hrun⟩ := (Option.any_eq_true _ _).mp hrun
  obtain ⟨f, hf, hone⟩ := (Option.any_eq_true _ _).mp hrun
  have hstarts : Starts fs₀ := ⟨hostWithFile, fun _ => Nat.two_pow_pos 31, h₀⟩
  have hbelow : EndsBelow fs₁ (.call .write (caller 0 1 2)) := by
    intro f hf
    have hzero : f.currentOffset = 0 := of_decide_eq_true ((Option.all_eq_true _ _).mp hstart f hf)
    rw [hzero]
    decide
  have hfirst : Run.ReachBy FileSystem.use EndsBelow Starts fs₁ :=
    Run.ReachBy.snoc ⟨fs₀, [], hstarts, trivial, rfl⟩ (l := .call .openFile (caller 0 0 0)) trivial h₁
  exact ⟨fs, f, hfirst.snoc hbelow hs, hf, of_decide_eq_true hone⟩

theorem seeksFile_two {fs : FileSystem} {f : OpenFile} (hf : fs.openState 2 = some f) :
    Kernel.SeeksFile { caller (-2) 2 0 with fileSystem := fs } := by
  have hid : (2 : Word).toInt = 2 := by decide
  refine ⟨hid.ge, hid.le.trans (by decide), ?_⟩
  show fs.openState 2 ≠ none
  rw [hf]
  exact nofun

/-- A file of one sector. -/
def oneSector : FileHeader where
  numBytes := 128
  numSectors := 1
  dataSectors := fun _ => 9

/-- `SC_Seek` with -2 to the closed id 2 is refused, and to the open one it is not. The position of a
file that is written is an offset; with `FILESYS`, after `SC_Seek` to 100, the bytes from there are
in the buffer. -/
theorem seek_positions_opened :
    RejectsSeek (caller (-2) 2 0) ∧
    (∃ fs f, fs.openState 2 = some f ∧ f.currentOffset = 1 ∧
      (0 ≤ f.currentOffset ∧ f.currentOffset < 2 ^ 31) ∧
      ¬ RejectsSeek { caller (-2) 2 0 with fileSystem := fs }) ∧
    ∃ s f sp, Run.ReachBy SeekTable.step SeekTable.Regular SeekTable.Init s ∧
      s.openState 2 = some f ∧ f.seekPosition = 100 ∧
      span f.hdr.numBytes 50 f.seekPosition = some sp ∧
      sp.InRange f.hdr.numSectors f.seekPosition := by
  have hlow : (-2 : Word).toInt < -1 := by decide
  refine ⟨?_, ?_, ?_⟩
  · exact ((seek_positions hlow 2).1 (caller (-2) 2 0) rfl rfl).mpr fun h => h.2.2 rfl
  · obtain ⟨fs, f, hreach, hf, hone⟩ := reach_written
    refine ⟨fs, f, hf, hone, (seek_positions hlow 2).2.2.1 fs hreach 2 f hf, fun hno => ?_⟩
    exact ((seek_positions hlow 2).1 _ rfl rfl).mp hno (seeksFile_two hf)
  · let s₀ : SeekTable := { openState := fun _ => none, disk := fun _ _ => 0 }
    let f : Filesys.OpenFile := { hdr := oneSector, seekPosition := 100, type := some 0 }
    have hdescribes : oneSector.Describes 128 [9] := ⟨rfl, rfl, fun j hj => by
      obtain rfl : j = 0 := by simpa using hj
      rfl⟩
    have hextent : Extent 128 [9] := ⟨rfl, List.nodup_singleton 9, by decide⟩
    have hopen : Run.ReachBy SeekTable.step SeekTable.Regular SeekTable.Init
        (s₀.setSlot 2 (some { hdr := oneSector, seekPosition := 0, type := some 0 })) :=
      Run.ReachBy.snoc ⟨s₀, [], rfl, trivial, rfl⟩ (l := .openFile 2 oneSector (some 0))
        ⟨128, [9], hdescribes, hextent⟩ rfl
    have hreach : Run.ReachBy SeekTable.step SeekTable.Regular SeekTable.Init
        ((s₀.setSlot 2 (some { hdr := oneSector, seekPosition := 0, type := some 0 })).setSlot 2
          (some f)) :=
      hopen.snoc (l := .seek 100 2) (Or.inl (by decide)) rfl
    have hspan : span oneSector.numBytes 50 100 =
        some { numBytes := 28, firstSector := 0, lastSector := 0 } := by decide
    refine ⟨_, f, _, hreach, rfl, rfl, hspan, ?_⟩
    exact ((seek_positions hlow 2).2.2.2 _ hreach 2 f rfl).2.2 50 _ (by decide) hspan

/-- In the stub `SC_Seek` with -2 aborts at the file 2. In the FILESYS build it leaves the file
there, and a transfer of 10 bytes starts before its buffer. -/
theorem seek_before_start :
    (∃ fs, Run.ReachBy FileSystem.use EndsBelow Starts fs ∧
      scSeek.run { caller (-2) 2 0 with fileSystem := fs } = .stop (.down .aborted)) ∧
    ∃ s f sp, Run.Reach SeekTable.step SeekTable.Init s ∧ s.openState 2 = some f ∧
      f.seekPosition = -2 ∧ span f.hdr.numBytes 10 f.seekPosition = some sp ∧
      sp.start f.seekPosition < 0 := by
  constructor
  · obtain ⟨fs, f, hreach, hf, -⟩ := reach_written
    have hlow : (-2 : Word).toInt < -1 := by decide
    exact ⟨fs, hreach, scSeek_aborts hlow (seeksFile_two hf)⟩
  · let s₀ : SeekTable := { openState := fun _ => none, disk := fun _ _ => 0 }
    refine ⟨_, { hdr := oneSector, seekPosition := -2, type := some 0 },
      { numBytes := 10, firstSector := 0, lastSector := 0 },
      ⟨s₀, [.openFile 2 oneSector (some 0), .seek (-2) 2], rfl, rfl⟩, ?_, rfl, by decide, by decide⟩
    rfl

end Nachos
