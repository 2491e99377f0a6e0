import Nachos.Userprog.Transfer

/-!
# Files opened for reading only

`SC_Open` takes a type: 0 to read and write a file, 1 to read it only. `Opens` keeps, beside the file
system, the type of the call that returned each id. The type is in `openState` as well, but
`SC_Write` looks for the consoles only.
-/

namespace Nachos

open Prog

/-- The file system, and the type that each id was opened with. -/
structure Opens where
  fileSystem : FileSystem
  openedAs : ℕ → Option ℤ

namespace Opens

/-- An `SC_Open` that returns an id records its type; `SC_Close` gives the id up. -/
def record (s : Opens) (c : Syscall) (k k' : Kernel) (id : ℕ) : Option ℤ :=
  match c with
  | .openFile =>
    if (k'.registers 2).toInt = id ∧ (s.fileSystem.openState id).isNone ∧
        (k'.fileSystem.openState id).isSome then some (k.registers 5).toInt
    else s.openedAs id
  | .close => if (k.registers 4).toInt = id then none else s.openedAs id
  | _ => s.openedAs id

/-- The files are used; only a call that takes or returns an id changes the types. -/
def step (s : Opens) : FileSystem.Use → Option Opens
  | .call c k =>
    if c.onFiles then
      (c.handler.run { k with fileSystem := s.fileSystem }).reached.map fun k' =>
        { fileSystem := k'.fileSystem, openedAs := s.record c k k' }
    else none
  | u => (s.fileSystem.use u).map fun fs => { s with fileSystem := fs }

def Init (s : Opens) : Prop := FileSystem.Init s.fileSystem ∧ s.openedAs = fun _ => none

/-- The type in `openState` is the one the id was opened with. -/
def Recorded (s : Opens) : Prop :=
  ∀ id type, s.openedAs id = some type → id ≤ 9 ∧ ∃ f, s.fileSystem.openState id = some f ∧ f.type = type

variable {s s' : Opens}

theorem Recorded.kept (h : s.Recorded) (hk : s.fileSystem.Kept s'.fileSystem)
    (ho : s'.openedAs = s.openedAs) : s'.Recorded := by
  intro id type hid
  rw [ho] at hid
  obtain ⟨h9, f, hf, rfl⟩ := h id type hid
  have hs := hk.slots id
  rw [hf, Option.map_some] at hs
  obtain ⟨f', hf', he⟩ := Option.map_eq_some_iff.mp hs
  exact ⟨h9, f', hf', congrArg Prod.fst he⟩

theorem Recorded.opened (h : s.Recorded) {k k' : Kernel} {leave : Leave}
    (hk : k.fileSystem = s.fileSystem) (hrun : scOpen.run k = .done leave k') :
    Recorded { fileSystem := k'.fileSystem, openedAs := s.record .openFile k k' } := by
  rcases scOpen_cases k with ⟨d, hd⟩ | ⟨leave', k₁, hd, hcases⟩
  · rw [hrun] at hd
    cases hd
  rw [hrun] at hd
  cases hd
  intro id type hid
  have hid : (if (k'.registers 2).toInt = id ∧ (s.fileSystem.openState id).isNone ∧
      (k'.fileSystem.openState id).isSome then some (k.registers 5).toInt else s.openedAs id) =
      some type := hid
  show id ≤ 9 ∧ ∃ f, k'.fileSystem.openState id = some f ∧ f.type = type
  rcases hcases with ⟨hfs, hr2⟩ | ⟨hfs, -⟩ | ⟨slot, name, f, fs, hslot, -, -, hopen, hfs, hr2⟩
  · have hno : ¬ ((-1 : Word).toInt = (id : ℤ)) := by
      rw [show (-1 : Word).toInt = -1 from rfl]
      omega
    rw [hr2, if_neg (fun hc => hno hc.1)] at hid
    rw [hfs, hk]
    exact h id type hid
  · have hno : ¬ ((s.fileSystem.openState id).isNone ∧ (k'.fileSystem.openState id).isSome) := by
      rw [hfs, hk]
      rintro ⟨hn, hsome⟩
      rw [Option.isNone_iff_eq_none.mp hn] at hsome
      cases hsome
    rw [if_neg (fun hc => hno hc.2)] at hid
    rw [hfs, hk]
    exact h id type hid
  · obtain ⟨h2, h9⟩ := FileSystem.findFreeSlot_range hslot
    have hopened : ∀ i, k'.fileSystem.openState i =
        if i = slot then some f else s.fileSystem.openState i := by
      intro i
      rw [hfs, ← hk, ← (FileSystem.openFile_frame hopen).1]
      exact Function.update_apply _ _ _ _
    have hr2 : (k'.registers 2).toInt = slot := by
      have hnat : (BitVec.ofNat 32 slot).toNat = slot := by
        rw [BitVec.toNat_ofNat]
        exact Nat.mod_eq_of_lt (by omega)
      rw [hr2, BitVec.toInt_eq_toNat_of_lt (by omega), hnat]
    rw [hopened id]
    by_cases hi : id = slot
    · subst hi
      have hfree : (s.fileSystem.openState id).isNone := by
        rw [← hk, FileSystem.findFreeSlot_spec hslot]
        rfl
      rw [if_pos ⟨hr2, hfree, by rw [hopened, if_pos rfl]; rfl⟩] at hid
      rw [if_pos rfl]
      exact ⟨h9, f, rfl, (FileSystem.openFile_spec hopen).1.trans (Option.some.inj hid)⟩
    · rw [if_neg (fun hc => hi (by omega))] at hid
      rw [if_neg hi]
      exact h id type hid

theorem Recorded.closed (h : s.Recorded) {k k' : Kernel} {leave : Leave}
    (hk : k.fileSystem = s.fileSystem) (hrun : scClose.run k = .done leave k') :
    Recorded { fileSystem := k'.fileSystem, openedAs := s.record .close k k' } := by
  rcases scClose_cases k with ⟨d, hd⟩ | ⟨k₁, hd, hcases⟩
  · rw [hrun] at hd
    cases hd
  rw [hrun] at hd
  cases hd
  intro id type hid
  have hid : (if (k.registers 4).toInt = id then none else s.openedAs id) = some type := hid
  show id ≤ 9 ∧ ∃ f, k'.fileSystem.openState id = some f ∧ f.type = type
  split_ifs at hid with hi
  rcases hcases with ⟨-, hfs, -⟩ | ⟨f, host, harg, -, hfs, -⟩
  · rw [hfs, hk]
    exact h id type hid
  · have hne : id ≠ (k.registers 4).toInt.toNat := by
      obtain ⟨hr, -⟩ := fileArg_eq_some harg
      omega
    have hsame : k'.fileSystem.openState id = s.fileSystem.openState id := by
      rw [hfs, ← hk]
      exact Function.update_of_ne hne _ _
    rw [hsame]
    exact h id type hid

/-- The table is as it was. -/
theorem Recorded.same (h : s.Recorded) {fs : FileSystem}
    (ho : fs.openState = s.fileSystem.openState) : Recorded { s with fileSystem := fs } := by
  intro id type hid
  show id ≤ 9 ∧ ∃ f, fs.openState id = some f ∧ f.type = type
  rw [ho]
  exact h id type hid

theorem Recorded.call (h : s.Recorded) {c : Syscall} {k : Kernel}
    (hs : s.step (.call c k) = some s') : s'.Recorded := by
  obtain ⟨hc, hs⟩ := Option.ite_none_right_eq_some.mp hs
  obtain ⟨k', hk', rfl⟩ := Option.map_eq_some_iff.mp hs
  cases c with
  | read => exact h.kept (unwritten_scRead _ k' hk').kept rfl
  | write => exact h.kept (kept_scWrite _ k' hk') rfl
  | seek => exact h.kept (unwritten_scSeek _ k' hk').kept rfl
  | openFile =>
    have hk' : (scOpen.run { k with fileSystem := s.fileSystem }).reached = some k' := hk'
    rcases scOpen_cases { k with fileSystem := s.fileSystem } with ⟨d, hd⟩ | ⟨leave, k₁, hd, -⟩
    · rw [hd] at hk'
      cases hk'
    · rw [hd] at hk'
      cases hk'
      exact h.opened (k := { k with fileSystem := s.fileSystem }) rfl hd
  | close =>
    have hk' : (scClose.run { k with fileSystem := s.fileSystem }).reached = some k' := hk'
    rcases scClose_cases { k with fileSystem := s.fileSystem } with ⟨d, hd⟩ | ⟨k₁, hd, -⟩
    · rw [hd] at hk'
      cases hk'
    · rw [hd] at hk'
      cases hk'
      exact h.closed (k := { k with fileSystem := s.fileSystem }) rfl hd
  | _ => cases hc

theorem Recorded.step (h : s.Recorded) {u : FileSystem.Use} (hs : s.step u = some s') :
    s'.Recorded := by
  cases u with
  | call c k => exact h.call hs
  | create name =>
    obtain ⟨fs, hc, rfl⟩ := Option.map_eq_some_iff.mp hs
    exact h.same (FileSystem.create_openState hc)
  | execute name =>
    obtain ⟨fs, hx, rfl⟩ := Option.map_eq_some_iff.mp hs
    simp only [FileSystem.use, Option.bind_eq_bind, Option.bind_eq_some_iff, Option.pure_def,
      Option.some.injEq] at hx
    obtain ⟨⟨f, fs₁⟩, hopen, host, -, rfl⟩ := hx
    exact h.same (FileSystem.openFile_frame hopen).1

theorem recorded_of_reach (h : Run.Reach step Init s) : s.Recorded := by
  refine h.inv Recorded ?_ fun _ _ _ hi hs => hi.step hs
  rintro s₀ ⟨-, hnone⟩ id type hid
  rw [hnone] at hid
  cases hid

/-- An `SC_Write` of a file that is no console does not return -1, unless the count is negative. -/
theorem scWrite_ne_error {k k' : Kernel} {f : OpenFile} {leave : Leave}
    (harg : k.fileArg 6 = some f) (h2 : f.type ≠ 2) (h3 : f.type ≠ 3)
    (hn : ¬ (k.registers 5).toInt < 0) (hc : k.registers 2 ≠ -1)
    (hrun : scWrite.run k = .done leave k') : k'.registers 2 ≠ -1 := by
  obtain ⟨hr, hf⟩ := fileArg_eq_some harg
  have hall : All Serves (fun _ k' => k'.registers 2 ≠ -1) (scWrite.run k) := by
    unfold scWrite
    simp only [run_bind, readRegister, run_look, Res.bind_done]
    rw [checkTransfer_run hn hr hf h2]
    simp only [run_bind, all_bind]
    refine all_getCurrentPos hf ?_
    refine all_user2System fun buffer pt hb => ?_
    have hbuf := user2System_length hb
    rw [run_ite, if_neg h3, run_bind, all_bind]
    refine all_onFile_of (f := { f with currentOffset := k.fileSystem.host.tell f.file })
      (Function.update_self _ _ _) fun written f' h' hwrite => ?_
    obtain ⟨d, hd, rfl, hfile, hd', -⟩ := OpenFile.write_spec rfl hwrite
    have hd : k.fileSystem.host.fds f.file = some d := hd
    have hlen : (buffer.take (k.registers 5).toInt.toNat).length = (k.registers 5).toInt.toNat := by
      rw [List.length_take, hbuf]
      omega
    generalize buffer.take (k.registers 5).toInt.toNat = bytes at *
    rw [run_ite]
    split_ifs with hw
    · simp only [run_bind, all_bind]
      refine all_getCurrentPos (f := f') (Function.update_self _ _ _) ?_
      have hnew : h'.tell f'.file = (d.offset + bytes.length : ℕ) := by
        rw [hfile, Host.tell_of_some hd']
      have hv : h'.tell f'.file - k.fileSystem.host.tell f.file = bytes.length := by
        rw [hnew, Host.tell_of_some hd, Nat.cast_add, add_sub_cancel_left]
      show k.registers.write 2 (BitVec.ofInt 32 (h'.tell f'.file - k.fileSystem.host.tell f.file)) 2 ≠ -1
      rw [hv, Registers.write_self, BitVec.ofInt_natCast]
      intro he
      have := (k.registers 5).toInt_lt
      have he := congrArg BitVec.toNat he
      rw [BitVec.toNat_ofNat, Nat.mod_eq_of_lt (by omega)] at he
      have he : bytes.length = 2 ^ 32 - 1 := he
      omega
    · exact hc
  rw [hrun] at hall
  exact hall

theorem openFile_contents {fs fs' : FileSystem} {name : Name} {type : ℤ} {f : OpenFile}
    (h : fs.openFile name type = some (f, fs')) : fs'.host.contents = fs.host.contents := by
  simp only [FileSystem.openFile, Option.map_eq_some_iff, Prod.mk.injEq] at h
  obtain ⟨⟨fd, h₁⟩, ho, rfl, rfl⟩ := h
  unfold Host.openForReadWrite at ho
  split_ifs at ho
  simp only [Option.map_eq_some_iff, Host.newFd, Prod.mk.injEq] at ho
  obtain ⟨i, -, rfl, rfl⟩ := ho
  rfl

/-- Only `SC_Write` changes the contents of a file. -/
theorem contents_of_ne_write {c : Syscall} {k k' : Kernel} (hc : c.onFiles = true) (hw : c ≠ .write)
    (hk : (c.handler.run k).reached = some k') :
    k'.fileSystem.host.contents = k.fileSystem.host.contents := by
  cases c with
  | read => exact (unwritten_scRead k k' hk).contents
  | seek => exact (unwritten_scSeek k k' hk).contents
  | write => exact absurd rfl hw
  | openFile =>
    rcases scOpen_reached hk with hfs | ⟨slot, name, f, fs, -, hopen, hfs⟩
    · rw [hfs]
    · have hsame := openFile_contents hopen
      rw [hfs]
      exact hsame
  | close =>
    rcases scClose_reached hk with hfs | ⟨f, host, -, hclose, hfs⟩
    · rw [hfs]
    · rw [hfs, Host.close_eq_some hclose]
      rfl
  | _ => cases hc

/-- Through an id that was opened for reading only, no call but `SC_Write` changes a file, and
`SC_Write` is refused with -1 and nothing written just when its count is negative. -/
theorem read_only_iff {id : ℕ} (h : Run.Reach step Init s) (hid : s.openedAs id = some 1)
    {k : Kernel} (hk : k.fileSystem = s.fileSystem) :
    (∀ (c : Syscall) (k' : Kernel), c.onFiles = true → c ≠ .write →
      (c.handler.run k).reached = some k' →
      k'.fileSystem.host.contents = s.fileSystem.host.contents) ∧
    (Syscall.ofNumber (k.registers 2) = some .write → (k.registers 6).toInt = id →
      ((∃ leave k', scWrite.run k = .done leave k' ∧
          k'.fileSystem.host.contents = s.fileSystem.host.contents ∧ k'.registers 2 = -1) ↔
        (k.registers 5).toInt < 0)) := by
  obtain ⟨h9, f, hf, htype⟩ := recorded_of_reach h id 1 hid
  refine ⟨fun c k' hc hw hrun => hk ▸ contents_of_ne_write hc hw hrun, fun hnum hreg => ?_⟩
  have harg : k.fileArg 6 = some f := by
    apply fileArg_eq
    · omega
    · rw [hk, hreg, Int.toNat_natCast, hf]
  constructor
  · rintro ⟨leave, k', hrun, -, hr2⟩
    by_contra hn
    have hc : k.registers 2 ≠ -1 := by
      intro he
      rw [he] at hnum
      exact absurd hnum (by decide)
    exact scWrite_ne_error harg (by omega) (by omega) hn hc hrun hr2
  · intro hn
    have hrun : scWrite.run k = (fail .writeSize .ret).run k := by
      unfold scWrite checkTransfer
      simp only [run_bind, readRegister, run_look, Res.bind_done]
      rw [if_pos hn]
    exact ⟨_, _, hrun, congrArg (fun fs => fs.host.contents) hk, Registers.write_self k.registers 2 _⟩

/-- A process opens the file `a` for reading only and gets the id 2. -/
theorem reach_opened : ∃ s, Run.Reach step Init s ∧ s.openedAs 2 = some 1 ∧
    s.fileSystem.host.contents 0 = [] ∧
    (s.step (.call .write (FileSystem.caller 0 1 2))).any
      (fun s' => s'.fileSystem.host.contents 0 = [0x61]) = true := by
  have hrun : (FileSystem.new FileSystem.hostWithFile).any (fun fs =>
      (step { fileSystem := fs, openedAs := fun _ => none }
        (.call .openFile (FileSystem.caller 0 1 0))).any fun s =>
          decide (s.openedAs 2 = some 1) && (decide (s.fileSystem.host.contents 0 = []) &&
            (s.step (.call .write (FileSystem.caller 0 1 2))).any
              fun s' => s'.fileSystem.host.contents 0 = [0x61])) = true := by
    decide +kernel
  obtain ⟨fs, hfs, hrun⟩ := (Option.any_eq_true _ _).mp hrun
  obtain ⟨s, hs, hrun⟩ := (Option.any_eq_true _ _).mp hrun
  obtain ⟨hid, hrun⟩ := Bool.and_eq_true_iff.mp hrun
  obtain ⟨hempty, hwrite⟩ := Bool.and_eq_true_iff.mp hrun
  refine ⟨s, ⟨{ fileSystem := fs, openedAs := fun _ => none },
    [(.call .openFile (FileSystem.caller 0 1 0))], ⟨⟨_, hfs⟩, rfl⟩, ?_⟩,
    of_decide_eq_true hid, of_decide_eq_true hempty, hwrite⟩
  rw [Run.exec, hs]
  rfl

/-- There a write of -1 bytes is refused. -/
theorem read_only_negative : ∃ s k leave k', Run.Reach step Init s ∧ s.openedAs 2 = some 1 ∧
    k.fileSystem = s.fileSystem ∧ (k.registers 6).toInt = 2 ∧ (k.registers 5).toInt = -1 ∧
    scWrite.run k = .done leave k' ∧
    k'.fileSystem.host.contents = s.fileSystem.host.contents ∧ k'.registers 2 = -1 := by
  obtain ⟨s, hs, hid, -⟩ := reach_opened
  let r : Registers := (FileSystem.caller 0 (-1) 2).registers.write 2 7
  let k : Kernel := { FileSystem.caller 0 (-1) 2 with registers := r, fileSystem := s.fileSystem }
  have h2 : Syscall.ofNumber (r 2) = some .write := by decide
  have h5 : (r 5).toInt = -1 := by decide
  have h6 : (r 6).toInt = 2 := by decide
  have hneg : (k.registers 5).toInt < 0 := by
    show (r 5).toInt < 0
    omega
  obtain ⟨leave, k', hrun⟩ := ((read_only_iff (k := k) hs hid rfl).2 h2 h6).mpr hneg
  exact ⟨s, k, leave, k', hs, hid, rfl, h6, h5, hrun⟩

/-- A write of one byte is not. -/
theorem read_only_written : ∃ s k s', Run.Reach step Init s ∧ s.openedAs 2 = some 1 ∧
    (k.registers 6).toInt = 2 ∧ s.step (.call .write k) = some s' ∧
    s'.fileSystem.host.contents ≠ s.fileSystem.host.contents := by
  obtain ⟨s, hs, hid, hempty, hrun⟩ := reach_opened
  obtain ⟨s', hs', hcontents⟩ := (Option.any_eq_true _ _).mp hrun
  refine ⟨s, _, s', hs, hid, by decide, hs', fun heq => ?_⟩
  rw [heq, hempty] at hcontents
  exact absurd (of_decide_eq_true hcontents) (List.cons_ne_nil _ _).symm

end Opens

end Nachos
