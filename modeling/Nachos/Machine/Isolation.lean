import Nachos.Machine.Exceptions
import Nachos.Userprog.AddrSpace

/-!
# Memory isolation of user code

A page table owns the frames of its entries. Under this table an instruction reads and writes bytes
of these frames only (`Confined`), and what it does depends on no other byte (`Agree`). Both hold for
every tree of operations, so that the cases of `OneInstruction` are not looked at; they carry over to
sequences of instructions, and to other address spaces whose frames are disjoint.
-/

namespace Nachos

open Cpu

/-- The frame `f` is one of the table's. -/
def Owns (pageTable : List TranslationEntry) (f : ℕ) : Prop := ∃ e ∈ pageTable, e.frame = f

theorem SameMap.owns {pt pt' : List TranslationEntry} (h : SameMap pt pt') {f : ℕ} :
    Owns pt' f ↔ Owns pt f := by
  have one : ∀ {pt₁ pt₂ : List TranslationEntry}, SameMap pt₁ pt₂ → Owns pt₁ f → Owns pt₂ f := by
    rintro pt₁ pt₂ h ⟨e, he, hf⟩
    obtain ⟨i, hi⟩ := List.getElem?_of_mem he
    have hm := h i
    rw [hi, Option.map_some] at hm
    obtain ⟨e', he', hmap⟩ := Option.map_eq_some_iff.mp hm
    refine ⟨e', List.mem_of_getElem? he', ?_⟩
    rw [← hf, TranslationEntry.frame, TranslationEntry.frame,
      show e'.physicalPage = e.physicalPage from congrArg Prod.fst hmap]
  exact ⟨one h.symm, one h⟩

/-- The access lies in memory and in frames of the table. -/
def PhysAccess.Within (a : PhysAccess) (pageTable : List TranslationEntry) : Prop :=
  a.physAddr + a.size ≤ memorySize ∧ ∀ k < a.size, Owns pageTable ((a.physAddr + k) / pageSize)

/-- Where a translation leads. -/
theorem translate_within {pt pt' : List TranslationEntry} {addr : Word} {size p : ℕ} {writing : Bool}
    (hsize : accessSize size) (h : translate pt addr size writing = .ok (p, pt')) :
    PhysAccess.Within ⟨p, size, writing⟩ pt := by
  rcases translate_cases pt addr hsize writing with ⟨which, -, h'⟩ | ⟨e, f, he, hf, hef, hoff, h'⟩
  · rw [h] at h'
    cases h'
  · rw [h] at h'
    cases h'
    have hf' : f < 128 := hf
    have hoff' : addr.toNat % 512 + size ≤ 512 := hoff
    refine ⟨?_, fun k hk => ⟨e, List.mem_of_getElem? he, ?_⟩⟩
    · show f * 512 + addr.toNat % 512 + size ≤ 65536
      omega
    · have hk' : k < size := hk
      rw [TranslationEntry.frame, hef]
      show f = (f * 512 + addr.toNat % 512 + k) / 512
      omega

theorem access_within {m : Machine} {addr : Word} {size : ℕ} (hsize : accessSize size)
    (writing : Bool) : ∀ a ∈ m.access addr size writing, a.Within m.pageTable := by
  intro a ha
  unfold Machine.access at ha
  split at ha
  · rename_i p pt' htr
    rw [List.mem_singleton.mp ha]
    exact translate_within hsize htr
  · cases ha

theorem mem_storeBytes {p size : ℕ} {value : Word} {w : List (ℤ × Byte)}
    (h : storeBytes p value size = some w) : ∀ x ∈ w, ∃ k < size, x.1 = ((p + k : ℕ) : ℤ) := by
  unfold storeBytes at h
  split at h
  · cases h
    simp
  · cases h
    intro x hx
    simp only [List.mem_cons, List.not_mem_nil, or_false] at hx
    rcases hx with rfl | rfl
    · exact ⟨0, by omega, by simp⟩
    · exact ⟨1, by omega, by simp⟩
  · cases h
    intro x hx
    simp only [List.mem_cons, List.not_mem_nil, or_false] at hx
    rcases hx with rfl | rfl | rfl | rfl
    · exact ⟨0, by omega, by simp⟩
    · exact ⟨1, by omega, by simp⟩
    · exact ⟨2, by omega, by simp⟩
    · exact ⟨3, by omega, by simp⟩
  · cases h

/-- What a store changes. -/
theorem writeMem_untouched {m m' : Memory} {pt pt' : List TranslationEntry} {addr : Word} {size : ℕ}
    {value : Word} (hsize : accessSize size) (h : writeMem m pt addr size value = .ok (m', pt'))
    {q : ℕ} (hq : ¬ Owns pt (q / pageSize)) : m' q = m q := by
  unfold writeMem at h
  split at h
  · cases h
  · cases h
  rename_i p t htr
  obtain ⟨-, hbytes⟩ := translate_within hsize htr
  have hne : ∀ k < size, q ≠ p + k := by
    rintro k hk rfl
    exact hq (hbytes k hk)
  split at h
  · rename_i w hw
    cases h
    refine Store.store_of_forall_ne fun x hx => ?_
    obtain ⟨k, hk, hxk⟩ := mem_storeBytes hw x hx
    rw [hxk]
    exact fun he => hne k hk (Int.natCast_inj.mp he).symm
  · cases h

/-! ## One instruction -/

/-- The machine that is left in any case. -/
def Result.last {α : Type} : Result α → Machine
  | .done _ m => m
  | .raised _ m => m
  | .crashed _ m => m

/-- From `m` to `m'` only bytes of the frames of the table were accessed, and no other changed. -/
structure Confined (m m' : Machine) : Prop where
  accesses : ∃ new, m'.accesses = m.accesses ++ new ∧ ∀ a ∈ new, a.Within m.pageTable
  untouched : ∀ q : ℕ, ¬ Owns m.pageTable (q / pageSize) → m'.mainMemory q = m.mainMemory q
  sameMap : SameMap m.pageTable m'.pageTable

namespace Confined

variable {m m' m'' : Machine}

theorem of_registers (h₁ : m'.accesses = m.accesses) (h₂ : m'.mainMemory = m.mainMemory)
    (h₃ : m'.pageTable = m.pageTable) : Confined m m' := by
  refine ⟨⟨[], by rw [h₁, List.append_nil], nofun⟩, fun q _ => by rw [h₂], ?_⟩
  rw [h₃]
  exact sameMap_refl _

theorem within_iff (h : SameMap m.pageTable m'.pageTable) (a : PhysAccess) :
    a.Within m'.pageTable ↔ a.Within m.pageTable := by
  unfold PhysAccess.Within
  simp only [h.owns]

theorem trans (h : Confined m m') (h' : Confined m' m'') : Confined m m'' := by
  obtain ⟨new, hnew, hin⟩ := h.accesses
  obtain ⟨new', hnew', hin'⟩ := h'.accesses
  refine ⟨⟨new ++ new', by rw [hnew', hnew, List.append_assoc], fun a ha => ?_⟩, fun q hq => ?_,
    h.sameMap.trans h'.sameMap⟩
  · rcases List.mem_append.mp ha with ha | ha
    · exact hin a ha
    · exact (within_iff h.sameMap a).mp (hin' a ha)
  · rw [h'.untouched q (mt h.sameMap.owns.mp hq), h.untouched q hq]

theorem read {addr : Word} {size : ℕ} {value : Word} {pt : List TranslationEntry}
    (hsize : accessSize size) (h : readMem m.mainMemory m.pageTable addr size = .ok (value, pt)) :
    Confined m (m.afterRead addr size pt) where
  accesses := ⟨_, rfl, access_within hsize false⟩
  untouched := fun _ _ => rfl
  sameMap := readMem_sameMap h

theorem write {addr : Word} {size : ℕ} {value : Word} {mem : Memory} {pt : List TranslationEntry}
    (hsize : accessSize size)
    (h : writeMem m.mainMemory m.pageTable addr size value = .ok (mem, pt)) :
    Confined m (m.afterWrite addr size mem pt) where
  accesses := ⟨_, rfl, access_within hsize true⟩
  untouched := fun _ hq => writeMem_untouched hsize h hq
  sameMap := writeMem_sameMap h

theorem raise {α : Type} (which : ExceptionType) (badVAddr : Word) :
    Confined m (m.raiseException which badVAddr : Result α).last := by
  unfold Machine.raiseException
  cases m.registers.atEntry badVAddr with
  | none => exact of_registers rfl rfl rfl
  | some r => exact of_registers rfl rfl rfl

end Confined

/-- Every tree of operations is confined to the frames of the table. -/
theorem run_confined {α : Type} {Q : Post α} {x : Cpu α} {m : Machine} {w : Bool}
    (h : x.Meets Q m.registers w) : Confined m (x.run m).last := by
  induction x generalizing m w with
  | pure a => exact .of_registers rfl rfl rfl
  | registers next ih => exact ih m.registers h
  | write num value next ih =>
    have hset : Confined m { m with registers := m.registers.write num value } :=
      .of_registers rfl rfl rfl
    exact hset.trans (ih h)
  | delayedLoad nextReg nextValue next ih =>
    simp only [Meets] at h
    simp only [run]
    cases hd : m.registers.delayedLoad nextReg nextValue with
    | none => exact .of_registers rfl rfl rfl
    | some r =>
      rw [hd] at h
      have hset : Confined m { m with registers := r } := .of_registers rfl rfl rfl
      exact hset.trans (ih h)
  | readMem addr size next ih =>
    obtain ⟨hsize, -, hnext⟩ := h
    simp only [run]
    cases hr : Nachos.readMem m.mainMemory m.pageTable addr size with
    | ok p => exact (Confined.read hsize hr).trans (ih p.1 (hnext p.1))
    | exception which => exact .raise which addr
    | assertFailed => exact .of_registers rfl rfl rfl
  | writeMem addr size value next ih =>
    obtain ⟨hsize, -, hnext⟩ := h
    simp only [run]
    cases hr : Nachos.writeMem m.mainMemory m.pageTable addr size value with
    | ok p => exact (Confined.write hsize hr).trans (ih hnext)
    | exception which => exact .raise which addr
    | assertFailed => exact .of_registers rfl rfl rfl
  | raise which badVAddr => exact .raise which badVAddr
  | crash c => exact .of_registers rfl rfl rfl

/-! ## Independence of the other bytes -/

/-- The two machines look the same to a program under this table. -/
structure Agree (m₁ m₂ : Machine) : Prop where
  registers : m₂.registers = m₁.registers
  pageTable : m₂.pageTable = m₁.pageTable
  memory : ∀ q : ℕ, Owns m₁.pageTable (q / pageSize) → m₂.mainMemory q = m₁.mainMemory q

/-- The two results look the same. -/
inductive ResultAgree {α : Type} : Result α → Result α → Prop
  | done (a : α) {m₁ m₂ : Machine} (h : Agree m₁ m₂) : ResultAgree (.done a m₁) (.done a m₂)
  | raised (which : ExceptionType) {m₁ m₂ : Machine} (h : Agree m₁ m₂) :
      ResultAgree (.raised which m₁) (.raised which m₂)
  | crashed (c : Crash) {m₁ m₂ : Machine} (h : Agree m₁ m₂) :
      ResultAgree (.crashed c m₁) (.crashed c m₂)

theorem loadValue_congr {m₁ m₂ : Memory} {p size : ℕ}
    (h : ∀ k < size, m₂ ((p + k : ℕ) : ℤ) = m₁ ((p + k : ℕ) : ℤ)) :
    loadValue m₂ p size = loadValue m₁ p size := by
  have hbyte : ∀ k < size, m₂ ((p : ℤ) + k) = m₁ ((p : ℤ) + k) := by
    intro k hk
    have := h k hk
    push_cast at this
    exact this
  unfold loadValue
  split
  · have h0 := h 0 (by omega)
    rw [Nat.add_zero] at h0
    rw [h0]
  · have h0 := h 0 (by omega)
    have h1 : m₂ ((p : ℤ) + 1) = m₁ ((p : ℤ) + 1) := hbyte 1 (by omega)
    rw [Nat.add_zero] at h0
    rw [h0, h1]
  · have h0 := h 0 (by omega)
    have h1 : m₂ ((p : ℤ) + 1) = m₁ ((p : ℤ) + 1) := hbyte 1 (by omega)
    have h2 : m₂ ((p : ℤ) + 2) = m₁ ((p : ℤ) + 2) := hbyte 2 (by omega)
    have h3 : m₂ ((p : ℤ) + 3) = m₁ ((p : ℤ) + 3) := hbyte 3 (by omega)
    rw [Nat.add_zero] at h0
    rw [h0, h1, h2, h3]
  · rfl

namespace Agree

variable {m₁ m₂ : Machine}

theorem set_registers (h : Agree m₁ m₂) (r : Registers) :
    Agree { m₁ with registers := r } { m₂ with registers := r } :=
  ⟨rfl, h.pageTable, h.memory⟩

theorem raise {α : Type} (h : Agree m₁ m₂) (which : ExceptionType) (badVAddr : Word) :
    ResultAgree (m₁.raiseException which badVAddr : Result α)
      (m₂.raiseException which badVAddr) := by
  unfold Machine.raiseException
  rw [h.registers]
  cases m₁.registers.atEntry badVAddr with
  | none => exact .crashed _ h
  | some r => exact .raised _ (h.set_registers r)

theorem readMem {addr : Word} {size : ℕ} (h : Agree m₁ m₂) (hsize : accessSize size) :
    readMem m₂.mainMemory m₂.pageTable addr size = readMem m₁.mainMemory m₁.pageTable addr size := by
  unfold Nachos.readMem
  rw [h.pageTable]
  cases htr : translate m₁.pageTable addr size false with
  | ok p =>
    obtain ⟨physAddr, pt⟩ := p
    obtain ⟨-, hbytes⟩ := translate_within hsize htr
    simp only
    rw [loadValue_congr fun k hk => h.memory _ (hbytes k hk)]
  | exception which => rfl
  | assertFailed => rfl

theorem afterRead (h : Agree m₁ m₂) {addr : Word} {size : ℕ} {value : Word}
    {pt : List TranslationEntry}
    (hr : Nachos.readMem m₁.mainMemory m₁.pageTable addr size = .ok (value, pt)) :
    Agree (m₁.afterRead addr size pt) (m₂.afterRead addr size pt) :=
  ⟨h.registers, rfl, fun q hq => h.memory q ((readMem_sameMap hr).owns.mp hq)⟩

/-- A store has the same effect on the bytes the two machines agree on. -/
theorem writeMem {addr : Word} {size : ℕ} {value : Word} (h : Agree m₁ m₂) (hsize : accessSize size) :
    (∃ mem₁ mem₂ pt, Nachos.writeMem m₁.mainMemory m₁.pageTable addr size value = .ok (mem₁, pt) ∧
      Nachos.writeMem m₂.mainMemory m₂.pageTable addr size value = .ok (mem₂, pt) ∧
      Agree (m₁.afterWrite addr size mem₁ pt) (m₂.afterWrite addr size mem₂ pt)) ∨
    ∃ which, Nachos.writeMem m₁.mainMemory m₁.pageTable addr size value = .exception which ∧
      Nachos.writeMem m₂.mainMemory m₂.pageTable addr size value = .exception which := by
  rcases writeMem_cases m₁.mainMemory m₁.pageTable addr hsize value with ⟨which, -, hw⟩ | ⟨mem, pt, hw⟩
  · refine .inr ⟨which, hw, ?_⟩
    unfold Nachos.writeMem at hw ⊢
    rw [h.pageTable]
    cases htr : translate m₁.pageTable addr size true with
    | ok p =>
      rw [htr] at hw
      simp only at hw
      split at hw
      · cases hw
      · cases hw
    | exception which' =>
      rw [htr] at hw
      exact hw
    | assertFailed =>
      rw [htr] at hw
      cases hw
  · left
    have hsame := writeMem_sameMap hw
    unfold Nachos.writeMem at hw ⊢
    rw [h.pageTable]
    cases htr : translate m₁.pageTable addr size true with
    | ok p =>
      rw [htr] at hw
      simp only at hw ⊢
      cases hst : storeBytes (p.1 : ℤ) value size with
      | none =>
        rw [hst] at hw
        cases hw
      | some w =>
        rw [hst] at hw
        cases hw
        refine ⟨_, Store.store m₂.mainMemory w, p.2, rfl, rfl, h.registers, rfl, fun q hq => ?_⟩
        show Store.store m₂.mainMemory w q = Store.store m₁.mainMemory w q
        rw [Store.store_apply, Store.store_apply, h.memory q (hsame.owns.mp hq)]
    | exception which =>
      rw [htr] at hw
      cases hw
    | assertFailed =>
      rw [htr] at hw
      cases hw

end Agree

/-- An instruction does the same on two machines that look the same to it. -/
theorem run_agree {α : Type} {Q : Post α} {x : Cpu α} {m₁ m₂ : Machine} {w : Bool}
    (hx : x.Meets Q m₁.registers w) (h : Agree m₁ m₂) : ResultAgree (x.run m₁) (x.run m₂) := by
  induction x generalizing m₁ m₂ w with
  | pure a => exact .done a h
  | registers next ih =>
    simp only [run]
    rw [h.registers]
    exact ih m₁.registers hx h
  | write num value next ih =>
    simp only [run]
    rw [h.registers]
    exact ih hx (h.set_registers _)
  | delayedLoad nextReg nextValue next ih =>
    simp only [Meets] at hx
    simp only [run]
    rw [h.registers]
    cases hd : m₁.registers.delayedLoad nextReg nextValue with
    | none => exact .crashed _ h
    | some r =>
      rw [hd] at hx
      exact ih hx (h.set_registers r)
  | readMem addr size next ih =>
    obtain ⟨hsize, -, hnext⟩ := hx
    simp only [run]
    rw [h.readMem hsize]
    cases hr : Nachos.readMem m₁.mainMemory m₁.pageTable addr size with
    | ok p => exact ih p.1 (hnext p.1) (h.afterRead hr)
    | exception which => exact h.raise which addr
    | assertFailed => exact .crashed _ h
  | writeMem addr size value next ih =>
    obtain ⟨hsize, -, hnext⟩ := hx
    simp only [run]
    rcases h.writeMem hsize with ⟨mem₁, mem₂, pt, h₁, h₂, hafter⟩ | ⟨which, h₁, h₂⟩
    · rw [h₁, h₂]
      exact ih hnext hafter
    · rw [h₁, h₂]
      exact h.raise which addr
  | raise which badVAddr => exact h.raise which badVAddr
  | crash c => exact .crashed c h

/-! ## Sequences of instructions -/

/-- No `ASSERT` under `ReadMem` and `WriteMem` fails. -/
def noMemoryAssert : Post Unit where
  done := fun _ _ _ => True
  raised := fun _ _ _ _ => True
  crashed := fun c => c ≠ .memoryAssert

theorem oneInstruction_meets (debug : Bool) (r : Registers) :
    (oneInstruction debug).Meets noMemoryAssert r false := by
  show (Cpu.readMem (r pcReg) 4 fun raw => execute debug (decode raw)).Meets noMemoryAssert r false
  refine ⟨accessSize_four, fun _ _ => trivial, fun raw => ?_⟩
  refine Meets.mono ?_ ?_ ?_ (execute_precise debug (decode raw) r)
  · exact fun _ _ _ _ => trivial
  · exact fun _ _ _ _ _ => trivial
  · exact fun _ h => h

/-- `AddrSpace::RestoreState` -/
def AddrSpace.restoreState (sp : AddrSpace) (m : Machine) : Machine :=
  { m with pageTable := sp.pageTable.take sp.numPages }

/-- What happens to the machine under one page table: an instruction, or any other values in the
registers. -/
inductive UserAct where
  | instr (debug : Bool)
  | setRegisters (r : Registers)

def userAct (m : Machine) : UserAct → Option Machine
  | .instr debug => ((oneInstruction debug).run m).machine
  | .setRegisters r => some { m with registers := r }

theorem last_of_machine {α : Type} {x : Result α} {m : Machine} (h : x.machine = some m) :
    x.last = m := by
  cases x with
  | done a m' => exact Option.some.inj h
  | raised which m' => exact Option.some.inj h
  | crashed c m' => cases h

theorem userAct_confined {m m' : Machine} {l : UserAct} (h : userAct m l = some m') :
    Confined m m' := by
  cases l with
  | instr debug =>
    have hlast : ((oneInstruction debug).run m).last = m' := last_of_machine h
    rw [← hlast]
    exact run_confined (oneInstruction_meets debug m.registers)
  | setRegisters r =>
    cases h
    exact .of_registers rfl rfl rfl

theorem exec_confined {m m' : Machine} {ls : List UserAct} (h : Run.exec userAct m ls = some m') :
    Confined m m' := by
  induction ls generalizing m with
  | nil =>
    cases h
    exact .of_registers rfl rfl rfl
  | cons l ls ih =>
    obtain ⟨m₁, h₁, h₂⟩ := Run.exec_cons_eq_some.mp h
    exact (userAct_confined h₁).trans (ih h₂)

theorem ResultAgree.machine {α : Type} {x y : Result α} (h : ResultAgree x y) {m : Machine}
    (hm : x.machine = some m) : ∃ m', y.machine = some m' ∧ Agree m m' := by
  cases h with
  | done a h =>
    cases hm
    exact ⟨_, rfl, h⟩
  | raised which h =>
    cases hm
    exact ⟨_, rfl, h⟩
  | crashed c h => cases hm

theorem userAct_agree {m₁ m₂ m₁' : Machine} {l : UserAct} (h : Agree m₁ m₂)
    (hs : userAct m₁ l = some m₁') : ∃ m₂', userAct m₂ l = some m₂' ∧ Agree m₁' m₂' := by
  cases l with
  | instr debug => exact (run_agree (oneInstruction_meets debug m₁.registers) h).machine hs
  | setRegisters r =>
    cases hs
    exact ⟨_, rfl, h.set_registers r⟩

theorem exec_agree {m₁ m₂ m₁' : Machine} {ls : List UserAct} (h : Agree m₁ m₂)
    (hs : Run.exec userAct m₁ ls = some m₁') :
    ∃ m₂', Run.exec userAct m₂ ls = some m₂' ∧ Agree m₁' m₂' := by
  induction ls generalizing m₁ m₂ with
  | nil =>
    cases hs
    exact ⟨m₂, rfl, h⟩
  | cons l ls ih =>
    obtain ⟨n₁, h₁, hrest⟩ := Run.exec_cons_eq_some.mp hs
    obtain ⟨n₂, h₂, hn⟩ := userAct_agree h h₁
    obtain ⟨m₂', h₂', hm⟩ := ih hn hrest
    exact ⟨m₂', Run.exec_cons_eq_some.mpr ⟨n₂, h₂, h₂'⟩, hm⟩

/-- The page tables list no frame in common. -/
def AddrSpace.Apart (sp sp' : AddrSpace) : Prop :=
  ∀ f, Owns sp.pageTable f → ¬ Owns sp'.pageTable f

theorem AddrSpace.owns_restoreState {sp : AddrSpace} {m : Machine} {f : ℕ}
    (h : Owns (sp.restoreState m).pageTable f) : Owns sp.pageTable f := by
  obtain ⟨e, he, hf⟩ := h
  exact ⟨e, List.mem_of_mem_take he, hf⟩

theorem pairwise_apart {spaces : List AddrSpace}
    (h : spaces.Pairwise AddrSpace.Apart) {i j : ℕ} {sp sp' : AddrSpace}
    (hi : spaces[i]? = some sp) (hj : spaces[j]? = some sp') (hne : j ≠ i) : sp'.Apart sp := by
  obtain ⟨hi', rfl⟩ := List.getElem?_eq_some_iff.mp hi
  obtain ⟨hj', rfl⟩ := List.getElem?_eq_some_iff.mp hj
  rcases Nat.lt_or_gt_of_ne hne with hlt | hlt
  · exact List.pairwise_iff_getElem.mp h j i hj' hi' hlt
  · exact fun f hf hf' => List.pairwise_iff_getElem.mp h i j hi' hj' hlt f hf' hf

/-- **Memory isolation.** The address space `sp` is restored and runs any instructions, with any
register values in between, up to and into one more instruction. Every access lies in memory and in
no frame of another address space; no byte of such a frame has changed; no `ASSERT` of a translation
fails; and with other contents of the frames that are not its own everything goes the same way. -/
theorem memory_isolation {spaces : List AddrSpace} (hapart : spaces.Pairwise AddrSpace.Apart)
    {i : ℕ} {sp : AddrSpace} (hsp : spaces[i]? = some sp) {m₀ m : Machine} {ls : List UserAct}
    (hrun : Run.exec userAct (sp.restoreState m₀) ls = some m) (debug : Bool) :
    (∃ new, ((oneInstruction debug).run m).last.accesses = m₀.accesses ++ new ∧
      ∀ a ∈ new, a.physAddr + a.size ≤ memorySize ∧
        ∀ k < a.size, Owns sp.pageTable ((a.physAddr + k) / pageSize) ∧
          ∀ (j : ℕ) (sp' : AddrSpace), spaces[j]? = some sp' → j ≠ i →
            ¬ Owns sp'.pageTable ((a.physAddr + k) / pageSize)) ∧
    (∀ (j : ℕ) (sp' : AddrSpace), spaces[j]? = some sp' → j ≠ i →
      ∀ q : ℕ, Owns sp'.pageTable (q / pageSize) →
        ((oneInstruction debug).run m).last.mainMemory q = m₀.mainMemory q) ∧
    (∀ m', (oneInstruction debug).run m ≠ .crashed .memoryAssert m') ∧
    ∀ mem : Memory, (∀ q : ℕ, Owns sp.pageTable (q / pageSize) → mem q = m₀.mainMemory q) →
      ∃ m', Run.exec userAct (sp.restoreState { m₀ with mainMemory := mem }) ls = some m' ∧
        ResultAgree ((oneInstruction debug).run m) ((oneInstruction debug).run m') := by
  have hconf : Confined (sp.restoreState m₀) ((oneInstruction debug).run m).last :=
    (exec_confined hrun).trans (run_confined (oneInstruction_meets debug m.registers))
  refine ⟨?_, fun j sp' hj hne q hq => ?_, fun m' hcrash => ?_, fun mem hmem => ?_⟩
  · obtain ⟨new, hnew, hin⟩ := hconf.accesses
    refine ⟨new, hnew, fun a ha => ⟨(hin a ha).1, fun k hk => ?_⟩⟩
    have hown := AddrSpace.owns_restoreState ((hin a ha).2 k hk)
    exact ⟨hown, fun j sp' hj hne hown' => pairwise_apart hapart hsp hj hne _ hown' hown⟩
  · exact hconf.untouched q fun hown =>
      pairwise_apart hapart hsp hj hne _ hq (AddrSpace.owns_restoreState hown)
  · have hmeets := meets_run (oneInstruction_meets debug m.registers)
    rw [hcrash] at hmeets
    rcases hmeets with h | ⟨_, _, _, _, _, _, h⟩
    · exact h rfl
    · cases h
  · have hagree : Agree (sp.restoreState m₀) (sp.restoreState { m₀ with mainMemory := mem }) :=
      ⟨rfl, rfl, fun q hq => hmem q (AddrSpace.owns_restoreState hq)⟩
    obtain ⟨m', hm', h⟩ := exec_agree hagree hrun
    exact ⟨m', hm', run_agree (oneInstruction_meets debug m.registers) h⟩

/-- Two address spaces of one page each. -/
def twoSpaces : List AddrSpace :=
  [⟨onePage, 1⟩, ⟨onePage.map fun e => { e with physicalPage := 1 }, 1⟩]

theorem twoSpaces_apart : twoSpaces.Pairwise AddrSpace.Apart := by
  refine .cons (fun sp' hsp' => ?_) (List.pairwise_singleton _ _)
  rw [List.mem_singleton.mp hsp']
  rintro f ⟨e, he, rfl⟩ ⟨e', he', hf⟩
  rw [List.mem_singleton.mp he, List.mem_singleton.mp he'] at hf
  revert hf
  decide

/-- `sw r0,16(r0)` twice, under the first of the two. -/
theorem memory_isolation_store : ∃ m, Run.exec userAct ((⟨onePage, 1⟩ : AddrSpace).restoreState
      ⟨initRegisters 1, wordsMemory [0xac000010, 0xac000010], [], []⟩) [.instr false] = some m ∧
    ((oneInstruction false).run m).last.mainMemory 512 =
      wordsMemory [0xac000010, 0xac000010] 512 := by
  have h : ∃ m, Run.exec userAct ((⟨onePage, 1⟩ : AddrSpace).restoreState
      ⟨initRegisters 1, wordsMemory [0xac000010, 0xac000010], [], []⟩) [.instr false] = some m :=
    ⟨_, rfl⟩
  obtain ⟨m, hm⟩ := h
  refine ⟨m, hm, ?_⟩
  obtain ⟨-, huntouched, -, -⟩ := memory_isolation twoSpaces_apart (i := 0) rfl hm false
  refine huntouched 1 _ rfl (by decide) 512 ?_
  exact ⟨_, List.mem_singleton_self _, rfl⟩

end Nachos
