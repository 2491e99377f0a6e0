import Nachos.Machine.Translate

/-!
# The processor under the code of an instruction, `machine.cc`

`OneInstruction` works on the registers, on user memory through `ReadMem` and `WriteMem`, and on
nothing else. `Cpu` is the tree of these operations, with one node where the C++ touches the
machine, and `Cpu.run` carries it out. An exception ends the instruction: `Result.raised` is the
machine at the entry of `ExceptionHandler`.

`Cpu.Meets` is the rule for proofs about one instruction. It follows the registers through the tree
and forgets the contents of memory; `meets_run` says what it gives for a run.
-/

namespace Nachos

/-- One access to `mainMemory`. -/
structure PhysAccess where
  physAddr : ℕ
  size : ℕ
  writing : Bool
  deriving DecidableEq, Repr

/-- The machine of the running thread; `accesses` is history. -/
structure Machine where
  registers : Registers
  mainMemory : Memory
  pageTable : List TranslationEntry
  accesses : List PhysAccess

/-- How the simulator itself goes down. -/
inductive Crash where
  /-- An `ASSERT` of `OneInstruction`. -/
  | assertFailed
  /-- An `ASSERT` of `ReadMem`, `WriteMem` or `Translate`. -/
  | memoryAssert
  /-- An index outside of `registers`. -/
  | outOfBounds
  /-- A division the host refuses. -/
  | divisionTrap
  deriving DecidableEq, Repr

/-- `Machine::DelayedLoad`, unless `LoadReg` names no register. -/
def Registers.delayedLoad (r : Registers) (nextReg nextValue : Word) : Option Registers :=
  if (r loadReg).toNat < numTotalRegs then
    some ((((r.write (r loadReg).toNat (r loadValueReg)).write loadReg nextReg).write
      loadValueReg nextValue).write 0 0)
  else none

/-- The registers at the entry of `ExceptionHandler`, by `RaiseException`. -/
def Registers.atEntry (r : Registers) (badVAddr : Word) : Option Registers :=
  (r.write badVAddrReg badVAddr).delayedLoad 0 0

/-- What the code of an instruction does to the machine, in program order. -/
inductive Cpu (α : Type) where
  | pure (a : α)
  | registers (next : Registers → Cpu α)
  | write (num : ℕ) (value : Word) (next : Cpu α)
  | delayedLoad (nextReg nextValue : Word) (next : Cpu α)
  /-- `ReadMem`; where it fails the instruction is over. -/
  | readMem (addr : Word) (size : ℕ) (next : Word → Cpu α)
  | writeMem (addr : Word) (size : ℕ) (value : Word) (next : Cpu α)
  /-- `RaiseException`, after which every case of `OneInstruction` returns. -/
  | raise (which : ExceptionType) (badVAddr : Word)
  | crash (c : Crash)

/-- How an instruction ends. -/
inductive Result (α : Type) where
  | done (a : α) (m : Machine)
  | raised (which : ExceptionType) (m : Machine)
  | crashed (c : Crash) (m : Machine)

namespace Cpu

variable {α β : Type}

def bind : Cpu α → (α → Cpu β) → Cpu β
  | .pure a, f => f a
  | .registers next, f => .registers fun r => (next r).bind f
  | .write num value next, f => .write num value (next.bind f)
  | .delayedLoad nextReg nextValue next, f => .delayedLoad nextReg nextValue (next.bind f)
  | .readMem addr size next, f => .readMem addr size fun value => (next value).bind f
  | .writeMem addr size value next, f => .writeMem addr size value (next.bind f)
  | .raise which badVAddr, _ => .raise which badVAddr
  | .crash c, _ => .crash c

instance : Monad Cpu where
  pure := .pure
  bind := .bind

/-- The values of the registers. -/
def getRegisters : Cpu Registers := .registers .pure

def setRegister (num : ℕ) (value : Word) : Cpu Unit := .write num value (.pure ())

def doDelayedLoad (nextReg nextValue : Word) : Cpu Unit := .delayedLoad nextReg nextValue (.pure ())

def load (addr : Word) (size : ℕ) : Cpu Word := .readMem addr size .pure

def store (addr : Word) (size : ℕ) (value : Word) : Cpu Unit := .writeMem addr size value (.pure ())

end Cpu

namespace Machine

/-- `Machine::RaiseException` up to the call of `ExceptionHandler`. -/
def raiseException {α : Type} (m : Machine) (which : ExceptionType) (badVAddr : Word) : Result α :=
  match m.registers.atEntry badVAddr with
  | some r => .raised which { m with registers := r }
  | none => .crashed .outOfBounds m

/-- The access that a translation leads to. -/
def access (m : Machine) (addr : Word) (size : ℕ) (writing : Bool) : List PhysAccess :=
  match translate m.pageTable addr size writing with
  | .ok (physAddr, _) => [{ physAddr := physAddr, size := size, writing := writing }]
  | _ => []

/-- The machine after a successful `ReadMem`. -/
def afterRead (m : Machine) (addr : Word) (size : ℕ) (pageTable : List TranslationEntry) : Machine :=
  { m with pageTable := pageTable, accesses := m.accesses ++ m.access addr size false }

/-- The machine after a successful `WriteMem`. -/
def afterWrite (m : Machine) (addr : Word) (size : ℕ) (mainMemory : Memory)
    (pageTable : List TranslationEntry) : Machine :=
  { m with mainMemory := mainMemory, pageTable := pageTable
           accesses := m.accesses ++ m.access addr size true }

end Machine

/-- Carry out the operations of an instruction. -/
def Cpu.run {α : Type} : Cpu α → Machine → Result α
  | .pure a, m => .done a m
  | .registers next, m => (next m.registers).run m
  | .write num value next, m => next.run { m with registers := m.registers.write num value }
  | .delayedLoad nextReg nextValue next, m =>
    match m.registers.delayedLoad nextReg nextValue with
    | some r => next.run { m with registers := r }
    | none => .crashed .outOfBounds m
  | .readMem addr size next, m =>
    match Nachos.readMem m.mainMemory m.pageTable addr size with
    | .ok (value, pageTable) => (next value).run (m.afterRead addr size pageTable)
    | .exception which => m.raiseException which addr
    | .assertFailed => .crashed .memoryAssert m
  | .writeMem addr size value next, m =>
    match Nachos.writeMem m.mainMemory m.pageTable addr size value with
    | .ok (mainMemory, pageTable) => next.run (m.afterWrite addr size mainMemory pageTable)
    | .exception which => m.raiseException which addr
    | .assertFailed => .crashed .memoryAssert m
  | .raise which badVAddr, m => m.raiseException which badVAddr
  | .crash c, m => .crashed c m

/-! ## Memory accesses -/

/-- The exceptions of `Translate`. -/
def ExceptionType.ofTranslate : ExceptionType → Bool
  | .pageFaultException | .readOnlyException | .busErrorException | .addressErrorException => true
  | _ => false

/-- The sizes of a load or store. -/
def accessSize (size : ℕ) : Prop := size = 1 ∨ size = 2 ∨ size = 4

/-- An aligned access stays in its page. -/
theorem fits_page {virtAddr : Word} {size : ℕ} (hsize : accessSize size)
    (halign : ¬ (size = 4 ∧ virtAddr &&& 3 ≠ 0 ∨ size = 2 ∧ virtAddr &&& 1 ≠ 0)) :
    virtAddr.toNat % pageSize + size ≤ pageSize := by
  have h3 : (virtAddr &&& 3).toNat = virtAddr.toNat % 4 := by
    rw [BitVec.toNat_and]
    exact Nat.and_two_pow_sub_one_eq_mod _ 2
  have h1 : (virtAddr &&& 1).toNat = virtAddr.toNat % 2 := by
    rw [BitVec.toNat_and]
    exact Nat.and_two_pow_sub_one_eq_mod _ 1
  rw [not_or, not_and_not_right, not_and_not_right] at halign
  rw [show pageSize = 512 from rfl]
  rcases hsize with rfl | rfl | rfl
  · omega
  · have h := congrArg BitVec.toNat (halign.2 rfl)
    rw [h1] at h
    have h0 : (0 : Word).toNat = 0 := rfl
    omega
  · have h := congrArg BitVec.toNat (halign.1 rfl)
    rw [h3] at h
    have h0 : (0 : Word).toNat = 0 := rfl
    omega

/-- What `Translate` answers for an access of a processor. -/
theorem translate_cases (pageTable : List TranslationEntry) (virtAddr : Word) {size : ℕ}
    (hsize : accessSize size) (writing : Bool) :
    (∃ which, which.ofTranslate = true ∧
      translate pageTable virtAddr size writing = .exception which) ∨
    ∃ e f, pageTable[virtAddr.toNat / pageSize]? = some e ∧ f < numPhysPages ∧
      (BitVec.ofInt 32 e.physicalPage).toNat = f ∧ virtAddr.toNat % pageSize + size ≤ pageSize ∧
      translate pageTable virtAddr size writing =
        .ok (f * pageSize + virtAddr.toNat % pageSize, pageTable.set (virtAddr.toNat / pageSize)
          { e with use := true, dirty := e.dirty || writing }) := by
  have hoff : virtAddr.toNat % pageSize < pageSize := Nat.mod_lt _ (by decide)
  unfold translate
  split_ifs with halign
  · exact .inl ⟨.addressErrorException, rfl, rfl⟩
  rcases he : pageTable[virtAddr.toNat / pageSize]? with _ | e
  · exact .inl ⟨.addressErrorException, rfl, by simp only [he]⟩
  simp only [he]
  split_ifs with hv hr hf hb
  · exact .inl ⟨.pageFaultException, rfl, rfl⟩
  · exact .inl ⟨.readOnlyException, rfl, rfl⟩
  · exact .inl ⟨.busErrorException, rfl, rfl⟩
  · refine .inr ⟨e, _, rfl, by omega, rfl, fits_page hsize halign, rfl⟩
  · -- an aligned access does not leave its page, and the page lies in memory
    exfalso
    have hfit := fits_page hsize halign
    have hframe : ((BitVec.ofInt 32 e.physicalPage).toNat + 1) * pageSize ≤ memorySize :=
      Nat.mul_le_mul_right _ (by omega)
    rw [Nat.add_mul, Nat.one_mul] at hframe
    omega

theorem readMem_cases (m : Memory) (pageTable : List TranslationEntry) (addr : Word) {size : ℕ}
    (hsize : accessSize size) :
    (∃ which, which.ofTranslate = true ∧ readMem m pageTable addr size = .exception which) ∨
    ∃ value pageTable', readMem m pageTable addr size = .ok (value, pageTable') := by
  unfold readMem
  rcases translate_cases pageTable addr hsize false with ⟨which, hw, h⟩ | ⟨e, f, -, -, -, -, h⟩
  · exact .inl ⟨which, hw, by rw [h]⟩
  · rw [h]
    rcases hsize with rfl | rfl | rfl
    · exact .inr ⟨_, _, rfl⟩
    · exact .inr ⟨_, _, rfl⟩
    · exact .inr ⟨_, _, rfl⟩

theorem writeMem_cases (m : Memory) (pageTable : List TranslationEntry) (addr : Word) {size : ℕ}
    (hsize : accessSize size) (value : Word) :
    (∃ which, which.ofTranslate = true ∧ writeMem m pageTable addr size value = .exception which) ∨
    ∃ m' pageTable', writeMem m pageTable addr size value = .ok (m', pageTable') := by
  unfold writeMem
  rcases translate_cases pageTable addr hsize true with ⟨which, hw, h⟩ | ⟨e, f, -, -, -, -, h⟩
  · exact .inl ⟨which, hw, by rw [h]⟩
  · rw [h]
    rcases hsize with rfl | rfl | rfl
    · exact .inr ⟨_, _, rfl⟩
    · exact .inr ⟨_, _, rfl⟩
    · exact .inr ⟨_, _, rfl⟩

/-! ## The use and dirty bits -/

/-- A translation that succeeds leaves the mapping alone. -/
theorem translate_sameMap {t t' : List TranslationEntry} {virtAddr : Word} {size : ℕ}
    {writing : Bool} {physAddr : ℕ} (h : translate t virtAddr size writing = .ok (physAddr, t')) :
    SameMap t t' := by
  unfold translate at h
  split_ifs at h
  rcases he : t[virtAddr.toNat / pageSize]? with _ | e
  · simp only [he] at h
    cases h
  · simp only [he] at h
    split_ifs at h
    cases h
    exact sameMap_set he rfl

/-- The address does not depend on the use and dirty bits. -/
theorem translate_of_sameMap {t t₁ t' : List TranslationEntry} (hm : SameMap t t')
    {virtAddr : Word} {size : ℕ} {writing : Bool} {physAddr : ℕ}
    (h : translate t virtAddr size writing = .ok (physAddr, t₁)) :
    ∃ t₂, translate t' virtAddr size writing = .ok (physAddr, t₂) := by
  have hvpn := hm (virtAddr.toNat / pageSize)
  unfold translate at h ⊢
  split_ifs at h ⊢
  rcases he : t[virtAddr.toNat / pageSize]? with _ | e
  · simp only [he] at h
    cases h
  rcases he' : t'[virtAddr.toNat / pageSize]? with _ | e'
  · rw [he, he'] at hvpn
    cases hvpn
  rw [he, he', Option.map_some, Option.map_some, Option.some.injEq] at hvpn
  obtain ⟨hp, hv, hr⟩ : e'.physicalPage = e.physicalPage ∧ e'.valid = e.valid ∧
      e'.readOnly = e.readOnly := by
    simpa [TranslationEntry.mapping] using hvpn
  simp only [he] at h
  simp only [he', hp, hv, hr]
  split_ifs at h ⊢
  cases h
  exact ⟨_, rfl⟩

theorem readMem_of_sameMap {m : Memory} {t t₁ t' : List TranslationEntry}
    (hm : SameMap t t') {addr : Word} {size : ℕ} {value : Word}
    (h : readMem m t addr size = .ok (value, t₁)) :
    ∃ t₂, readMem m t' addr size = .ok (value, t₂) := by
  unfold readMem at h ⊢
  split at h
  · cases h
  · cases h
  · rename_i physAddr t₀ htr
    obtain ⟨t₂, htr'⟩ := translate_of_sameMap hm htr
    rw [htr']
    split at h
    · rename_i v hv
      cases h
      exact ⟨t₂, by simp only [hv]⟩
    · cases h

theorem readMem_sameMap {m : Memory} {t t' : List TranslationEntry} {addr : Word} {size : ℕ}
    {value : Word} (h : readMem m t addr size = .ok (value, t')) : SameMap t t' := by
  unfold readMem at h
  split at h
  · cases h
  · cases h
  · rename_i physAddr t₀ htr
    split at h
    · cases h
      exact translate_sameMap htr
    · cases h

theorem writeMem_sameMap {m m' : Memory} {t t' : List TranslationEntry} {addr : Word}
    {size : ℕ} {value : Word} (h : writeMem m t addr size value = .ok (m', t')) :
    SameMap t t' := by
  unfold writeMem at h
  split at h
  · cases h
  · cases h
  · rename_i physAddr t₀ htr
    split at h
    · cases h
      exact translate_sameMap htr
    · cases h

/-! ## Runs of a sequence -/

def Result.bind {α β : Type} : Result α → (α → Machine → Result β) → Result β
  | .done a m, f => f a m
  | .raised which m, _ => .raised which m
  | .crashed c m, _ => .crashed c m

/-- The machine that is left, at the end or at the entry of `ExceptionHandler`. -/
def Result.machine {α : Type} : Result α → Option Machine
  | .done _ m => some m
  | .raised _ m => some m
  | .crashed _ _ => none

namespace Cpu

variable {α β : Type}

theorem raiseException_bind (m : Machine) (which : ExceptionType) (badVAddr : Word)
    (f : α → Machine → Result β) :
    (m.raiseException which badVAddr : Result α).bind f = m.raiseException which badVAddr := by
  unfold Machine.raiseException
  cases m.registers.atEntry badVAddr <;> rfl

theorem run_bind (x : Cpu α) (f : α → Cpu β) (m : Machine) :
    (x >>= f).run m = (x.run m).bind fun a m' => (f a).run m' := by
  show (x.bind f).run m = _
  induction x generalizing m with
  | pure a => rfl
  | registers next ih => exact ih m.registers m
  | write num value next ih => exact ih _
  | delayedLoad nextReg nextValue next ih =>
    simp only [Cpu.bind, run]
    cases m.registers.delayedLoad nextReg nextValue with
    | none => rfl
    | some r => exact ih _
  | readMem addr size next ih =>
    simp only [Cpu.bind, run]
    cases Nachos.readMem m.mainMemory m.pageTable addr size with
    | ok p => exact ih p.1 _
    | exception which => exact (raiseException_bind m which addr _).symm
    | assertFailed => rfl
  | writeMem addr size value next ih =>
    simp only [Cpu.bind, run]
    cases Nachos.writeMem m.mainMemory m.pageTable addr size value with
    | ok p => exact ih _
    | exception which => exact (raiseException_bind m which addr _).symm
    | assertFailed => rfl
  | raise which badVAddr => exact (raiseException_bind m which badVAddr _).symm
  | crash c => rfl

/-! ## A rule for one instruction -/

/-- What an instruction may do: `done` and `raised` speak about the registers, the latter before
`RaiseException`, and about whether memory was written. -/
structure Post (α : Type) where
  done : α → Registers → Bool → Prop
  raised : ExceptionType → Word → Registers → Bool → Prop
  crashed : Crash → Prop

/-- Every way through the instruction from the registers `r` ends as `Q` allows, whatever memory
holds; `w`: memory was already written. -/
def Meets (Q : Post α) : Cpu α → Registers → Bool → Prop
  | .pure a, r, w => Q.done a r w
  | .registers next, r, w => (next r).Meets Q r w
  | .write num value next, r, w => next.Meets Q (r.write num value) w
  | .delayedLoad nextReg nextValue next, r, w =>
    match r.delayedLoad nextReg nextValue with
    | some r' => next.Meets Q r' w
    | none => Q.crashed .outOfBounds
  | .readMem addr size next, r, w =>
    accessSize size ∧ (∀ which, which.ofTranslate = true → Q.raised which addr r w) ∧
      ∀ value, (next value).Meets Q r w
  | .writeMem addr size _ next, r, w =>
    accessSize size ∧ (∀ which, which.ofTranslate = true → Q.raised which addr r w) ∧
      next.Meets Q r true
  | .raise which badVAddr, r, w => Q.raised which badVAddr r w
  | .crash c, _, _ => Q.crashed c

/-- `m` was left by an instruction that started in `m₀`; `w` and `w'` say whether memory was written
before it and when it was left. -/
def Unwritten (m₀ m : Machine) (w w' : Bool) : Prop :=
  w' = false → w = false ∧ m.mainMemory = m₀.mainMemory

@[simp] theorem meets_bind {Q : Post β} {x : Cpu α} {f : α → Cpu β} {r : Registers} {w : Bool} :
    (x >>= f).Meets Q r w ↔
      x.Meets { Q with done := fun a r' w' => (f a).Meets Q r' w' } r w := by
  show (x.bind f).Meets Q r w ↔ _
  induction x generalizing r w with
  | pure a => exact Iff.rfl
  | registers next ih => exact ih r
  | write num value next ih => exact ih
  | delayedLoad nextReg nextValue next ih =>
    simp only [Cpu.bind, Meets]
    cases r.delayedLoad nextReg nextValue with
    | none => exact Iff.rfl
    | some r' => exact ih
  | readMem addr size next ih =>
    exact and_congr_right fun _ => and_congr_right fun _ => forall_congr' fun value => ih value
  | writeMem addr size value next ih =>
    exact and_congr_right fun _ => and_congr_right fun _ => ih
  | raise which badVAddr => exact Iff.rfl
  | crash c => exact Iff.rfl

theorem Meets.mono {Q Q' : Post α} (hd : ∀ a r w, Q.done a r w → Q'.done a r w)
    (hr : ∀ which a r w, Q.raised which a r w → Q'.raised which a r w)
    (hc : ∀ c, Q.crashed c → Q'.crashed c) {x : Cpu α} {r : Registers} {w : Bool}
    (h : x.Meets Q r w) : x.Meets Q' r w := by
  induction x generalizing r w with
  | pure a => exact hd a r w h
  | registers next ih => exact ih r h
  | write num value next ih => exact ih h
  | delayedLoad nextReg nextValue next ih =>
    simp only [Meets] at h ⊢
    cases hl : r.delayedLoad nextReg nextValue with
    | none =>
      rw [hl] at h
      exact hc _ h
    | some r' =>
      rw [hl] at h
      exact ih h
  | readMem addr size next ih =>
    exact ⟨h.1, fun which hw => hr _ _ _ _ (h.2.1 which hw), fun value => ih value (h.2.2 value)⟩
  | writeMem addr size value next ih =>
    exact ⟨h.1, fun which hw => hr _ _ _ _ (h.2.1 which hw), ih h.2.2⟩
  | raise which badVAddr => exact hr _ _ _ _ h
  | crash c => exact hc c h

section Rules

variable {Q : Post α} {r : Registers} {w : Bool}

@[simp] theorem meets_pure (a : α) : (Pure.pure a : Cpu α).Meets Q r w ↔ Q.done a r w := Iff.rfl

@[simp] theorem meets_getRegisters {Q : Post Registers} :
    getRegisters.Meets Q r w ↔ Q.done r r w := Iff.rfl

@[simp] theorem meets_setRegister {Q : Post Unit} (num : ℕ) (value : Word) :
    (setRegister num value).Meets Q r w ↔ Q.done () (r.write num value) w := Iff.rfl

@[simp] theorem meets_load {Q : Post Word} (addr : Word) (size : ℕ) :
    (load addr size).Meets Q r w ↔ accessSize size ∧
      (∀ which, which.ofTranslate = true → Q.raised which addr r w) ∧ ∀ value, Q.done value r w :=
  Iff.rfl

@[simp] theorem meets_store {Q : Post Unit} (addr : Word) (size : ℕ) (value : Word) :
    (store addr size value).Meets Q r w ↔ accessSize size ∧
      (∀ which, which.ofTranslate = true → Q.raised which addr r w) ∧ Q.done () r true :=
  Iff.rfl

@[simp] theorem meets_raise (which : ExceptionType) (badVAddr : Word) :
    (Cpu.raise which badVAddr : Cpu α).Meets Q r w ↔ Q.raised which badVAddr r w := Iff.rfl

@[simp] theorem meets_crash (c : Crash) : (Cpu.crash c : Cpu α).Meets Q r w ↔ Q.crashed c := Iff.rfl

theorem meets_ite {c : Prop} [Decidable c] {x y : Cpu α} :
    (if c then x else y).Meets Q r w ↔ (c → x.Meets Q r w) ∧ (¬ c → y.Meets Q r w) := by
  by_cases hc : c <;> simp [hc]

end Rules

end Cpu

/-- The end of a run is as `Q` allows. -/
def Result.Meets {α : Type} (Q : Cpu.Post α) (m₀ : Machine) (w : Bool) : Result α → Prop
  | .done a m => ∃ w', Q.done a m.registers w' ∧ Cpu.Unwritten m₀ m w w'
  | .raised which m => ∃ badVAddr r w', Q.raised which badVAddr r w' ∧
      r.atEntry badVAddr = some m.registers ∧ Cpu.Unwritten m₀ m w w'
  | .crashed c _ => Q.crashed c ∨ ∃ which badVAddr r w', Q.raised which badVAddr r w' ∧
      r.atEntry badVAddr = none ∧ c = .outOfBounds

namespace Cpu

variable {α : Type} {Q : Post α}

theorem meets_raiseException {m : Machine} {w : Bool} {which : ExceptionType} {badVAddr : Word}
    (h : Q.raised which badVAddr m.registers w) :
    (m.raiseException which badVAddr : Result α).Meets Q m w := by
  unfold Machine.raiseException
  cases he : m.registers.atEntry badVAddr with
  | none => exact .inr ⟨which, badVAddr, m.registers, w, h, he, rfl⟩
  | some r => exact ⟨badVAddr, m.registers, w, h, he, fun hw => ⟨hw, rfl⟩⟩

/-- The end of a run, seen from an earlier machine with the same memory. -/
theorem Unwritten.of_eq {m₀ m₁ m : Machine} {w w' : Bool} (he : m₁.mainMemory = m₀.mainMemory)
    (h : Unwritten m₁ m w w') : Unwritten m₀ m w w' :=
  fun hw => ⟨(h hw).1, (h hw).2.trans he⟩

theorem Unwritten.of_true {m₀ m₁ m : Machine} {w w' : Bool} (h : Unwritten m₁ m true w') :
    Unwritten m₀ m w w' :=
  fun hw => nomatch (h hw).1

theorem result_mono {m₀ m₁ : Machine} {w w₁ : Bool}
    (hm : ∀ m w', Unwritten m₁ m w₁ w' → Unwritten m₀ m w w') {x : Result α}
    (h : x.Meets Q m₁ w₁) : x.Meets Q m₀ w := by
  cases x with
  | done a m =>
    obtain ⟨w', hq, hu⟩ := h
    exact ⟨w', hq, hm m w' hu⟩
  | raised which m =>
    obtain ⟨badVAddr, r, w', hq, he, hu⟩ := h
    exact ⟨badVAddr, r, w', hq, he, hm m w' hu⟩
  | crashed c m => exact h

/-- **The rule is sound**: the end of every run is as `Q` allows. -/
theorem meets_run {x : Cpu α} {m : Machine} {w : Bool} (h : x.Meets Q m.registers w) :
    (x.run m).Meets Q m w := by
  induction x generalizing m w with
  | pure a => exact ⟨w, h, fun hw => ⟨hw, rfl⟩⟩
  | registers next ih => exact ih m.registers h
  | write num value next ih =>
    exact result_mono (fun _ _ hu => hu.of_eq rfl) (ih h)
  | delayedLoad nextReg nextValue next ih =>
    simp only [Meets] at h
    simp only [run]
    cases hd : m.registers.delayedLoad nextReg nextValue with
    | none =>
      rw [hd] at h
      exact .inl h
    | some r =>
      rw [hd] at h
      exact result_mono (fun _ _ hu => hu.of_eq rfl) (ih h)
  | readMem addr size next ih =>
    obtain ⟨hsize, hraise, hnext⟩ := h
    simp only [run]
    rcases readMem_cases m.mainMemory m.pageTable addr hsize with ⟨which, hw, he⟩ | ⟨v, p, he⟩
    · rw [he]
      exact meets_raiseException (hraise which hw)
    · rw [he]
      exact result_mono (fun _ _ hu => hu.of_eq rfl) (ih v (hnext v))
  | writeMem addr size value next ih =>
    obtain ⟨hsize, hraise, hnext⟩ := h
    simp only [run]
    rcases writeMem_cases m.mainMemory m.pageTable addr hsize value with ⟨which, hw, he⟩ | ⟨m', p, he⟩
    · rw [he]
      exact meets_raiseException (hraise which hw)
    · rw [he]
      exact result_mono (fun _ _ hu => hu.of_true) (ih hnext)
  | raise which badVAddr => exact meets_raiseException h
  | crash c => exact .inl h

/-! ## The page table during an instruction -/

theorem raiseException_sameMap {m m' : Machine} {which : ExceptionType} {badVAddr : Word}
    (h : (m.raiseException which badVAddr : Result α).machine = some m') :
    SameMap m.pageTable m'.pageTable := by
  unfold Machine.raiseException at h
  cases he : m.registers.atEntry badVAddr with
  | none =>
    rw [he] at h
    cases h
  | some r =>
    rw [he] at h
    cases h
    exact sameMap_refl _

/-- An instruction changes the use and dirty bits of the page table only. -/
theorem run_sameMap {x : Cpu α} {m m' : Machine} (h : (x.run m).machine = some m') :
    SameMap m.pageTable m'.pageTable := by
  induction x generalizing m with
  | pure a =>
    cases h
    exact sameMap_refl _
  | registers next ih => exact ih m.registers h
  | write num value next ih => exact ih (m := { m with registers := m.registers.write num value }) h
  | delayedLoad nextReg nextValue next ih =>
    simp only [run] at h
    cases hd : m.registers.delayedLoad nextReg nextValue with
    | none =>
      rw [hd] at h
      cases h
    | some r =>
      rw [hd] at h
      exact ih (m := { m with registers := r }) h
  | readMem addr size next ih =>
    simp only [run] at h
    cases hr : Nachos.readMem m.mainMemory m.pageTable addr size with
    | ok p =>
      rw [hr] at h
      exact (readMem_sameMap hr).trans (ih p.1 h)
    | exception which =>
      rw [hr] at h
      exact raiseException_sameMap h
    | assertFailed =>
      rw [hr] at h
      cases h
  | writeMem addr size value next ih =>
    simp only [run] at h
    cases hr : Nachos.writeMem m.mainMemory m.pageTable addr size value with
    | ok p =>
      rw [hr] at h
      exact (writeMem_sameMap hr).trans (ih h)
    | exception which =>
      rw [hr] at h
      exact raiseException_sameMap h
    | assertFailed =>
      rw [hr] at h
      cases h
  | raise which badVAddr => exact raiseException_sameMap h
  | crash c => cases h

end Cpu

end Nachos
