import Nachos.Lib.Run
import Nachos.Machine.Mipssim

/-!
# Exceptions and crashes of the simulator

1. An exception leaves the machine as it was before the instruction, up to the pending delayed load
   and `BadVAddrReg` (`precise_exceptions`).
2. `Instruction.Crashes` lists the instructions that bring the simulator down: the unaligned `LWL`,
   `LWR`, `SWL` and `SWR`, and the division of the smallest `int` by `-1`. No other does
   (`instruction_safe_iff`), since `LoadReg` always names a general register.
-/

namespace Nachos

open Cpu

@[simp] theorem accessSize_one : accessSize 1 := .inl rfl

@[simp] theorem accessSize_two : accessSize 2 := .inr (.inl rfl)

@[simp] theorem accessSize_four : accessSize 4 := .inr (.inr rfl)

/-- Clearing two clear bits. -/
theorem and_not_three {x : Word} (h : x &&& 3#32 = 0#32) : x &&& 4294967292#32 = x := by
  have hx : x &&& (3#32 ||| 4294967292#32) = x := by
    rw [show (3#32 ||| 4294967292#32 : Word) = BitVec.allOnes 32 from by decide, BitVec.and_allOnes]
  rwa [BitVec.and_or_distrib_left, h, BitVec.zero_or] at hx

/-! ## Precise exceptions -/

/-- The registers after the pending delayed load. -/
def Registers.committed (r : Registers) : Registers :=
  (r.write (r loadReg).toNat (r loadValueReg)).write 0 0

/-- The address of the access that an instruction makes: its own word, or its operand. -/
def Machine.faultAddress (m : Machine) : Word :=
  match readMem m.mainMemory m.pageTable (m.registers pcReg) 4 with
  | .ok (raw, _) => m.registers (decode raw).rs.val + (decode raw).extra
  | _ => m.registers pcReg

/-- Exceptions come before any change of a register or of memory, memory faults report the address
`addr`, and no `ASSERT` of `ReadMem`, `WriteMem` or `Translate` fails. -/
def precise (r₀ : Registers) (addr : Word) (α : Type) : Post α where
  done := fun _ _ _ => True
  raised := fun which badVAddr r w =>
    r = r₀ ∧ w = false ∧ (which.ofTranslate = true → badVAddr = addr)
  crashed := fun c => c ≠ .memoryAssert

/-- The cases of the switch, one by one. -/
theorem switch_precise (i : Instruction) (r : Registers) :
    (switch i).Meets (precise r (r i.rs.val + i.extra) Next) r false := by
  obtain ⟨op, rs, rt, rd, extra⟩ := i
  cases op <;> simp +contextual only [switch, precise, assign, branchIf, meets_bind, meets_pure,
    meets_ite, meets_getRegisters, meets_setRegister, meets_load, meets_store, meets_raise,
    meets_crash, accessSize_one, accessSize_two, accessSize_four, and_not_three,
    ExceptionType.ofTranslate, BitVec.ofNat_eq_ofNat, BitVec.reduceNot, reduceCtorEq, ite_not,
    ne_eq, not_false_eq_true, true_and, implies_true, IsEmpty.forall_iff]

theorem advance_meets {Q : Post Unit} (hd : ∀ r w, Q.done () r w)
    (hc : Q.crashed .outOfBounds) (next : Next) (r : Registers) (w : Bool) :
    (advance next).Meets Q r w := by
  simp only [advance, doDelayedLoad, meets_bind, Meets]
  cases r.delayedLoad next.nextLoadReg next.nextLoadValue with
  | none => exact hc
  | some r' => exact hd _ w

theorem execute_precise (debug : Bool) (i : Instruction) (r : Registers) :
    (execute debug i).Meets (precise r (r i.rs.val + i.extra) Unit) r false := by
  unfold execute
  split_ifs
  · exact nofun
  · rw [meets_bind]
    refine Meets.mono ?_ ?_ ?_ (switch_precise i r)
    · exact fun next r' w' _ => advance_meets (fun _ _ => trivial) (fun h => nomatch h) next r' w'
    · exact fun _ _ _ _ h => h
    · exact fun _ h => h

/-- The two ways an instruction begins: its word cannot be read, or it is decoded. -/
theorem fetch_cases (debug : Bool) (m : Machine) :
    (∃ which, readMem m.mainMemory m.pageTable (m.registers pcReg) 4 = .exception which ∧
      (oneInstruction debug).run m = m.raiseException which (m.registers pcReg)) ∨
    ∃ raw pageTable,
      readMem m.mainMemory m.pageTable (m.registers pcReg) 4 = .ok (raw, pageTable) ∧
      (oneInstruction debug).run m =
        (execute debug (decode raw)).run (m.afterRead (m.registers pcReg) 4 pageTable) := by
  have hrun : (oneInstruction debug).run m =
      (Cpu.readMem (m.registers pcReg) 4 fun raw => execute debug (decode raw)).run m := rfl
  rw [hrun]
  rcases readMem_cases m.mainMemory m.pageTable (m.registers pcReg) accessSize_four with
    ⟨which, -, h⟩ | ⟨raw, pageTable, h⟩
  · exact .inl ⟨which, h, by simp only [run, h]⟩
  · exact .inr ⟨raw, pageTable, h, by simp only [run, h]⟩

/-- The registers at the entry of `ExceptionHandler`, one by one. -/
theorem atEntry_apply {r r' : Registers} {badVAddr : Word} (h : r.atEntry badVAddr = some r') :
    (∀ i, i ≠ loadReg → i ≠ loadValueReg → i ≠ badVAddrReg → r' i = r.committed i) ∧
    r' loadReg = 0 ∧ r' loadValueReg = 0 ∧
    ((r loadReg).toNat ≠ badVAddrReg → r' badVAddrReg = badVAddr) := by
  have hload : (r.write badVAddrReg badVAddr) loadReg = r loadReg :=
    Registers.write_of_ne (by decide) _
  have hvalue : (r.write badVAddrReg badVAddr) loadValueReg = r loadValueReg :=
    Registers.write_of_ne (by decide) _
  unfold Registers.atEntry Registers.delayedLoad at h
  rw [hload, hvalue] at h
  split_ifs at h
  cases h
  refine ⟨fun i h₁ h₂ h₃ => ?_, rfl, rfl, fun hne => ?_⟩
  · unfold Registers.committed
    by_cases h0 : i = 0
    · rw [h0, Registers.write_self, Registers.write_self]
    rw [Registers.write_of_ne h0, Registers.write_of_ne h₂, Registers.write_of_ne h₁,
      Registers.write_of_ne h0]
    by_cases hl : i = (r loadReg).toNat
    · rw [← hl, Registers.write_self, Registers.write_self]
    · rw [Registers.write_of_ne hl, Registers.write_of_ne hl, Registers.write_of_ne h₃]
  · rw [Registers.write_of_ne (by decide), Registers.write_of_ne (by decide),
      Registers.write_of_ne (by decide), Registers.write_of_ne hne.symm, Registers.write_self]

theorem raiseException_eq_raised {α : Type} {m m' : Machine} {which which' : ExceptionType}
    {badVAddr : Word} (h : (m.raiseException which badVAddr : Result α) = .raised which' m') :
    m'.mainMemory = m.mainMemory ∧ m.registers.atEntry badVAddr = some m'.registers := by
  unfold Machine.raiseException at h
  cases he : m.registers.atEntry badVAddr with
  | none =>
    rw [he] at h
    cases h
  | some r =>
    rw [he] at h
    cases h
    exact ⟨rfl, rfl⟩

/-- What is left of the instruction when it raises an exception. -/
theorem raised_cases {debug : Bool} {m m' : Machine} {which : ExceptionType}
    (h : (oneInstruction debug).run m = .raised which m') :
    m'.mainMemory = m.mainMemory ∧ ∃ badVAddr, m.registers.atEntry badVAddr = some m'.registers ∧
      (which.ofTranslate = true → badVAddr = m.faultAddress) := by
  unfold Machine.faultAddress
  rcases fetch_cases debug m with ⟨which', hfetch, hrun⟩ | ⟨raw, pageTable, hfetch, hrun⟩
  · rw [hrun] at h
    obtain ⟨hmem, hentry⟩ := raiseException_eq_raised h
    exact ⟨hmem, _, hentry, fun _ => by rw [hfetch]⟩
  · rw [hrun] at h
    have hmeets := meets_run (m := m.afterRead (m.registers pcReg) 4 pageTable)
      (execute_precise debug (decode raw) m.registers)
    rw [h] at hmeets
    obtain ⟨badVAddr, r, w', ⟨rfl, rfl, haddr⟩, hentry, hunwritten⟩ := hmeets
    refine ⟨(hunwritten rfl).2, badVAddr, hentry, fun hw => ?_⟩
    rw [hfetch]
    exact haddr hw

theorem committed_apply {r : Registers} (h0 : r 0 = 0) (i : ℕ) :
    r.committed i = if i = (r loadReg).toNat ∧ i ≠ 0 then r loadValueReg else r i := by
  unfold Registers.committed
  by_cases hi : i = 0
  · rw [hi, Registers.write_self, if_neg (fun h => h.2 rfl), h0]
  rw [Registers.write_of_ne hi]
  by_cases hl : i = (r loadReg).toNat
  · rw [if_pos ⟨hl, hi⟩, hl, Registers.write_self]
  · rw [if_neg (fun h => hl h.1), Registers.write_of_ne hl]

/-- **Precise exceptions.** At the entry of `ExceptionHandler` memory is as before the instruction,
and so is every register but the target of the pending delayed load, which has been committed, the
two registers of that load and `BadVAddrReg`, which holds the faulting address after a memory
fault. With its program counters unchanged the same instruction is fetched again. -/
theorem precise_exceptions (debug : Bool) {m m' : Machine} {which : ExceptionType}
    (h0 : m.registers 0 = 0) (h : (oneInstruction debug).run m = .raised which m') :
    m'.mainMemory = m.mainMemory ∧
    (∀ i < numTotalRegs, i ≠ loadReg → i ≠ loadValueReg → i ≠ badVAddrReg →
      m'.registers i = if i = (m.registers loadReg).toNat ∧ i ≠ 0 then m.registers loadValueReg
        else m.registers i) ∧
    m'.registers 0 = 0 ∧ m'.registers loadReg = 0 ∧ m'.registers loadValueReg = 0 ∧
    (which.ofTranslate = true → (m.registers loadReg).toNat ≠ badVAddrReg →
      m'.registers badVAddrReg = m.faultAddress) ∧
    ∀ raw pageTable, readMem m.mainMemory m.pageTable (m.registers pcReg) 4 = .ok (raw, pageTable) →
      ∃ pageTable', readMem m'.mainMemory m'.pageTable (m.registers pcReg) 4 =
        .ok (raw, pageTable') := by
  obtain ⟨hmem, badVAddr, hentry, haddr⟩ := raised_cases h
  obtain ⟨hothers, hload, hvalue, hbad⟩ := atEntry_apply hentry
  have hsame : SameMap m.pageTable m'.pageTable := run_sameMap (by rw [h]; rfl)
  refine ⟨hmem, fun i _ h₁ h₂ h₃ => ?_, ?_, hload, hvalue, fun hw hne => ?_, fun raw t hr => ?_⟩
  · rw [hothers i h₁ h₂ h₃, committed_apply h0]
  · rw [hothers 0 (by decide) (by decide) (by decide), committed_apply h0, if_neg (fun h => h.2 rfl),
      h0]
  · rw [hbad hne, haddr hw]
  · rw [hmem]
    exact readMem_of_sameMap hsame hr

/-- A memory that begins with the words of a program. -/
def wordsMemory (words : List Word) : Memory := fun a =>
  ((words.getD (a.toNat / 4) 0) >>> (8 * (a.toNat % 4))).setWidth 8

/-- One page in frame 0. -/
def onePage : List TranslationEntry :=
  [{ virtualPage := 0, physicalPage := 0, valid := true, readOnly := false, use := false,
     dirty := false }]

/-- At `lw r6,1024(r0)` with a delayed load of 7 into `r5` pending; the page of the operand does not
exist. -/
def loadMachine : Machine where
  registers := (Registers.write (fun _ => 0) loadReg 5).write loadValueReg 7
  mainMemory := wordsMemory [0x8c060400]
  pageTable := onePage
  accesses := []

theorem precise_exceptions_load :
    ∃ m', (oneInstruction false).run loadMachine = .raised .addressErrorException m' ∧
      m'.registers 5 = 7 ∧ m'.registers 6 = 0 ∧ m'.registers badVAddrReg = 1024 := by
  have h : ∃ m', (oneInstruction false).run loadMachine = .raised .addressErrorException m' :=
    ⟨_, rfl⟩
  obtain ⟨m', hm'⟩ := h
  obtain ⟨-, hregs, -, -, -, hbad, -⟩ := precise_exceptions false (m := loadMachine) rfl hm'
  refine ⟨m', hm', ?_, ?_, ?_⟩
  · exact hregs 5 (by decide) (by decide) (by decide) (by decide)
  · exact hregs 6 (by decide) (by decide) (by decide) (by decide)
  · exact hbad rfl (by decide)

/-! ## Crashes -/

/-- The instructions that bring the simulator down: the `ASSERT`s of the unaligned loads and stores,
and the quotient the host cannot represent. -/
def Instruction.Crashes (i : Instruction) (r : Registers) : Prop :=
  match i.opCode with
  | .lwl | .lwr | .swl | .swr => r i.rs.val + i.extra &&& 3 ≠ 0
  | .div => r i.rs.val = minInt ∧ r i.rt.val = -1
  | _ => False

/-- The instruction at the program counter is one of them. -/
def Machine.Crashes (m : Machine) : Prop :=
  ∃ raw pageTable, readMem m.mainMemory m.pageTable (m.registers pcReg) 4 = .ok (raw, pageTable) ∧
    (decode raw).Crashes m.registers

/-- No table entry is left undecoded, and none is `OP_RFE`. -/
theorem decode_opCode (raw : Word) :
    (decode raw).opCode ≠ .rfe ∧ (decode raw).opCode ≠ .special ∧ (decode raw).opCode ≠ .bcond := by
  have htable : ∀ k, (opTable.get k).1 ≠ .rfe := by decide
  have hspecial : ∀ k, specialTable.get k ≠ .rfe ∧ specialTable.get k ≠ .special ∧
      specialTable.get k ≠ .bcond := by decide
  have hop : ∀ op, op ≠ .rfe → decodeOp raw op ≠ .rfe ∧ decodeOp raw op ≠ .special ∧
      decodeOp raw op ≠ .bcond := by
    intro op hne
    cases op with
    | rfe => exact absurd rfl hne
    | special => exact hspecial _
    | bcond =>
      simp only [decodeOp]
      split_ifs <;> decide
    | _ => exact ⟨nofun, nofun, nofun⟩
  exact hop _ (htable _)

theorem fin_mod (n : Fin 32) : n.val % 4294967296 < 32 := by
  rw [Nat.mod_eq_of_lt (by have := n.isLt; omega)]
  exact n.isLt

section LoadReg

/-! The registers an instruction assigns to are not those of the delayed load. -/

variable (r : Registers) (value : Word)

theorem write_fin_loadReg (n : Fin 32) : r.write n.val value loadReg = r loadReg :=
  Registers.write_of_ne (by have := n.isLt; show (37 : ℕ) ≠ n.val; omega) value

theorem write_retAddrReg_loadReg : r.write retAddrReg value loadReg = r loadReg :=
  Registers.write_of_ne (by decide) value

theorem write_hiReg_loadReg : r.write hiReg value loadReg = r loadReg :=
  Registers.write_of_ne (by decide) value

theorem write_loReg_loadReg : r.write loReg value loadReg = r loadReg :=
  Registers.write_of_ne (by decide) value

end LoadReg

/-- Every way through the switch from the registers `r₀`: the next delayed load is into a general
register, exceptions come before any assignment, and only the listed instructions crash. -/
def safe (i : Instruction) (r₀ : Registers) : Post Next where
  done := fun next r _ => next.nextLoadReg.toNat < 32 ∧ r loadReg = r₀ loadReg
  raised := fun _ _ r _ => r = r₀
  crashed := fun _ => i.Crashes r₀

theorem switch_safe {i : Instruction}
    (hop : i.opCode ≠ .rfe ∧ i.opCode ≠ .special ∧ i.opCode ≠ .bcond) (r : Registers) :
    (switch i).Meets (safe i r) r false := by
  obtain ⟨op, rs, rt, rd, extra⟩ := i
  cases op <;> simp +contextual only [switch, safe, assign, branchIf, noLoad, Instruction.Crashes,
    meets_bind, meets_pure, meets_ite, meets_getRegisters, meets_setRegister, meets_load,
    meets_store, meets_raise, meets_crash, accessSize_one, accessSize_two, accessSize_four, fin_mod,
    write_fin_loadReg, write_retAddrReg_loadReg, write_hiReg_loadReg, write_loReg_loadReg,
    BitVec.ofNat_eq_ofNat, BitVec.toNat_ofNat, Nat.reducePow, Nat.zero_mod, Nat.zero_lt_succ,
    reduceCtorEq, ne_eq, not_false_eq_true, not_true_eq_false, true_and, and_true,
    implies_true] at hop ⊢

/-- The same for the whole instruction. -/
def safeEnd (i : Instruction) (r₀ : Registers) : Post Unit where
  done := fun _ r _ => (r loadReg).toNat < 32
  raised := (safe i r₀).raised
  crashed := (safe i r₀).crashed

theorem advance_safe {i : Instruction} {r₀ r : Registers} {next : Next}
    (hnext : next.nextLoadReg.toNat < 32) (hl : (r loadReg).toNat < 32) (w : Bool) :
    (advance next).Meets (safeEnd i r₀) r w := by
  simp only [advance, doDelayedLoad, meets_bind, Meets, Registers.delayedLoad]
  rw [if_pos (lt_trans hl (by decide))]
  exact hnext

theorem execute_safe (debug : Bool) (raw : Word) {r : Registers} (hl : (r loadReg).toNat < 32) :
    (execute debug (decode raw)).Meets (safeEnd (decode raw) r) r false := by
  have hop := decode_opCode raw
  unfold execute
  rw [if_neg (by rintro ⟨-, h | h⟩; exacts [hop.2.1 h, hop.2.2 h]), meets_bind]
  refine Meets.mono ?_ ?_ ?_ (switch_safe hop r)
  · rintro next r' w' ⟨hnext, hr'⟩
    exact advance_safe hnext (by rw [hr']; exact hl) w'
  · exact fun _ _ _ _ h => h
  · exact fun _ h => h

theorem atEntry_ne_none {r : Registers} (hl : (r loadReg).toNat < numTotalRegs) (badVAddr : Word) :
    r.atEntry badVAddr ≠ none := by
  unfold Registers.atEntry Registers.delayedLoad
  rw [if_pos]
  · exact nofun
  · rw [Registers.write_of_ne (by decide)]
    exact hl

/-- One instruction with a general register in `LoadReg`: it leaves one there, and only the listed
instructions crash. -/
theorem oneInstruction_safe (debug : Bool) {m : Machine} (hl : (m.registers loadReg).toNat < 32) :
    (∃ m', ((oneInstruction debug).run m).machine = some m' ∧ (m'.registers loadReg).toNat < 32) ∨
    (∃ c m', (oneInstruction debug).run m = .crashed c m') ∧ m.Crashes := by
  rcases fetch_cases debug m with ⟨which, -, hrun⟩ | ⟨raw, pageTable, hfetch, hrun⟩
  · rw [hrun]
    unfold Machine.raiseException
    cases he : m.registers.atEntry (m.registers pcReg) with
    | none => exact absurd he (atEntry_ne_none (lt_trans hl (by decide)) _)
    | some r =>
      refine .inl ⟨_, rfl, ?_⟩
      show (r loadReg).toNat < 32
      rw [(atEntry_apply he).2.1]
      decide
  · have hmeets := meets_run (m := m.afterRead (m.registers pcReg) 4 pageTable)
      (execute_safe debug raw hl)
    rw [hrun]
    cases hr : (execute debug (decode raw)).run (m.afterRead (m.registers pcReg) 4 pageTable) with
    | done a m' =>
      rw [hr] at hmeets
      obtain ⟨w', hdone, -⟩ := hmeets
      exact .inl ⟨m', rfl, hdone⟩
    | raised which m' =>
      rw [hr] at hmeets
      obtain ⟨badVAddr, r, w', -, he, -⟩ := hmeets
      refine .inl ⟨m', rfl, ?_⟩
      rw [(atEntry_apply he).2.1]
      decide
    | crashed c m' =>
      rw [hr] at hmeets
      refine .inr ⟨⟨c, m', rfl⟩, raw, pageTable, hfetch, ?_⟩
      rcases hmeets with hc | ⟨which, badVAddr, r, w', rfl, he, -⟩
      · exact hc
      · exact absurd he (atEntry_ne_none (lt_trans hl (by decide)) badVAddr)

theorem switch_crashes {i : Instruction} {m : Machine} (h : i.Crashes m.registers) :
    ∃ c, (switch i).run m = .crashed c m := by
  obtain ⟨op, rs, rt, rd, extra⟩ := i
  cases op with
  | lwl | lwr | swl | swr =>
    have h' : m.registers rs.val + extra &&& 3#32 ≠ 0#32 := h
    exact ⟨.assertFailed, by simp [switch, run_bind, getRegisters, run, Result.bind, h']⟩
  | div =>
    obtain ⟨h₁, h₂⟩ : m.registers rs.val = minInt ∧ m.registers rt.val = -1 := h
    exact ⟨.divisionTrap, by simp [switch, run_bind, getRegisters, run, Result.bind, h₁, h₂]⟩
  | _ => exact h.elim

/-- The listed instructions do crash. -/
theorem oneInstruction_crashes (debug : Bool) {m : Machine} (h : m.Crashes) :
    ∃ c m', (oneInstruction debug).run m = .crashed c m' := by
  obtain ⟨raw, pageTable, hfetch, hcrash⟩ := h
  rcases fetch_cases debug m with ⟨which, hfetch', -⟩ | ⟨raw', pageTable', hfetch', hrun⟩
  · rw [hfetch] at hfetch'
    cases hfetch'
  · rw [hfetch] at hfetch'
    cases hfetch'
    obtain ⟨c, hc⟩ := switch_crashes (m := m.afterRead (m.registers pcReg) 4 pageTable) hcrash
    have hop := decode_opCode raw
    refine ⟨c, m.afterRead (m.registers pcReg) 4 pageTable, ?_⟩
    rw [hrun, execute, if_neg (by rintro ⟨-, h | h⟩; exacts [hop.2.1 h, hop.2.2 h]), run_bind, hc]
    rfl

/-! ## User programs -/

/-- `AddrSpace::InitRegisters` -/
def initRegisters (numPages : ℕ) : Registers :=
  ((Registers.write (fun _ => 0) pcReg 0).write nextPCReg 4).write stackReg
    (BitVec.ofInt 32 (numPages * pageSize - 16))

/-- An instruction of a user program, with whatever memory and page table it finds, or an
assignment of `ExceptionHandler` to a register. -/
inductive UserStep where
  | instr (debug : Bool) (mainMemory : Memory) (pageTable : List TranslationEntry)
  | handler (num : ℕ) (value : Word)

def userStep (r : Registers) : UserStep → Option Registers
  | .instr debug mainMemory pageTable =>
    ((oneInstruction debug).run ⟨r, mainMemory, pageTable, []⟩).machine.map (·.registers)
  | .handler num value =>
    if num = 2 ∨ num = prevPCReg ∨ num = pcReg ∨ num = nextPCReg then some (r.write num value)
    else none

theorem loadReg_lt {r : Registers} (h : Run.Reach userStep (fun r => ∃ n, r = initRegisters n) r) :
    (r loadReg).toNat < 32 := by
  refine h.inv (fun r => (r loadReg).toNat < 32) ?_ ?_
  · rintro _ ⟨n, rfl⟩
    show (0 : Word).toNat < 32
    decide
  · intro r l r' hr hs
    cases l with
    | instr debug mainMemory pageTable =>
      simp only [userStep, Option.map_eq_some_iff] at hs
      obtain ⟨m, hm, rfl⟩ := hs
      rcases oneInstruction_safe debug (m := ⟨r, mainMemory, pageTable, []⟩) hr with
        ⟨m', hm', hl⟩ | ⟨⟨c, m', hc⟩, -⟩
      · rw [hm] at hm'
        cases hm'
        exact hl
      · rw [hc] at hm
        cases hm
    | handler num value =>
      simp only [userStep] at hs
      split_ifs at hs with hnum
      cases hs
      rw [Registers.write_of_ne]
      · exact hr
      · rcases hnum with rfl | rfl | rfl | rfl <;> decide

/-- **Which user programs crash the simulator.** With a register file that user instructions have
left, up to its general registers, `HI` and `LO`, and whatever memory and page table hold, an
instruction completes or enters `ExceptionHandler` unless it is one of the listed ones. -/
theorem instruction_safe_iff {r : Registers}
    (h : Run.Reach userStep (fun r => ∃ n, r = initRegisters n) r) (debug : Bool) (m : Machine)
    (hl : m.registers loadReg = r loadReg) :
    ((∃ m', (oneInstruction debug).run m = .done () m') ∨
      ∃ which m', (oneInstruction debug).run m = .raised which m') ↔ ¬ m.Crashes := by
  have hlt : (m.registers loadReg).toNat < 32 := by
    rw [hl]
    exact loadReg_lt h
  constructor
  · intro hend hcrash
    obtain ⟨c, m₁, hc⟩ := oneInstruction_crashes debug hcrash
    rcases hend with ⟨m', hm'⟩ | ⟨which, m', hm'⟩
    · rw [hc] at hm'
      cases hm'
    · rw [hc] at hm'
      cases hm'
  · intro hno
    rcases oneInstruction_safe debug hlt with ⟨m', hm', -⟩ | ⟨-, hcrash⟩
    · cases hr : (oneInstruction debug).run m with
      | done a m₁ => exact .inl ⟨m₁, rfl⟩
      | raised which m₁ => exact .inr ⟨which, m₁, rfl⟩
      | crashed c m₁ =>
        rw [hr] at hm'
        cases hm'
    · exact absurd hcrash hno

/-- `lui r1,0x8000`, `addiu r2,r0,-1`, `div r1,r2` -/
def divisionProgram : Memory := wordsMemory [0x3c018000, 0x2402ffff, 0x0022001a]

def Result.crash? {α : Type} : Result α → Option Crash
  | .crashed c _ => some c
  | _ => none

theorem division_crashes : ∃ r, Run.Reach userStep (fun r => ∃ n, r = initRegisters n) r ∧
    ((oneInstruction false).run ⟨r, divisionProgram, onePage, []⟩).crash? = some .divisionTrap := by
  have h : ((Run.exec userStep (initRegisters 1) [.instr false divisionProgram onePage,
      .instr false divisionProgram onePage]).any fun r =>
        ((oneInstruction false).run ⟨r, divisionProgram, onePage, []⟩).crash? ==
          some .divisionTrap) = true := by
    decide +kernel
  obtain ⟨r, hr, hc⟩ := (Option.any_eq_true _ _).mp h
  exact ⟨r, ⟨_, _, ⟨1, rfl⟩, hr⟩, eq_of_beq hc⟩

theorem not_instruction_safe : ¬ ∀ r, Run.Reach userStep (fun r => ∃ n, r = initRegisters n) r →
    ∀ (debug : Bool) (m : Machine), m.registers loadReg = r loadReg →
      (∃ m', (oneInstruction debug).run m = .done () m') ∨
        ∃ which m', (oneInstruction debug).run m = .raised which m' := by
  intro hsafe
  obtain ⟨r, hr, hc⟩ := division_crashes
  rcases hsafe r hr false ⟨r, divisionProgram, onePage, []⟩ rfl with ⟨m', h⟩ | ⟨which, m', h⟩
  · rw [h] at hc
    cases hc
  · rw [h] at hc
    cases hc

/-- The first instruction of the program completes. -/
theorem instruction_safe_lui :
    (∃ m', (oneInstruction false).run ⟨initRegisters 1, divisionProgram, onePage, []⟩ =
      .done () m') ∨ ∃ which m', (oneInstruction false).run
        ⟨initRegisters 1, divisionProgram, onePage, []⟩ = .raised which m' := by
  refine (instruction_safe_iff ⟨_, [], ⟨1, rfl⟩, rfl⟩ false _ rfl).mpr ?_
  rintro ⟨raw, pageTable, hfetch, hcrash⟩
  have hword : ∃ t, readMem divisionProgram onePage (initRegisters 1 pcReg) 4 =
      .ok (0x3c018000#32, t) := ⟨_, rfl⟩
  obtain ⟨t, ht⟩ := hword
  have hraw : raw = 0x3c018000#32 := by
    have heq : Access.ok (raw, pageTable) = Access.ok (0x3c018000#32, t) := hfetch.symm.trans ht
    cases heq
    rfl
  have hop : (decode raw).opCode = .lui := by
    rw [hraw]
    decide
  unfold Instruction.Crashes at hcrash
  rw [hop] at hcrash
  exact hcrash

end Nachos
