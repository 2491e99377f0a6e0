import Mathlib.Data.BitVec
import Mathlib.Data.Int.Basic

/-!
# Machine words and the constants of `machine.h`

Registers and header fields are 32-bit words, the characters of `mainMemory` bytes. An `int` of
the kernel that is read off such a word is its signed value `BitVec.toInt`, an `unsigned` its
`BitVec.toNat`. Arithmetic on `int`s wraps around.
-/

namespace Nachos

abbrev Word := BitVec 32

abbrev Byte := BitVec 8

/-- A NUL-terminated string of the kernel, without the NUL. -/
abbrev Name := List Byte

/-- The `divRoundUp` macro of `utility.h`. -/
def divRoundUp (n s : ℕ) : ℕ := n / s + if 0 < n % s then 1 else 0

/-- `SectorSize` of `disk.h`. -/
abbrev sectorSize : ℕ := 512

/-- `PageSize`: the page size is the disk sector size. -/
abbrev pageSize : ℕ := sectorSize

abbrev numPhysPages : ℕ := 128

abbrev memorySize : ℕ := numPhysPages * pageSize

/-- `UserStackSize` of `addrspace.h`. -/
abbrev userStackSize : ℕ := 1024

/-! ## Arithmetic on `int`s -/

/-- The value of an `int` that is stored in a word. -/
theorem toInt_ofInt_of_lt {n : ℤ} (h₁ : -2 ^ 31 ≤ n) (h₂ : n < 2 ^ 31) :
    (BitVec.ofInt 32 n).toInt = n := by
  rw [BitVec.toInt_ofInt, Int.bmod_def]
  split_ifs <;> omega

/-- A result in an `int`. -/
def asInt (x : ℤ) : ℤ := (BitVec.ofInt 32 x).toInt

theorem asInt_eq {x : ℤ} (h₁ : -2 ^ 31 ≤ x) (h₂ : x < 2 ^ 31) : asInt x = x :=
  toInt_ofInt_of_lt h₁ h₂

/-- `value++` -/
def intSucc (x : ℤ) : ℤ := if x = 2 ^ 31 - 1 then -2 ^ 31 else x + 1

/-- `value--` -/
def intPred (x : ℤ) : ℤ := if x = -2 ^ 31 then 2 ^ 31 - 1 else x - 1

theorem intSucc_eq_asInt {x : ℤ} (h₁ : -2 ^ 31 ≤ x) (h₂ : x < 2 ^ 31) :
    intSucc x = asInt (x + 1) := by
  unfold intSucc
  split_ifs with h
  · rw [h]
    rfl
  · exact (asInt_eq (by omega) (by omega)).symm

theorem intPred_eq_asInt {x : ℤ} (h₁ : -2 ^ 31 ≤ x) (h₂ : x < 2 ^ 31) :
    intPred x = asInt (x - 1) := by
  unfold intPred
  split_ifs with h
  · rw [h]
    rfl
  · exact (asInt_eq (by omega) (by omega)).symm

theorem intSucc_of_lt {x : ℤ} (h : x < 2 ^ 31 - 1) : intSucc x = x + 1 := if_neg (by omega)

theorem intPred_of_nonneg {x : ℤ} (h : 0 ≤ x) : intPred x = x - 1 := if_neg (by omega)

/-! ## Registers -/

abbrev stackReg : ℕ := 29
abbrev retAddrReg : ℕ := 31
abbrev hiReg : ℕ := 32
abbrev loReg : ℕ := 33
abbrev pcReg : ℕ := 34
abbrev nextPCReg : ℕ := 35
abbrev prevPCReg : ℕ := 36
abbrev loadReg : ℕ := 37
abbrev loadValueReg : ℕ := 38
abbrev badVAddrReg : ℕ := 39
abbrev numTotalRegs : ℕ := 40

/-- `registers[NumTotalRegs]`; every index the kernel uses is below `numTotalRegs`. -/
abbrev Registers := ℕ → Word

/-- `Machine::WriteRegister`. -/
def Registers.write (r : Registers) (num : ℕ) (value : Word) : Registers :=
  Function.update r num value

@[simp] theorem Registers.write_self (r : Registers) (num : ℕ) (value : Word) :
    r.write num value num = value := by
  simp [Registers.write]

theorem Registers.write_of_ne {r : Registers} {num i : ℕ} (h : i ≠ num) (value : Word) :
    r.write num value i = r i := by
  simp [Registers.write, h]

/-! ## Words in memory -/

/-- The little-endian word at byte `k` of a structure in memory. -/
def wordAt (img : ℕ → Byte) (k : ℕ) : Word := img (k + 3) ++ img (k + 2) ++ img (k + 1) ++ img k

theorem wordAt_congr {b b' : ℕ → Byte} {k : ℕ} (h : ∀ j < 4, b (k + j) = b' (k + j)) :
    wordAt b k = wordAt b' k := by
  have h0 := h 0 (by decide)
  rw [Nat.add_zero] at h0
  unfold wordAt
  rw [h 3 (by decide), h 2 (by decide), h 1 (by decide), h0]

theorem append_extractLsb' (w : Word) :
    w.extractLsb' 24 8 ++ w.extractLsb' 16 8 ++ w.extractLsb' 8 8 ++ w.extractLsb' 0 8 = w := by
  apply BitVec.eq_of_getLsbD_eq
  intro i hi
  simp only [BitVec.getLsbD_append, BitVec.getLsbD_extractLsb']
  grind

/-- The kinds of traps into the kernel, `ExceptionType` of `machine.h`. -/
inductive ExceptionType where
  | noException
  | syscallException
  | pageFaultException
  | readOnlyException
  | busErrorException
  | addressErrorException
  | overflowException
  | illegalInstrException
  | numExceptionTypes
  deriving DecidableEq, Repr

theorem le_divRoundUp_mul (n : ℕ) {s : ℕ} (hs : 0 < s) : n ≤ divRoundUp n s * s := by
  have h := Nat.div_add_mod n s
  have hm := Nat.mod_lt n hs
  unfold divRoundUp
  split_ifs with h0
  · rw [Nat.add_mul, Nat.one_mul, Nat.mul_comm]; omega
  · rw [Nat.add_zero, Nat.mul_comm]; omega

end Nachos
