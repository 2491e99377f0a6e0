import Nachos.Machine.Exceptions
import Nachos.Machine.Mult

/-!
# The MIPS R2000 architecture

`Mips.effect` is what the architecture defines for the arithmetic, logical, shift, compare, branch
and jump instructions: the registers they write and the address that follows the delay slot. It is
read off the fields of the instruction word. The address of the delay slot is `NextPCReg`.

The manual forbids `JALR` with `rs = rd` and the linking branches with `rs = 31`; there `effect`
follows its description of the operation, which reads `rs` before it links. A division by zero has
no defined result.
-/

namespace Nachos

namespace Mips

/-! ## The instruction word -/

def op (w : Word) : ℕ := (w.extractLsb' 26 6).toNat

def rs (w : Word) : ℕ := (w.extractLsb' 21 5).toNat

def rt (w : Word) : ℕ := (w.extractLsb' 16 5).toNat

def rd (w : Word) : ℕ := (w.extractLsb' 11 5).toNat

def shamt (w : Word) : ℕ := (w.extractLsb' 6 5).toNat

def funct (w : Word) : ℕ := (w.extractLsb' 0 6).toNat

/-- The immediate, sign-extended. -/
def simm (w : Word) : Word := (w.extractLsb' 0 16).signExtend 32

/-- The immediate, zero-extended. -/
def zimm (w : Word) : Word := (w.extractLsb' 0 16).setWidth 32

def mnemonicOp : ℕ → Option OpCode
  | 2 => some .j
  | 3 => some .jal
  | 4 => some .beq
  | 5 => some .bne
  | 6 => some .blez
  | 7 => some .bgtz
  | 8 => some .addi
  | 9 => some .addiu
  | 10 => some .slti
  | 11 => some .sltiu
  | 12 => some .andi
  | 13 => some .ori
  | 14 => some .xori
  | 15 => some .lui
  | _ => none

def mnemonicSpecial : ℕ → Option OpCode
  | 0 => some .sll
  | 2 => some .srl
  | 3 => some .sra
  | 4 => some .sllv
  | 6 => some .srlv
  | 7 => some .srav
  | 8 => some .jr
  | 9 => some .jalr
  | 16 => some .mfhi
  | 17 => some .mthi
  | 18 => some .mflo
  | 19 => some .mtlo
  | 24 => some .mult
  | 25 => some .multu
  | 26 => some .div
  | 27 => some .divu
  | 32 => some .add
  | 33 => some .addu
  | 34 => some .sub
  | 35 => some .subu
  | 36 => some .and
  | 37 => some .or
  | 38 => some .xor
  | 39 => some .nor
  | 42 => some .slt
  | 43 => some .sltu
  | _ => none

def mnemonicBcond : ℕ → Option OpCode
  | 0 => some .bltz
  | 1 => some .bgez
  | 16 => some .bltzal
  | 17 => some .bgezal
  | _ => none

/-- The instructions of `effect`. -/
def mnemonic (w : Word) : Option OpCode :=
  if op w = 0 then mnemonicSpecial (funct w)
  else if op w = 1 then mnemonicBcond (rt w)
  else mnemonicOp (op w)

/-! ## The operations -/

/-- The registers an instruction writes, with their values, and the address after the delay slot. -/
structure Effect where
  writes : List (ℕ × Word)
  target : Word
  deriving DecidableEq, Repr

section

variable (w : Word) (r : Registers)

def writeRd (value : Word) : Effect := ⟨[(rd w, value)], r nextPCReg + 4⟩

def writeRt (value : Word) : Effect := ⟨[(rt w, value)], r nextPCReg + 4⟩

def branch (taken : Prop) [Decidable taken] : Word :=
  if taken then r nextPCReg + simm w <<< 2 else r nextPCReg + 4

/-- The target in the region of the delay slot. -/
def jump : Word := (r nextPCReg).extractLsb' 28 4 ++ w.extractLsb' 0 26 ++ (0 : BitVec 2)

/-- The link registers point behind the delay slot. -/
def link (num : ℕ) : List (ℕ × Word) := [(num, r nextPCReg + 4)]

/-- A product in `HI` and `LO`. -/
def product (value : BitVec 64) : Effect :=
  ⟨[(hiReg, value.extractLsb' 32 32), (loReg, value.extractLsb' 0 32)], r nextPCReg + 4⟩

def quotient (lo hi : Word) : Effect := ⟨[(loReg, lo), (hiReg, hi)], r nextPCReg + 4⟩

def operation : OpCode → Option Effect
  | .add | .addu => some (writeRd w r (r (rs w) + r (rt w)))
  | .sub | .subu => some (writeRd w r (r (rs w) - r (rt w)))
  | .and => some (writeRd w r (r (rs w) &&& r (rt w)))
  | .or => some (writeRd w r (r (rs w) ||| r (rt w)))
  | .xor => some (writeRd w r (r (rs w) ^^^ r (rt w)))
  | .nor => some (writeRd w r (~~~ (r (rs w) ||| r (rt w))))
  | .slt => some (writeRd w r (if (r (rs w)).toInt < (r (rt w)).toInt then 1 else 0))
  | .sltu => some (writeRd w r (if (r (rs w)).toNat < (r (rt w)).toNat then 1 else 0))
  | .sll => some (writeRd w r (r (rt w) <<< shamt w))
  | .srl => some (writeRd w r (r (rt w) >>> shamt w))
  | .sra => some (writeRd w r ((r (rt w)).sshiftRight (shamt w)))
  | .sllv => some (writeRd w r (r (rt w) <<< ((r (rs w)).toNat % 32)))
  | .srlv => some (writeRd w r (r (rt w) >>> ((r (rs w)).toNat % 32)))
  | .srav => some (writeRd w r ((r (rt w)).sshiftRight ((r (rs w)).toNat % 32)))
  | .mfhi => some (writeRd w r (r hiReg))
  | .mflo => some (writeRd w r (r loReg))
  | .mthi => some ⟨[(hiReg, r (rs w))], r nextPCReg + 4⟩
  | .mtlo => some ⟨[(loReg, r (rs w))], r nextPCReg + 4⟩
  | .mult => some (product r (BitVec.ofInt 64 ((r (rs w)).toInt * (r (rt w)).toInt)))
  | .multu => some (product r (BitVec.ofNat 64 ((r (rs w)).toNat * (r (rt w)).toNat)))
  | .div =>
    some (if r (rt w) = 0 then ⟨[], r nextPCReg + 4⟩
      else quotient r (BitVec.ofInt 32 ((r (rs w)).toInt.tdiv (r (rt w)).toInt))
        (BitVec.ofInt 32 ((r (rs w)).toInt.tmod (r (rt w)).toInt)))
  | .divu =>
    some (if r (rt w) = 0 then ⟨[], r nextPCReg + 4⟩
      else quotient r (BitVec.ofNat 32 ((r (rs w)).toNat / (r (rt w)).toNat))
        (BitVec.ofNat 32 ((r (rs w)).toNat % (r (rt w)).toNat)))
  | .addi | .addiu => some (writeRt w r (r (rs w) + simm w))
  | .slti => some (writeRt w r (if (r (rs w)).toInt < (simm w).toInt then 1 else 0))
  | .sltiu => some (writeRt w r (if (r (rs w)).toNat < (simm w).toNat then 1 else 0))
  | .andi => some (writeRt w r (r (rs w) &&& zimm w))
  | .ori => some (writeRt w r (r (rs w) ||| zimm w))
  | .xori => some (writeRt w r (r (rs w) ^^^ zimm w))
  | .lui => some (writeRt w r (w.extractLsb' 0 16 ++ (0 : BitVec 16)))
  | .beq => some ⟨[], branch w r (r (rs w) = r (rt w))⟩
  | .bne => some ⟨[], branch w r (r (rs w) ≠ r (rt w))⟩
  | .blez => some ⟨[], branch w r ((r (rs w)).toInt ≤ 0)⟩
  | .bgtz => some ⟨[], branch w r (0 < (r (rs w)).toInt)⟩
  | .bltz => some ⟨[], branch w r ((r (rs w)).toInt < 0)⟩
  | .bgez => some ⟨[], branch w r (0 ≤ (r (rs w)).toInt)⟩
  | .bltzal => some ⟨link r retAddrReg, branch w r ((r (rs w)).toInt < 0)⟩
  | .bgezal => some ⟨link r retAddrReg, branch w r (0 ≤ (r (rs w)).toInt)⟩
  | .j => some ⟨[], jump w r⟩
  | .jal => some ⟨link r retAddrReg, jump w r⟩
  | .jr => some ⟨[], r (rs w)⟩
  | .jalr => some ⟨link r (rd w), r (rs w)⟩
  | _ => none

/-- The effect of the instruction word `w` on the registers `r`, if it is one of these. -/
def effect : Option Effect := (mnemonic w).bind (operation w r)

end

/-! ## The simulator's decoding -/

/-- The format of the instructions above. -/
def formatOf : OpCode → Format
  | .j | .jal => .jfmt
  | .beq | .bne | .blez | .bgtz | .bltz | .bgez | .bltzal | .bgezal | .addi | .addiu | .slti
  | .sltiu | .andi | .ori | .xori | .lui => .ifmt
  | _ => .rfmt

/-- The operand of each format. -/
def operand (w : Word) : Format → Word
  | .ifmt => simm w
  | .rfmt => BitVec.ofNat 32 (shamt w)
  | .jfmt => (w.extractLsb' 0 26).setWidth 32

theorem field_eq (w : Word) (pos : ℕ) : (regField w pos).val = (w.extractLsb' pos 5).toNat := by
  show ((w >>> pos) &&& 0x1f#32).toNat = _
  rw [BitVec.toNat_and, BitVec.toNat_ushiftRight, BitVec.extractLsb'_toNat]
  exact Nat.and_two_pow_sub_one_eq_mod _ 5

theorem index_eq (w : Word) : (tableIndex w).val = funct w := by
  show (w &&& 0x3f#32).toNat = _
  rw [BitVec.toNat_and, funct, BitVec.extractLsb'_toNat, Nat.shiftRight_zero]
  exact Nat.and_two_pow_sub_one_eq_mod _ 6

theorem op_eq (w : Word) : (tableIndex (w >>> 26)).val = op w := by
  rw [index_eq, funct, op, BitVec.extractLsb'_toNat, BitVec.extractLsb'_toNat,
    BitVec.toNat_ushiftRight, Nat.shiftRight_zero]

theorem ofNat_and_toNat (x y : Word) : BitVec.ofNat 32 (x &&& y).toNat = x &&& y := by
  rw [BitVec.ofNat_toNat, BitVec.setWidth_eq]

/-- The condition field under its mask. -/
theorem bcond_mask (w : Word) : w &&& (0x1f0000 : Word) = BitVec.ofNat 32 (rt w) <<< 16 := by
  have hfield : BitVec.ofNat 32 (rt w) = (w >>> 16) &&& 0x1f#32 := by
    rw [rt, ← field_eq]
    exact ofNat_and_toNat _ _
  have hlow : ∀ i < 16, (0x1f0000 : Word).getLsbD i = false := by decide
  have hhigh : ∀ i < 32, ¬ i < 16 → (0x1f0000 : Word).getLsbD i = (0x1f#32).getLsbD (i - 16) := by
    decide
  rw [hfield]
  apply BitVec.eq_of_getLsbD_eq
  intro i hi
  rw [BitVec.getLsbD_and, BitVec.getLsbD_shiftLeft, BitVec.getLsbD_and, BitVec.getLsbD_ushiftRight]
  by_cases h16 : i < 16
  · rw [hlow i h16, Bool.and_false, decide_eq_true h16, Bool.not_true, Bool.and_false,
      Bool.false_and]
  · rw [hhigh i hi h16, show 16 + (i - 16) = i by omega, decide_eq_true hi, decide_eq_false h16,
      Bool.not_false, Bool.and_self, Bool.true_and]

theorem rt_lt (w : Word) : rt w < 32 := (w.extractLsb' 16 5).isLt

theorem decodeOp_bcond {w : Word} {o : OpCode} (h : mnemonicBcond (rt w) = some o) :
    decodeOp w .bcond = o := by
  have htable : ∀ k : Fin 32, (mnemonicBcond k.val).all (fun o =>
      decide ((if BitVec.ofNat 32 k.val <<< 16 = (0 : Word) then .bltz
        else if BitVec.ofNat 32 k.val <<< 16 = (0x10000 : Word) then .bgez
        else if BitVec.ofNat 32 k.val <<< 16 = (0x100000 : Word) then .bltzal
        else if BitVec.ofNat 32 k.val <<< 16 = (0x110000 : Word) then .bgezal
        else .unimp) = o)) = true := by
    decide
  have hk := htable ⟨rt w, rt_lt w⟩
  simp only [h, Option.all_some, decide_eq_true_eq] at hk
  show (if w &&& (0x1f0000 : Word) = 0 then OpCode.bltz else _) = o
  rw [bcond_mask]
  exact hk

theorem operand_ifmt (w : Word) : decodeExtra w .ifmt = simm w := by
  have hlow : ∀ i < 32, (0xffff : Word).getLsbD i = decide (i < 16) := by decide
  have hhigh : ∀ i < 32, (0xffff0000 : Word).getLsbD i = !decide (i < 16) := by decide
  have hsign : (w &&& (0xffff : Word) &&& (0x8000 : Word) ≠ 0) ↔ w.getLsbD 15 = true := by
    rw [show (0x8000 : Word) = BitVec.twoPow 32 15 from by decide, BitVec.and_twoPow,
      BitVec.getLsbD_and, hlow 15 (by decide)]
    cases w.getLsbD 15 <;> decide
  have hmsb : (w.extractLsb' 0 16).msb = w.getLsbD 15 := by
    rw [BitVec.msb_eq_getLsbD_last]
    simp
  show (if w &&& (0xffff : Word) &&& (0x8000 : Word) ≠ 0 then w &&& (0xffff : Word) ||| 0xffff0000
    else w &&& (0xffff : Word)) = _
  apply BitVec.eq_of_getLsbD_eq
  intro i hi
  rw [simm, BitVec.getLsbD_signExtend, hmsb, decide_eq_true hi, Bool.true_and]
  cases hs : w.getLsbD 15 with
  | true =>
    rw [if_pos (hsign.mpr hs), BitVec.getLsbD_or, BitVec.getLsbD_and, hlow i hi, hhigh i hi]
    by_cases h16 : i < 16 <;> simp [h16]
  | false =>
    rw [if_neg (fun h => by rw [hsign.mp h] at hs; cases hs), BitVec.getLsbD_and, hlow i hi]
    by_cases h16 : i < 16 <;> simp [h16]

theorem operand_rfmt (w : Word) : decodeExtra w .rfmt = BitVec.ofNat 32 (shamt w) := by
  rw [shamt, ← field_eq]
  exact (ofNat_and_toNat _ _).symm

theorem operand_jfmt (w : Word) : decodeExtra w .jfmt = (w.extractLsb' 0 26).setWidth 32 := by
  apply BitVec.eq_of_toNat_eq
  show (w &&& 0x3ffffff#32).toNat = _
  have hlt : w.toNat % 2 ^ 26 < 2 ^ 32 := lt_trans (Nat.mod_lt _ (by decide)) (by decide)
  rw [BitVec.toNat_and, BitVec.toNat_setWidth, BitVec.extractLsb'_toNat, Nat.shiftRight_zero,
    Nat.mod_eq_of_lt hlt]
  exact Nat.and_two_pow_sub_one_eq_mod _ 26

/-- The simulator decodes the instructions above as the architecture does. -/
theorem decode_mnemonic {w : Word} {o : OpCode} (h : mnemonic w = some o) :
    (decode w).opCode = o ∧ (decode w).extra = operand w (formatOf o) := by
  have hop : ∀ k : Fin 64, (mnemonicOp k.val).all
      (fun o => decide (opTable.get k = (o, formatOf o) ∧ o ≠ .special ∧ o ≠ .bcond)) = true := by
    decide
  have hspecial : ∀ k : Fin 64, (mnemonicSpecial k.val).all
      (fun o => decide (specialTable.get k = o ∧ formatOf o = .rfmt)) = true := by decide
  have hbcond : ∀ k : Fin 32, (mnemonicBcond k.val).all
      (fun o => decide (formatOf o = .ifmt)) = true := by decide
  have hextra : ∀ f, decodeExtra w f = operand w f := by
    intro f
    cases f with
    | ifmt => exact operand_ifmt w
    | rfmt => exact operand_rfmt w
    | jfmt => exact operand_jfmt w
  unfold mnemonic at h
  unfold decode
  dsimp only
  split_ifs at h with h0 h1
  · have hk : tableIndex (w >>> 26) = 0 := Fin.ext ((op_eq w).trans h0)
    have hf := hspecial (tableIndex w)
    rw [index_eq, h, Option.all_some, decide_eq_true_eq] at hf
    rw [hk, hextra, hf.2]
    exact ⟨hf.1, rfl⟩
  · have hk : tableIndex (w >>> 26) = 1 := Fin.ext ((op_eq w).trans h1)
    have hf := hbcond ⟨rt w, rt_lt w⟩
    simp only [h, Option.all_some, decide_eq_true_eq] at hf
    rw [hk, hextra, hf]
    exact ⟨decodeOp_bcond h, rfl⟩
  · have hf := hop (tableIndex (w >>> 26))
    rw [op_eq, h, Option.all_some, decide_eq_true_eq] at hf
    obtain ⟨ht, h₁, h₂⟩ := hf
    rw [ht, hextra]
    refine ⟨?_, rfl⟩
    cases o with
    | special => exact absurd rfl h₁
    | bcond => exact absurd rfl h₂
    | _ => rfl

/-! ## The values -/

theorem simm_and (w : Word) : simm w &&& (0xffff : Word) = zimm w := by
  have hlow : ∀ i < 32, (0xffff : Word).getLsbD i = decide (i < 16) := by decide
  apply BitVec.eq_of_getLsbD_eq
  intro i hi
  rw [simm, zimm, BitVec.getLsbD_and, BitVec.getLsbD_signExtend, BitVec.getLsbD_setWidth,
    hlow i hi]
  by_cases h16 : i < 16 <;> simp [h16, hi]

theorem simm_shift (w : Word) : simm w <<< 16 = w.extractLsb' 0 16 ++ (0 : BitVec 16) := by
  apply BitVec.eq_of_getLsbD_eq
  intro i hi
  rw [simm, BitVec.getLsbD_shiftLeft, BitVec.getLsbD_signExtend, BitVec.getLsbD_append]
  by_cases h16 : i < 16
  · simp [h16]
  · have h32 : i - 16 < 16 := by omega
    have hlt : i - 16 < 32 := by omega
    simp [h16, hi, h32, hlt]

theorem shamt_toNat (w : Word) : (BitVec.ofNat 32 (shamt w)).toNat = shamt w := by
  have hlt : shamt w < 2 ^ 5 := (w.extractLsb' 6 5).isLt
  rw [BitVec.toNat_ofNat, Nat.mod_eq_of_lt (by omega)]

theorem amount_toNat (x : Word) : (x &&& (0x1f : Word)).toNat = x.toNat % 32 := by
  rw [BitVec.toNat_and]
  exact Nat.and_two_pow_sub_one_eq_mod _ 5

theorem slt_ite (a b : Word) :
    (if a.slt b then (1 : Word) else 0) = if a.toInt < b.toInt then 1 else 0 := by
  simp [BitVec.slt]

theorem ult_ite (a b : Word) :
    (if a.ult b then (1 : Word) else 0) = if a.toNat < b.toNat then 1 else 0 := by
  simp [BitVec.ult]

theorem signBit_eq (x : Word) : signBit x = decide (x.toInt < 0) := by
  rw [signBit_eq_msb, BitVec.msb_eq_toInt]

theorem not_signBit_eq (x : Word) : (!signBit x) = decide (0 ≤ x.toInt) := by
  rw [signBit_eq, ← decide_not]
  simp only [Int.not_lt]

theorem branch_eq (w : Word) (r : Registers) (taken : Prop) [Decidable taken] :
    branch w r taken =
      if decide taken then r nextPCReg + indexToAddr (simm w) else r nextPCReg + 4 := by
  simp [branch, indexToAddr]

theorem product_eq {p : Word × Word} {x : BitVec 64} (h : double p.1 p.2 = x.toNat) :
    x.extractLsb' 32 32 = p.1 ∧ x.extractLsb' 0 32 = p.2 :=
  double_injective ((double_extract x).trans h.symm)

theorem multu_toNat (a b : Word) :
    double (mult a b false).1 (mult a b false).2 = (BitVec.ofNat 64 (a.toNat * b.toNat)).toNat := by
  have hlt : a.toNat * b.toNat < 2 ^ 64 := by
    rw [← mult_unsigned]
    exact double_lt _ _
  rw [mult_unsigned, BitVec.toNat_ofNat, Nat.mod_eq_of_lt hlt]

theorem sdiv_ofInt (a b : Word) : a.sdiv b = BitVec.ofInt 32 (a.toInt.tdiv b.toInt) := by
  apply BitVec.eq_of_toInt_eq
  rw [BitVec.toInt_sdiv, BitVec.toInt_ofInt]

theorem srem_ofInt (a b : Word) : a.srem b = BitVec.ofInt 32 (a.toInt.tmod b.toInt) := by
  rw [← BitVec.toInt_srem, BitVec.ofInt_toInt]

theorem udiv_ofNat (a b : Word) : a.udiv b = BitVec.ofNat 32 (a.toNat / b.toNat) := by
  apply BitVec.eq_of_toNat_eq
  rw [BitVec.toNat_ofNat]
  have hlt : a.toNat / b.toNat < 2 ^ 32 := lt_of_le_of_lt (Nat.div_le_self _ _) a.isLt
  rw [Nat.mod_eq_of_lt hlt]
  exact BitVec.toNat_udiv

theorem umod_ofNat (a b : Word) : a.umod b = BitVec.ofNat 32 (a.toNat % b.toNat) := by
  apply BitVec.eq_of_toNat_eq
  rw [BitVec.toNat_ofNat]
  have hlt : a.toNat % b.toNat < 2 ^ 32 := lt_of_le_of_lt (Nat.mod_le _ _) a.isLt
  rw [Nat.mod_eq_of_lt hlt]
  exact BitVec.toNat_umod

end Mips

/-! ## Where the simulator deviates -/

/-- The register receives the result of the instruction: it is neither `R0` nor the target of the
pending delayed load. -/
def Receives (r : Registers) (num : ℕ) : Prop := num ≠ 0 ∧ num ≠ (r loadReg).toNat

/-- The operands on which the simulator computes something else than the architecture. -/
def Instruction.Deviates (i : Instruction) (r : Registers) : Prop :=
  match i.opCode with
  | .or => Receives r i.rd.val ∧ r i.rs.val ||| r i.rt.val ≠ r i.rs.val
  | .srl => Receives r i.rd.val ∧ (r i.rt.val).msb = true ∧ i.extra ≠ 0
  | .srlv => Receives r i.rd.val ∧ (r i.rt.val).msb = true ∧ r i.rs.val &&& 0x1f ≠ 0
  | .j | .jal => (r nextPCReg + 4) &&& 0xf0000000 ≠ r nextPCReg &&& 0xf0000000
  | .jalr => i.rs = i.rd ∧ r i.rs.val ≠ r nextPCReg + 4
  | .bgezal | .bltzal => i.rs.val = retAddrReg ∧
      signBit (r retAddrReg) ≠ signBit (r nextPCReg + 4) ∧ indexToAddr i.extra ≠ 4
  | .div => r i.rs.val = minInt ∧ r i.rt.val = -1
  | _ => False

namespace Mips

open Cpu

/-- The switch writes the registers of `c` and goes to its target; whether these are those of `e`
depends on the operands. -/
structure Runs (i : Instruction) (m : Machine) (e c : Effect) : Prop where
  run : (switch i).run m =
    .done (noLoad c.target) { m with registers := Store.store m.registers c.writes }
  low : ∀ p ∈ c.writes, p.1 < pcReg
  dest : ∀ p ∈ e.writes, p.1 < pcReg
  covered : ∀ k < 32, (∀ p ∈ e.writes, p.1 ≠ k) → ∀ p ∈ c.writes, p.1 ≠ k
  same : (c.target = e.target ∧ ∀ p ∈ e.writes, Receives m.registers p.1 →
    Store.store m.registers c.writes p.1 = p.2) ↔ ¬ i.Deviates m.registers

theorem store_of_nodup {r : Registers} {ws : List (ℕ × Word)} (hn : (ws.map Prod.fst).Nodup)
    {p : ℕ × Word} (hp : p ∈ ws) : Store.store r ws p.1 = p.2 := by
  have hlast : Store.last ws p.1 = some p.2 := by
    refine Store.last_eq_some_of_unique hp fun u hu => ?_
    have := List.inj_on_of_nodup_map hn hu hp rfl
    rw [← this]
  rw [Store.store_apply, hlast, Option.getD_some]

/-- The instructions that do what the architecture defines. -/
theorem Runs.exact {i : Instruction} {m : Machine} {e : Effect} (hdev : ¬ i.Deviates m.registers)
    (hn : (e.writes.map Prod.fst).Nodup) (hlow : ∀ p ∈ e.writes, p.1 < pcReg)
    (hrun : (switch i).run m =
      .done (noLoad e.target) { m with registers := Store.store m.registers e.writes }) :
    Runs i m e e where
  run := hrun
  low := hlow
  dest := hlow
  covered := fun _ _ h => h
  same := by
    refine iff_of_true ⟨rfl, fun p hp _ => ?_⟩ hdev
    exact store_of_nodup hn hp

theorem fin_lt_pcReg (n : Fin 32) : n.val < pcReg := by
  have := n.isLt
  show n.val < 34
  omega

theorem singleton_low {n : ℕ} (hn : n < pcReg) (v : Word) : ∀ p ∈ [(n, v)], p.1 < pcReg := by
  intro p hp
  rw [List.mem_singleton.mp hp]
  exact hn

theorem Runs.exact_one {i : Instruction} {m : Machine} {e : Effect} {n : Fin 32} {value : Word}
    (hdev : ¬ i.Deviates m.registers) (he : e.writes = [(n.val, value)])
    (hrun : (switch i).run m =
      .done (noLoad e.target) { m with registers := Store.store m.registers e.writes }) :
    Runs i m e e := by
  refine Runs.exact hdev ?_ ?_ hrun
  · rw [he]
    exact List.nodup_singleton _
  · rw [he]
    exact singleton_low (fin_lt_pcReg n) value

theorem Runs.exact_none {i : Instruction} {m : Machine} {e : Effect}
    (hdev : ¬ i.Deviates m.registers) (he : e.writes = [])
    (hrun : (switch i).run m =
      .done (noLoad e.target) { m with registers := Store.store m.registers e.writes }) :
    Runs i m e e := by
  refine Runs.exact hdev ?_ ?_ hrun
  · rw [he]
    exact List.nodup_nil
  · rw [he]
    exact nofun

/-- One register receives another value. -/
theorem Runs.value {i : Instruction} {m : Machine} {n : Fin 32} {u v target : Word}
    (hdev : i.Deviates m.registers ↔ Receives m.registers n.val ∧ u ≠ v)
    (hrun : (switch i).run m =
      .done (noLoad target) { m with registers := Store.store m.registers [(n.val, u)] }) :
    Runs i m ⟨[(n.val, v)], target⟩ ⟨[(n.val, u)], target⟩ where
  run := hrun
  low := singleton_low (fin_lt_pcReg n) u
  dest := singleton_low (fin_lt_pcReg n) v
  covered := by
    intro k _ h p hp
    rw [List.mem_singleton.mp hp]
    exact h (n.val, v) List.mem_cons_self
  same := by
    have hstore : Store.store m.registers [(n.val, u)] n.val = u := Function.update_self ..
    rw [hdev, not_and_not_right]
    constructor
    · rintro ⟨-, h⟩ hrec
      exact hstore.symm.trans (h _ List.mem_cons_self hrec)
    · intro h
      refine ⟨rfl, fun p hp hrec => ?_⟩
      rw [List.mem_singleton.mp hp] at hrec ⊢
      exact hstore.trans (h hrec)

/-- The instruction goes to another target. -/
theorem Runs.target {i : Instruction} {m : Machine} {ws : List (ℕ × Word)} {target target' : Word}
    (hdev : i.Deviates m.registers ↔ target' ≠ target) (hn : (ws.map Prod.fst).Nodup)
    (hlow : ∀ p ∈ ws, p.1 < pcReg) (hrun : (switch i).run m =
      .done (noLoad target') { m with registers := Store.store m.registers ws }) :
    Runs i m ⟨ws, target⟩ ⟨ws, target'⟩ where
  run := hrun
  low := hlow
  dest := hlow
  covered := fun _ _ h => h
  same := by
    rw [hdev, not_not]
    exact ⟨And.left, fun h => ⟨h, fun p hp _ => store_of_nodup hn hp⟩⟩

/-- A logical and an arithmetic shift differ exactly on negative words. -/
theorem sshiftRight_ne_iff (x : Word) {n : ℕ} (hn : n < 32) :
    x.sshiftRight n ≠ x >>> n ↔ x.msb = true ∧ n ≠ 0 := by
  constructor
  · intro hne
    refine ⟨?_, ?_⟩
    · by_contra hm
      exact hne (BitVec.sshiftRight_eq_of_msb_false (Bool.not_eq_true _ ▸ hm))
    · rintro rfl
      exact hne (by rw [BitVec.sshiftRight_zero, BitVec.ushiftRight_zero])
  · rintro ⟨hm, h0⟩ heq
    have hbit := congrArg BitVec.msb heq
    rw [BitVec.msb_sshiftRight, hm, BitVec.msb_eq_getLsbD_last, BitVec.getLsbD_ushiftRight,
      BitVec.getLsbD_of_ge _ _ (by omega)] at hbit
    cases hbit

theorem region_mask : ∀ i < 32, (0xf0000000 : Word).getLsbD i = decide (28 ≤ i) := by decide

/-- The two parts of a jump target, bit by bit. -/
theorem getLsbD_jump (x : Word) (t : BitVec 26) {i : ℕ} (hi : i < 32) :
    ((x &&& (0xf0000000 : Word)) ||| indexToAddr (t.setWidth 32)).getLsbD i =
      if 28 ≤ i then x.getLsbD i else !decide (i < 2) && t.getLsbD (i - 2) := by
  rw [indexToAddr, BitVec.getLsbD_or, BitVec.getLsbD_and, region_mask i hi,
    BitVec.getLsbD_shiftLeft, BitVec.getLsbD_setWidth]
  by_cases h28 : 28 ≤ i
  · have hout : t.getLsbD (i - 2) = false := BitVec.getLsbD_of_ge _ _ (by omega)
    simp [h28, hout]
  · have hlt : i - 2 < 32 := by omega
    simp [h28, hi, hlt]

theorem jump_eq (w : Word) (r : Registers) :
    jump w r =
      (r nextPCReg &&& (0xf0000000 : Word)) ||| indexToAddr ((w.extractLsb' 0 26).setWidth 32) := by
  apply BitVec.eq_of_getLsbD_eq
  intro i hi
  rw [getLsbD_jump _ _ hi, jump, BitVec.getLsbD_append, BitVec.getLsbD_append]
  by_cases h2 : i < 2
  · have h28 : ¬ 28 ≤ i := by omega
    simp [h2, h28]
  · by_cases h28 : 28 ≤ i
    · have h26 : ¬ i - 2 < 26 := by omega
      have h4 : i - 2 - 26 < 4 := by omega
      simp only [h2, h26, h28, if_true, if_false, BitVec.getLsbD_extractLsb', h4, decide_true,
        Bool.true_and]
      congr 1
      omega
    · have h26 : i - 2 < 26 := by omega
      simp only [h2, h26, h28, if_true, if_false, decide_false, Bool.not_false, Bool.true_and]

/-- The code takes the region of the instruction after the delay slot. -/
theorem jump_ne_iff (x y : Word) (t : BitVec 26) :
    (x &&& (0xf0000000 : Word)) ||| indexToAddr (t.setWidth 32) ≠
      (y &&& (0xf0000000 : Word)) ||| indexToAddr (t.setWidth 32) ↔
      x &&& (0xf0000000 : Word) ≠ y &&& (0xf0000000 : Word) := by
  refine not_congr ⟨fun h => ?_, fun h => by rw [h]⟩
  apply BitVec.eq_of_getLsbD_eq
  intro i hi
  have hbit := congrArg (BitVec.getLsbD · i) h
  simp only [getLsbD_jump _ _ hi] at hbit
  rw [BitVec.getLsbD_and, BitVec.getLsbD_and, region_mask i hi]
  by_cases h28 : 28 ≤ i
  · rw [if_pos h28, if_pos h28] at hbit
    rw [hbit]
  · rw [decide_eq_false h28, Bool.and_false, Bool.and_false]

section Switch

variable {w : Word} {m : Machine} {e : Effect} {a b d : Fin 32} {x : Word}

theorem pair_nodup {k n : ℕ} (h : k ≠ n) (u v : Word) : ([(k, u), (n, v)].map Prod.fst).Nodup := by
  simpa using h

theorem pair_low {k n : ℕ} (hk : k < pcReg) (hn : n < pcReg) (u v : Word) :
    ∀ p ∈ [(k, u), (n, v)], p.1 < pcReg := by
  intro p hp
  rcases List.mem_cons.mp hp with rfl | hp
  · exact hk
  · exact singleton_low hn v p hp

/-- Two branches with the same target agree unless only one is taken. -/
theorem branch_ne_iff (n target : Word) (c c' : Bool) :
    (if c' then n + target else n + 4) ≠ (if c then n + target else n + 4) ↔
      c ≠ c' ∧ target ≠ 4 := by
  cases c <;> cases c' <;> simp [eq_comm]

/-- The linking branches test `rs` after the link. -/
theorem linked_branch_iff (r : Registers) (target : Word) (f : Bool → Bool)
    (hf : ∀ c c', f c ≠ f c' ↔ c ≠ c') :
    (a.val = retAddrReg ∧ signBit (r retAddrReg) ≠ signBit (r nextPCReg + 4) ∧ target ≠ 4) ↔
      (if f (signBit ((r.write retAddrReg (r nextPCReg + 4)) a.val)) then r nextPCReg + target
        else r nextPCReg + 4) ≠
      if f (signBit (r a.val)) then r nextPCReg + target else r nextPCReg + 4 := by
  rw [branch_ne_iff, hf]
  by_cases ha : a.val = retAddrReg
  · rw [ha, Registers.write_self]
    exact and_iff_right rfl
  · rw [Registers.write_of_ne ha]
    exact iff_of_false (fun h => ha h.1) (fun h => h.1 rfl)

/-- A division by zero: the architecture leaves `HI` and `LO` undefined. -/
theorem Runs.undefined {i : Instruction} {target : Word} (hdev : ¬ i.Deviates m.registers)
    (hrun : (switch i).run m = .done (noLoad target)
      { m with registers := Store.store m.registers [(loReg, 0), (hiReg, 0)] }) :
    Runs i m ⟨[], target⟩ ⟨[(loReg, 0), (hiReg, 0)], target⟩ where
  run := hrun
  low := pair_low (by decide) (by decide) 0 0
  dest := nofun
  covered := by
    intro k hk _ p hp
    rcases List.mem_cons.mp hp with rfl | hp
    · show 33 ≠ k
      omega
    · rw [List.mem_singleton.mp hp]
      show 32 ≠ k
      omega
  same := iff_of_true ⟨rfl, nofun⟩ hdev

/-- A sum that may overflow. -/
theorem overflow_or {i : Instruction} {c : Bool} {y : Cpu Next}
    (hrun : (switch i).run m = (if c then Cpu.raise .overflowException 0 else y).run m)
    (hy : (switch i).run m = y.run m → ∃ c, Runs i m e c) :
    (switch i).run m = m.raiseException .overflowException 0 ∨
    ((switch i).run m = .crashed .divisionTrap m ∧ i.Deviates m.registers) ∨ ∃ c, Runs i m e c := by
  cases c with
  | true => exact .inl hrun
  | false => exact .inr (.inr (hy hrun))

/-- The switch, case by case: an overflow, the division the host refuses, or a run. -/
theorem switch_cases {o : OpCode} (hrs : a.val = rs w) (hrt : b.val = rt w) (hrd : d.val = rd w)
    (hx : x = operand w (formatOf o)) (he : operation w m.registers o = some e) :
    (switch ⟨o, a, b, d, x⟩).run m = m.raiseException .overflowException 0 ∨
    ((switch ⟨o, a, b, d, x⟩).run m = .crashed .divisionTrap m ∧
      Instruction.Deviates ⟨o, a, b, d, x⟩ m.registers) ∨
    ∃ c, Runs ⟨o, a, b, d, x⟩ m e c := by
  cases o with
  | addu | subu | and | xor | nor | mfhi | mflo =>
    simp only [operation, writeRd, ← hrs, ← hrt, ← hrd, Option.some.injEq] at he
    subst he
    exact .inr (.inr ⟨_, .exact_one (n := d) id rfl rfl⟩)
  | slt =>
    simp only [operation, writeRd, ← hrs, ← hrt, ← hrd, Option.some.injEq, ← slt_ite] at he
    subst he
    exact .inr (.inr ⟨_, .exact_one (n := d) id rfl rfl⟩)
  | sltu =>
    simp only [operation, writeRd, ← hrs, ← hrt, ← hrd, Option.some.injEq, ← ult_ite] at he
    subst he
    exact .inr (.inr ⟨_, .exact_one (n := d) id rfl rfl⟩)
  | sll | sra =>
    have hamount : x.toNat = shamt w := by
      rw [hx]
      exact shamt_toNat w
    simp only [operation, writeRd, ← hrt, ← hrd, Option.some.injEq, ← hamount] at he
    subst he
    exact .inr (.inr ⟨_, .exact_one (n := d) id rfl rfl⟩)
  | sllv | srav =>
    simp only [operation, writeRd, ← hrs, ← hrt, ← hrd, Option.some.injEq, ← amount_toNat] at he
    subst he
    exact .inr (.inr ⟨_, .exact_one (n := d) id rfl rfl⟩)
  | mthi | mtlo =>
    simp only [operation, ← hrs, Option.some.injEq] at he
    subst he
    exact .inr (.inr ⟨_, .exact id (List.nodup_singleton _) (singleton_low (by decide) _) rfl⟩)
  | addiu =>
    simp only [operation, writeRt, ← hrs, ← hrt, Option.some.injEq] at he
    subst he
    exact .inr (.inr ⟨_, .exact_one (n := b) id rfl (by rw [hx]; rfl)⟩)
  | andi | ori | xori =>
    simp only [operation, writeRt, ← hrs, ← hrt, Option.some.injEq, ← simm_and] at he
    subst he
    exact .inr (.inr ⟨_, .exact_one (n := b) id rfl (by rw [hx]; rfl)⟩)
  | lui =>
    simp only [operation, writeRt, ← hrt, Option.some.injEq, ← simm_shift] at he
    subst he
    exact .inr (.inr ⟨_, .exact_one (n := b) id rfl (by rw [hx]; rfl)⟩)
  | slti =>
    simp only [operation, writeRt, ← hrs, ← hrt, Option.some.injEq, ← slt_ite] at he
    subst he
    exact .inr (.inr ⟨_, .exact_one (n := b) id rfl (by rw [hx]; rfl)⟩)
  | sltiu =>
    simp only [operation, writeRt, ← hrs, ← hrt, Option.some.injEq, ← ult_ite] at he
    subst he
    exact .inr (.inr ⟨_, .exact_one (n := b) id rfl (by rw [hx]; rfl)⟩)
  | beq | blez | bgtz =>
    simp only [operation, ← hrs, ← hrt, Option.some.injEq, branch_eq] at he
    subst he
    exact .inr (.inr ⟨_, .exact_none id rfl (by rw [hx]; rfl)⟩)
  | bne =>
    simp only [operation, ← hrs, ← hrt, Option.some.injEq, branch_eq, ne_eq, decide_not] at he
    subst he
    exact .inr (.inr ⟨_, .exact_none id rfl (by rw [hx]; rfl)⟩)
  | bltz =>
    simp only [operation, ← hrs, Option.some.injEq, branch_eq, ← signBit_eq] at he
    subst he
    exact .inr (.inr ⟨_, .exact_none id rfl (by rw [hx]; rfl)⟩)
  | bgez =>
    simp only [operation, ← hrs, Option.some.injEq, branch_eq, ← not_signBit_eq] at he
    subst he
    exact .inr (.inr ⟨_, .exact_none id rfl (by rw [hx]; rfl)⟩)
  | jr =>
    simp only [operation, ← hrs, Option.some.injEq] at he
    subst he
    exact .inr (.inr ⟨_, .exact_none id rfl rfl⟩)
  | add =>
    simp only [operation, writeRd, ← hrs, ← hrt, ← hrd, Option.some.injEq] at he
    subst he
    exact overflow_or rfl fun hrun => ⟨_, .exact_one (n := d) id rfl hrun⟩
  | sub =>
    simp only [operation, writeRd, ← hrs, ← hrt, ← hrd, Option.some.injEq] at he
    subst he
    exact overflow_or rfl fun hrun => ⟨_, .exact_one (n := d) id rfl hrun⟩
  | addi =>
    simp only [operation, writeRt, ← hrs, ← hrt, Option.some.injEq] at he
    have hx' : x = simm w := hx
    rw [← hx'] at he
    subst he
    exact overflow_or rfl fun hrun => ⟨_, .exact_one (n := b) id rfl hrun⟩
  | mult =>
    obtain ⟨hhi, hlo⟩ := product_eq (mult_signed (m.registers a.val) (m.registers b.val))
    simp only [operation, product, ← hrs, ← hrt, Option.some.injEq, hhi, hlo] at he
    subst he
    exact .inr (.inr ⟨_, .exact id (pair_nodup (by decide) _ _) (pair_low (by decide) (by decide) _ _)
      rfl⟩)
  | multu =>
    obtain ⟨hhi, hlo⟩ := product_eq (multu_toNat (m.registers a.val) (m.registers b.val))
    simp only [operation, product, ← hrs, ← hrt, Option.some.injEq, hhi, hlo] at he
    subst he
    exact .inr (.inr ⟨_, .exact id (pair_nodup (by decide) _ _) (pair_low (by decide) (by decide) _ _)
      rfl⟩)
  | or =>
    simp only [operation, writeRd, ← hrs, ← hrt, ← hrd, Option.some.injEq] at he
    subst he
    refine .inr (.inr ⟨_, .value (n := d) (u := m.registers a.val ||| m.registers a.val) ?_ rfl⟩)
    rw [BitVec.or_self]
    exact and_congr_right fun _ => ne_comm
  | srl =>
    have hamount : x.toNat = shamt w := by
      rw [hx]
      exact shamt_toNat w
    have hlt : shamt w < 32 := (w.extractLsb' 6 5).isLt
    simp only [operation, writeRd, ← hrt, ← hrd, Option.some.injEq, ← hamount] at he
    subst he
    refine .inr (.inr ⟨_, .value (n := d) (u := (m.registers b.val).sshiftRight x.toNat) ?_ rfl⟩)
    rw [sshiftRight_ne_iff _ (by omega)]
    show _ ∧ _ ∧ x ≠ 0 ↔ _
    rw [ne_eq, ← BitVec.toNat_inj]
    exact Iff.rfl
  | srlv =>
    simp only [operation, writeRd, ← hrs, ← hrt, ← hrd, Option.some.injEq, ← amount_toNat] at he
    subst he
    refine .inr (.inr ⟨_, .value (n := d) (u := (m.registers b.val).sshiftRight
      (m.registers a.val &&& (0x1f : Word)).toNat) ?_ rfl⟩)
    have hlt : (m.registers a.val &&& (0x1f : Word)).toNat < 32 := by
      rw [amount_toNat]
      exact Nat.mod_lt _ (by decide)
    rw [sshiftRight_ne_iff _ hlt]
    show _ ∧ _ ∧ m.registers a.val &&& (0x1f : Word) ≠ 0 ↔ _
    rw [ne_eq, ← BitVec.toNat_inj]
    exact Iff.rfl
  | j =>
    simp only [operation, Option.some.injEq, jump_eq] at he
    subst he
    have hx' : x = (w.extractLsb' 0 26).setWidth 32 := hx
    subst hx'
    exact .inr (.inr ⟨_, .target (jump_ne_iff _ _ _).symm List.nodup_nil nofun rfl⟩)
  | jal =>
    simp only [operation, link, Option.some.injEq, jump_eq] at he
    subst he
    have hx' : x = (w.extractLsb' 0 26).setWidth 32 := hx
    subst hx'
    exact .inr (.inr ⟨_, .target (jump_ne_iff _ _ _).symm (List.nodup_singleton _)
      (singleton_low (by decide) _) rfl⟩)
  | jalr =>
    simp only [operation, link, ← hrs, ← hrd, Option.some.injEq] at he
    subst he
    refine .inr (.inr ⟨_, .target ?_ (List.nodup_singleton _) (singleton_low (fin_lt_pcReg d) _)
      rfl⟩)
    show a = d ∧ m.registers a.val ≠ m.registers nextPCReg + 4 ↔
      (m.registers.write d.val (m.registers nextPCReg + 4)) a.val ≠ m.registers a.val
    by_cases had : a = d
    · rw [had, Registers.write_self]
      exact ⟨fun h => h.2.symm, fun h => ⟨rfl, h.symm⟩⟩
    · rw [Registers.write_of_ne (fun h => had (Fin.ext h))]
      exact iff_of_false (fun h => had h.1) (fun h => h rfl)
  | bgezal =>
    simp only [operation, link, ← hrs, Option.some.injEq, branch_eq, ← not_signBit_eq] at he
    subst he
    have hx' : x = simm w := hx
    subst hx'
    exact .inr (.inr ⟨_, .target (linked_branch_iff _ _ (!·) (by decide)) (List.nodup_singleton _)
      (singleton_low (by decide) _) rfl⟩)
  | bltzal =>
    simp only [operation, link, ← hrs, Option.some.injEq, branch_eq, ← signBit_eq] at he
    subst he
    have hx' : x = simm w := hx
    subst hx'
    exact .inr (.inr ⟨_, .target (linked_branch_iff _ _ id (by decide)) (List.nodup_singleton _)
      (singleton_low (by decide) _) rfl⟩)
  | div =>
    simp only [operation, quotient, ← hrs, ← hrt, Option.some.injEq, ← sdiv_ofInt, ← srem_ofInt] at he
    subst he
    by_cases h0 : m.registers b.val = 0
    · rw [if_pos h0]
      refine .inr (.inr ⟨_, .undefined ?_ ?_⟩)
      · rintro ⟨-, h⟩
        have h' : m.registers b.val = -1 := h
        rw [h0] at h'
        exact absurd h' (by decide)
      · show (if m.registers b.val = 0 then _ else _ : Cpu Next).run m = _
        rw [if_pos h0]
        rfl
    · rw [if_neg h0]
      by_cases htrap : m.registers a.val = minInt ∧ m.registers b.val = -1
      · refine .inr (.inl ⟨?_, htrap⟩)
        show (if m.registers b.val = 0 then _ else if _ then _ else _ : Cpu Next).run m = _
        rw [if_neg h0, if_pos htrap]
        rfl
      · refine .inr (.inr ⟨_, .exact htrap (pair_nodup (by decide) _ _)
          (pair_low (by decide) (by decide) _ _) ?_⟩)
        show (if m.registers b.val = 0 then _ else if _ then _ else _ : Cpu Next).run m = _
        rw [if_neg h0, if_neg htrap]
        rfl
  | divu =>
    simp only [operation, quotient, ← hrs, ← hrt, Option.some.injEq, ← udiv_ofNat, ← umod_ofNat] at he
    subst he
    by_cases h0 : m.registers b.val = 0
    · rw [if_pos h0]
      refine .inr (.inr ⟨_, .undefined id ?_⟩)
      show (if m.registers b.val = 0 then _ else _ : Cpu Next).run m = _
      rw [if_pos h0]
      rfl
    · rw [if_neg h0]
      refine .inr (.inr ⟨_, .exact id (pair_nodup (by decide) _ _)
        (pair_low (by decide) (by decide) _ _) ?_⟩)
      show (if m.registers b.val = 0 then _ else _ : Cpu Next).run m = _
      rw [if_neg h0]
      rfl
  | _ => cases he

end Switch

/-! ## The whole instruction -/

/-- The registers after an instruction are those the architecture defines: its destinations hold
their values, the target of the pending delayed load holds the loaded value, no other general
register has changed, and `NextPCReg` is the address after the delay slot. -/
structure Agrees (e : Effect) (r r' : Registers) : Prop where
  written : ∀ p ∈ e.writes, p.1 ≠ 0 → r' p.1 = p.2
  others : ∀ k < 32, k ≠ 0 → (∀ p ∈ e.writes, p.1 ≠ k) →
    r' k = if k = (r loadReg).toNat then r loadValueReg else r k
  zero : r' 0 = 0
  target : r' nextPCReg = e.target

/-- The pending delayed load does not overwrite the result of the instruction. -/
def LoadsAside (e : Effect) (r : Registers) : Prop :=
  ∀ p ∈ e.writes, p.1 ≠ 0 → p.1 = (r loadReg).toNat → r loadValueReg = p.2

/-- The registers after `advance`. -/
def advanced (r : Registers) (pcAfter : Word) : Registers :=
  let d := (((r.write (r loadReg).toNat (r loadValueReg)).write loadReg 0).write
    loadValueReg 0).write 0 0
  ((d.write prevPCReg (d pcReg)).write pcReg (d nextPCReg)).write nextPCReg pcAfter

theorem run_advance {m : Machine} (hl : (m.registers loadReg).toNat < numTotalRegs)
    (pcAfter : Word) : (advance (noLoad pcAfter)).run m =
      .done () { m with registers := advanced m.registers pcAfter } := by
  have hload : m.registers.delayedLoad 0 0 = some ((((m.registers.write
      (m.registers loadReg).toNat (m.registers loadValueReg)).write loadReg 0).write
        loadValueReg 0).write 0 0) := if_pos hl
  simp only [advance, doDelayedLoad, noLoad, run_bind, run]
  rw [hload]
  rfl

theorem run_advance_crashed {m : Machine} (hl : ¬ (m.registers loadReg).toNat < numTotalRegs)
    (next : Next) : (advance next).run m = .crashed .outOfBounds m := by
  have hload : m.registers.delayedLoad next.nextLoadReg next.nextLoadValue = none := if_neg hl
  simp only [advance, doDelayedLoad, run_bind, run]
  rw [hload]
  rfl

theorem advanced_apply (r : Registers) (pcAfter : Word) {k : ℕ} (hk : k < pcReg) :
    advanced r pcAfter k =
      if k = 0 then 0 else if k = (r loadReg).toNat then r loadValueReg else r k := by
  have hk' : k < 34 := hk
  unfold advanced
  rw [Registers.write_of_ne (show k ≠ 35 by omega), Registers.write_of_ne (show k ≠ 34 by omega),
    Registers.write_of_ne (show k ≠ 36 by omega)]
  split_ifs with h0 hl
  · rw [h0, Registers.write_self]
  · rw [Registers.write_of_ne h0, Registers.write_of_ne (show k ≠ 38 by omega),
      Registers.write_of_ne (show k ≠ 37 by omega), hl, Registers.write_self]
  · rw [Registers.write_of_ne h0, Registers.write_of_ne (show k ≠ 38 by omega),
      Registers.write_of_ne (show k ≠ 37 by omega), Registers.write_of_ne hl]

/-- When the result of the switch is the one the architecture defines. -/
theorem Runs.agrees_iff_same {i : Instruction} {m : Machine} {e c : Effect} (h : Runs i m e c) :
    Agrees e m.registers (advanced (Store.store m.registers c.writes) c.target) ↔
      LoadsAside e m.registers ∧ ¬ i.Deviates m.registers := by
  have hkeep : ∀ k, pcReg ≤ k → Store.store m.registers c.writes k = m.registers k :=
    fun k hk => Store.store_of_forall_ne fun p hp => by
      have := h.low p hp
      omega
  have happly : ∀ k < pcReg, advanced (Store.store m.registers c.writes) c.target k =
      if k = 0 then 0 else if k = (m.registers loadReg).toNat then m.registers loadValueReg
        else Store.store m.registers c.writes k := fun k hk => by
    rw [advanced_apply _ _ hk, hkeep loadReg (by decide), hkeep loadValueReg (by decide)]
  rw [← h.same]
  constructor
  · intro ha
    refine ⟨fun p hp h0 hl => ?_, ha.target, fun p hp hrec => ?_⟩
    · have hw := ha.written p hp h0
      rwa [happly _ (h.dest p hp), if_neg h0, if_pos hl] at hw
    · have hw := ha.written p hp hrec.1
      rwa [happly _ (h.dest p hp), if_neg hrec.1, if_neg hrec.2] at hw
  · rintro ⟨haside, htarget, hvalue⟩
    refine ⟨fun p hp h0 => ?_, fun k hk h0 hne => ?_, happly 0 (by decide), htarget⟩
    · rw [happly _ (h.dest p hp), if_neg h0]
      by_cases hl : p.1 = (m.registers loadReg).toNat
      · rw [if_pos hl]
        exact haside p hp h0 hl
      · rw [if_neg hl]
        exact hvalue p hp ⟨h0, hl⟩
    · rw [happly k (lt_trans hk (by decide)), if_neg h0,
        Store.store_of_forall_ne (h.covered k hk hne)]

theorem execute_eq {debug : Bool} {i : Instruction} (h₁ : i.opCode ≠ .special)
    (h₂ : i.opCode ≠ .bcond) (m : Machine) :
    (execute debug i).run m = ((switch i).run m).bind fun next m' => (advance next).run m' := by
  rw [← run_bind, execute, if_neg (by rintro ⟨-, h | h⟩; exacts [h₁ h, h₂ h])]

/-- **The simulator and the architecture.** Where no exception is raised, an instruction does what
the MIPS R2000 defines exactly if `LoadReg` names a register, the pending delayed load does not
overwrite its result, and the operands are not among those on which the simulator deviates. -/
theorem agrees_iff (debug : Bool) {m : Machine} {raw : Word} {pageTable : List TranslationEntry}
    {e : Effect}
    (hfetch : readMem m.mainMemory m.pageTable (m.registers pcReg) 4 = .ok (raw, pageTable))
    (he : effect raw m.registers = some e)
    (hno : ∀ which m', (oneInstruction debug).run m ≠ .raised which m') :
    (∃ m', (oneInstruction debug).run m = .done () m' ∧ Agrees e m.registers m'.registers) ↔
      (m.registers loadReg).toNat < numTotalRegs ∧ LoadsAside e m.registers ∧
        ¬ (decode raw).Deviates m.registers := by
  obtain ⟨o, hmnem, hoper⟩ := Option.bind_eq_some_iff.mp he
  obtain ⟨hop, hextra⟩ := decode_mnemonic hmnem
  obtain ⟨-, hspecial, hbcond⟩ := decode_opCode raw
  -- the machine after the fetch
  have hrun : (oneInstruction debug).run m =
      ((switch (decode raw)).run (m.afterRead (m.registers pcReg) 4 pageTable)).bind
        fun next m' => (advance next).run m' := by
    rcases fetch_cases debug m with ⟨which, hfetch', -⟩ | ⟨raw', t', hfetch', hrun⟩
    · rw [hfetch] at hfetch'
      cases hfetch'
    · rw [hfetch] at hfetch'
      cases hfetch'
      rw [hrun, execute_eq hspecial hbcond]
  have hcases := switch_cases (m := m.afterRead (m.registers pcReg) 4 pageTable)
    (field_eq raw 21) (field_eq raw 16) (field_eq raw 11) hextra hoper
  rw [← hop] at hcases
  rw [hrun] at hno ⊢
  rcases hcases with hraise | ⟨hcrash, hdev⟩ | ⟨c, hc⟩
  · -- the overflow reaches the handler, unless the delayed load has no register
    have hraise' : (switch (decode raw)).run (m.afterRead (m.registers pcReg) 4 pageTable) =
        (m.afterRead (m.registers pcReg) 4 pageTable).raiseException .overflowException 0 := hraise
    rw [hraise', raiseException_bind] at hno ⊢
    unfold Machine.raiseException at hno ⊢
    cases hentry : (m.afterRead (m.registers pcReg) 4 pageTable).registers.atEntry 0 with
    | some r =>
      rw [hentry] at hno
      exact absurd rfl (hno _ _)
    | none =>
      refine iff_of_false (by rintro ⟨m', h, -⟩; cases h) fun h => ?_
      exact atEntry_ne_none h.1 0 hentry
  · have hcrash' : (switch (decode raw)).run (m.afterRead (m.registers pcReg) 4 pageTable) =
        .crashed .divisionTrap (m.afterRead (m.registers pcReg) 4 pageTable) := hcrash
    rw [hcrash']
    exact iff_of_false (by rintro ⟨m', h, -⟩; cases h) fun h => h.2.2 hdev
  · have hc' : Runs (decode raw) (m.afterRead (m.registers pcReg) 4 pageTable) e c := hc
    have hkeep : Store.store m.registers c.writes loadReg = m.registers loadReg :=
      Store.store_of_forall_ne fun p hp => by
        have hlow : p.1 < 34 := hc.low p hp
        show p.1 ≠ 37
        omega
    rw [hc'.run]
    simp only [Result.bind]
    by_cases hl : (m.registers loadReg).toNat < numTotalRegs
    · rw [run_advance (by rw [← hkeep] at hl; exact hl)]
      constructor
      · rintro ⟨m', h, ha⟩
        cases h
        exact ⟨hl, hc'.agrees_iff_same.mp ha⟩
      · rintro ⟨-, h⟩
        exact ⟨_, rfl, hc'.agrees_iff_same.mpr h⟩
    · rw [run_advance_crashed (by rw [← hkeep] at hl; exact hl)]
      exact iff_of_false (by rintro ⟨m', h, -⟩; cases h) fun h => hl h.1

/-- A machine at the instruction `raw`, with 1 in `r1` and 2 in `r2`. -/
def machineAt (raw : Word) : Machine where
  registers := ((Registers.write (fun _ => 0) 1 1).write 2 2).write nextPCReg 4
  mainMemory := wordsMemory [raw]
  pageTable := onePage
  accesses := []

/-- `addu r3,r1,r2` -/
theorem agrees_iff_addu :
    ∃ m', (oneInstruction false).run (machineAt 0x00221821) = .done () m' ∧ m'.registers 3 = 3 := by
  have hrun : ∃ m', (oneInstruction false).run (machineAt 0x00221821) = .done () m' := ⟨_, rfl⟩
  have hfetch : ∃ t, readMem (machineAt 0x00221821).mainMemory (machineAt 0x00221821).pageTable
      ((machineAt 0x00221821).registers pcReg) 4 = .ok (0x00221821#32, t) := ⟨_, rfl⟩
  obtain ⟨m₁, hrun⟩ := hrun
  obtain ⟨t, hfetch⟩ := hfetch
  have haside : LoadsAside ⟨[(3, 3)], 8⟩ (machineAt 0x00221821).registers := by
    intro p hp _ hl
    rw [List.mem_singleton.mp hp] at hl
    exact absurd hl (by decide)
  obtain ⟨m', hm', ha⟩ := (agrees_iff false hfetch (e := ⟨[(3, 3)], 8⟩) (by decide)
    (by rw [hrun]; exact nofun)).mpr ⟨by decide, haside, id⟩
  exact ⟨m', hm', ha.written (3, 3) (by decide) (by decide)⟩

/-- `or r3,r1,r2` leaves 1 in `r3`. -/
theorem not_agrees_or : ¬ ∀ (debug : Bool) (m : Machine) (raw : Word)
    (pageTable : List TranslationEntry) (e : Effect), m.registers 0 = 0 →
    readMem m.mainMemory m.pageTable (m.registers pcReg) 4 = .ok (raw, pageTable) →
    effect raw m.registers = some e →
    (∀ which m', (oneInstruction debug).run m ≠ .raised which m') →
    ∃ m', (oneInstruction debug).run m = .done () m' ∧ Agrees e m.registers m'.registers := by
  intro hall
  have hrun : ∃ m', (oneInstruction false).run (machineAt 0x00221825) = .done () m' := ⟨_, rfl⟩
  have hfetch : ∃ t, readMem (machineAt 0x00221825).mainMemory (machineAt 0x00221825).pageTable
      ((machineAt 0x00221825).registers pcReg) 4 = .ok (0x00221825#32, t) := ⟨_, rfl⟩
  obtain ⟨m₁, hrun⟩ := hrun
  obtain ⟨t, hfetch⟩ := hfetch
  have hthree : m₁.registers 3 = 1 := by
    have h : ((oneInstruction false).run (machineAt 0x00221825)).machine.map (·.registers 3) =
        some 1 := rfl
    rw [hrun] at h
    exact Option.some.inj h
  obtain ⟨m', hm', ha⟩ := hall false (machineAt 0x00221825) 0x00221825#32 t ⟨[(3, 3)], 8⟩ rfl
    hfetch (by decide) (by rw [hrun]; exact nofun)
  rw [hrun] at hm'
  cases hm'
  have hw := ha.written (3, 3) (by decide) (by decide)
  rw [hthree] at hw
  exact absurd hw (by decide)

end Mips

end Nachos
