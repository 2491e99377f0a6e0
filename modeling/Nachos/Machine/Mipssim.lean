import Mathlib.Data.Vector.Basic
import Nachos.Machine.Cpu

/-!
# The MIPS simulator, `mipssim.cc` and `mipssim.h`

`Decode` with its two tables, `Mult`, and `OneInstruction` with every case of its switch. An `int`
is a 32-bit word: sums wrap, `>>` of an `int` shifts in the sign and `>>` of an `unsigned` zeros.
The simulated and the host byte order agree.
-/

namespace Nachos

/-! ## Instructions -/

/-- The `OP_` constants, and the two marks of `opTable` for further decoding. -/
inductive OpCode where
  | add | addi | addiu | addu | and | andi
  | beq | bgez | bgezal | bgtz | blez | bltz | bltzal | bne
  | div | divu | j | jal | jalr | jr
  | lb | lbu | lh | lhu | lui | lw | lwl | lwr
  | mfhi | mflo | mthi | mtlo | mult | multu
  | nor | or | ori | rfe | sb | sh
  | sll | sllv | slt | slti | sltiu | sltu | sra | srav | srl | srlv
  | sub | subu | sw | swl | swr | xor | xori
  | syscall | unimp | res
  /-- `SPECIAL` -/
  | special
  /-- `BCOND` -/
  | bcond
  deriving DecidableEq, Repr

/-- `IFMT`, `JFMT` and `RFMT`. -/
inductive Format where
  | ifmt
  | jfmt
  | rfmt
  deriving DecidableEq, Repr

open OpCode Format in
/-- `opTable`, by bits 31 to 26 of the instruction. -/
def opTable : List.Vector (OpCode × Format) 64 :=
  ⟨[(special, rfmt), (bcond, ifmt), (j, jfmt), (jal, jfmt),
    (beq, ifmt), (bne, ifmt), (blez, ifmt), (bgtz, ifmt),
    (addi, ifmt), (addiu, ifmt), (slti, ifmt), (sltiu, ifmt),
    (andi, ifmt), (ori, ifmt), (xori, ifmt), (lui, ifmt),
    (unimp, ifmt), (unimp, ifmt), (unimp, ifmt), (unimp, ifmt),
    (res, ifmt), (res, ifmt), (res, ifmt), (res, ifmt),
    (res, ifmt), (res, ifmt), (res, ifmt), (res, ifmt),
    (res, ifmt), (res, ifmt), (res, ifmt), (res, ifmt),
    (lb, ifmt), (lh, ifmt), (lwl, ifmt), (lw, ifmt),
    (lbu, ifmt), (lhu, ifmt), (lwr, ifmt), (res, ifmt),
    (sb, ifmt), (sh, ifmt), (swl, ifmt), (sw, ifmt),
    (res, ifmt), (res, ifmt), (swr, ifmt), (res, ifmt),
    (unimp, ifmt), (unimp, ifmt), (unimp, ifmt), (unimp, ifmt),
    (res, ifmt), (res, ifmt), (res, ifmt), (res, ifmt),
    (unimp, ifmt), (unimp, ifmt), (unimp, ifmt), (unimp, ifmt),
    (res, ifmt), (res, ifmt), (res, ifmt), (res, ifmt)], rfl⟩

/-- `specialTable`, by bits 5 to 0 of the instruction. -/
def specialTable : List.Vector OpCode 64 :=
  ⟨[.sll, .res, .srl, .sra, .sllv, .res, .srlv, .srav,
    .jr, .jalr, .res, .res, .syscall, .unimp, .res, .res,
    .mfhi, .mthi, .mflo, .mtlo, .res, .res, .res, .res,
    .mult, .multu, .div, .divu, .res, .res, .res, .res,
    .add, .addu, .sub, .subu, .and, .or, .xor, .nor,
    .res, .res, .slt, .sltu, .res, .res, .res, .res,
    .res, .res, .res, .res, .res, .res, .res, .res,
    .res, .res, .res, .res, .res, .res, .res, .res], rfl⟩

structure Instruction where
  opCode : OpCode
  rs : Fin 32
  rt : Fin 32
  rd : Fin 32
  extra : Word
  deriving DecidableEq, Repr

/-- `(value >> pos) & 0x1f`. -/
def regField (value : Word) (pos : ℕ) : Fin 32 :=
  ⟨((value >>> pos) &&& 0x1f#32).toNat, by
    rw [BitVec.toNat_and]
    exact Nat.lt_succ_of_le Nat.and_le_right⟩

/-- `value & 0x3f`. -/
def tableIndex (value : Word) : Fin 64 :=
  ⟨(value &&& 0x3f#32).toNat, by
    rw [BitVec.toNat_and]
    exact Nat.lt_succ_of_le Nat.and_le_right⟩

/-- The `extra` field by the format of the instruction. -/
def decodeExtra (value : Word) : Format → Word
  | .ifmt =>
    let extra := value &&& 0xffff
    if extra &&& 0x8000 ≠ 0 then extra ||| 0xffff0000 else extra
  | .rfmt => (value >>> 6) &&& 0x1f
  | .jfmt => value &&& 0x3ffffff

/-- The last step of `Decode`, on the entry of `opTable`. -/
def decodeOp (value : Word) : OpCode → OpCode
  | .special => specialTable.get (tableIndex value)
  | .bcond =>
    let i := value &&& 0x1f0000
    if i = 0 then .bltz
    else if i = 0x10000 then .bgez
    else if i = 0x100000 then .bltzal
    else if i = 0x110000 then .bgezal
    else .unimp
  | op => op

/-- `Instruction::Decode`. -/
def decode (value : Word) : Instruction :=
  let opPtr := opTable.get (tableIndex (value >>> 26))
  { opCode := decodeOp value opPtr.1
    rs := regField value 21
    rt := regField value 16
    rd := regField value 11
    extra := decodeExtra value opPtr.2 }

/-! ## `Mult` -/

/-- `x & SIGN_BIT` -/
def signBit (x : Word) : Bool := x &&& 0x80000000 != 0

/-- The loop of `Mult` with `n` rounds to go; the results are `hi` and `lo`. -/
def multLoop : ℕ → Word → Word → Word → Word → Word → Word × Word
  | 0, _, _, _, lo, hi => (hi, lo)
  | n + 1, a, bLo, bHi, lo, hi =>
    let odd := a &&& 1 ≠ 0
    let lo' := if odd then lo + bLo else lo
    let hi' := if odd then (if lo'.ult bLo then hi + 1 else hi) + bHi else hi
    if odd ∧ a &&& 0xfffffffe = 0 then (hi', lo')
    else
      let bHi' := bHi <<< 1
      multLoop n (a.sshiftRight 1) (bLo <<< 1)
        (if signBit bLo then bHi' ||| 1 else bHi') lo' hi'

/-- The two's complement of the double word. -/
def negateDouble (p : Word × Word) : Word × Word :=
  let hi := ~~~ p.1
  let lo := ~~~ p.2 + 1
  (if lo = 0 then hi + 1 else hi, lo)

/-- `Mult`; the results are `*hiPtr` and `*loPtr`. -/
def mult (a b : Word) (signedArith : Bool) : Word × Word :=
  if a = 0 ∨ b = 0 then (0, 0)
  else
    let negA := signedArith && a.slt 0
    let negB := signedArith && b.slt 0
    let a' := if negA then -a else a
    let b' := if negB then -b else b
    let p := multLoop 32 a' b' 0 0 0
    if negA != negB then negateDouble p else p

/-! ## `OneInstruction` -/

/-- `IndexToAddr` -/
def indexToAddr (x : Word) : Word := x <<< 2

/-- The smallest `int`. -/
abbrev minInt : Word := 0x80000000

/-- The local variables that are left after the switch. -/
structure Next where
  pcAfter : Word
  nextLoadReg : Word
  nextLoadValue : Word
  deriving DecidableEq, Repr

/-- No delayed load. -/
def noLoad (pcAfter : Word) : Next where
  pcAfter := pcAfter
  nextLoadReg := 0
  nextLoadValue := 0

/-- The word a pending load or the register itself has for `LWL` and `LWR`. -/
def mergeInto (r : Registers) (i : Instruction) : Word :=
  if r loadReg = BitVec.ofNat 32 i.rt.val then r loadValueReg else r i.rt.val

/-- The switch of `LWL`, by `tmp & 0x3`. -/
def lwlMerge (tmp old value : Word) : Word :=
  if tmp &&& 3 = 0 then value
  else if tmp &&& 3 = 1 then (old &&& 0xff) ||| (value <<< 8)
  else if tmp &&& 3 = 2 then (old &&& 0xffff) ||| (value <<< 16)
  else (old &&& 0xffffff) ||| (value <<< 24)

/-- The switch of `LWR`. -/
def lwrMerge (tmp old value : Word) : Word :=
  if tmp &&& 3 = 0 then (old &&& 0xffffff00) ||| (value.sshiftRight 24 &&& 0xff)
  else if tmp &&& 3 = 1 then (old &&& 0xffff0000) ||| (value.sshiftRight 16 &&& 0xffff)
  else if tmp &&& 3 = 2 then (old &&& 0xff000000) ||| (value.sshiftRight 8 &&& 0xffffff)
  else value

/-- The switch of `SWL`. -/
def swlMerge (tmp value reg : Word) : Word :=
  if tmp &&& 3 = 0 then reg
  else if tmp &&& 3 = 1 then (value &&& 0xff000000) ||| (reg.sshiftRight 8 &&& 0xffffff)
  else if tmp &&& 3 = 2 then (value &&& 0xffff0000) ||| (reg.sshiftRight 16 &&& 0xffff)
  else (value &&& 0xffffff00) ||| (reg.sshiftRight 24 &&& 0xff)

/-- The switch of `SWR`. -/
def swrMerge (tmp value reg : Word) : Word :=
  if tmp &&& 3 = 0 then (value &&& 0xffffff) ||| (reg <<< 24)
  else if tmp &&& 3 = 1 then (value &&& 0xffff) ||| (reg <<< 16)
  else if tmp &&& 3 = 2 then (value &&& 0xff) ||| (reg <<< 8)
  else reg

namespace Cpu

/-- `registers[num] = value` and on to the end of the switch. -/
def assign (num : ℕ) (value pcAfter : Word) : Cpu Next := do
  setRegister num value
  return noLoad pcAfter

/-- A conditional branch. -/
def branchIf (c : Bool) (r : Registers) (i : Instruction) (pcAfter : Word) : Cpu Next :=
  return noLoad (if c then r nextPCReg + indexToAddr i.extra else pcAfter)

/-- The switch of `OneInstruction`. -/
def switch (i : Instruction) : Cpu Next := do
  let r ← getRegisters
  let pcAfter := r nextPCReg + 4
  let rs := r i.rs.val
  let rt := r i.rt.val
  match i.opCode with
  | .add =>
    let sum := rs + rt
    if !signBit (rs ^^^ rt) && signBit (rs ^^^ sum) then .raise .overflowException 0
    else assign i.rd.val sum pcAfter
  | .addi =>
    let sum := rs + i.extra
    if !signBit (rs ^^^ i.extra) && signBit (i.extra ^^^ sum) then .raise .overflowException 0
    else assign i.rt.val sum pcAfter
  | .addiu => assign i.rt.val (rs + i.extra) pcAfter
  | .addu => assign i.rd.val (rs + rt) pcAfter
  | .and => assign i.rd.val (rs &&& rt) pcAfter
  | .andi => assign i.rt.val (rs &&& (i.extra &&& 0xffff)) pcAfter
  | .beq => branchIf (rs == rt) r i pcAfter
  | .bgezal => do
    setRegister retAddrReg (r nextPCReg + 4)
    let r ← getRegisters
    branchIf (!signBit (r i.rs.val)) r i pcAfter
  | .bgez => branchIf (!signBit rs) r i pcAfter
  | .bgtz => branchIf (BitVec.slt 0 rs) r i pcAfter
  | .blez => branchIf (rs.sle 0) r i pcAfter
  | .bltzal => do
    setRegister retAddrReg (r nextPCReg + 4)
    let r ← getRegisters
    branchIf (signBit (r i.rs.val)) r i pcAfter
  | .bltz => branchIf (signBit rs) r i pcAfter
  | .bne => branchIf (rs != rt) r i pcAfter
  | .div =>
    if rt = 0 then do
      setRegister loReg 0
      assign hiReg 0 pcAfter
    else if rs = minInt ∧ rt = -1 then .crash .divisionTrap
    else do
      setRegister loReg (rs.sdiv rt)
      assign hiReg (rs.srem rt) pcAfter
  | .divu =>
    if rt = 0 then do
      setRegister loReg 0
      assign hiReg 0 pcAfter
    else do
      setRegister loReg (rs.udiv rt)
      assign hiReg (rs.umod rt) pcAfter
  | .jal => do
    setRegister retAddrReg (r nextPCReg + 4)
    return noLoad ((pcAfter &&& 0xf0000000) ||| indexToAddr i.extra)
  | .j => return noLoad ((pcAfter &&& 0xf0000000) ||| indexToAddr i.extra)
  | .jalr => do
    setRegister i.rd.val (r nextPCReg + 4)
    let r ← getRegisters
    return noLoad (r i.rs.val)
  | .jr => return noLoad rs
  | .lb | .lbu => do
    let tmp := rs + i.extra
    let value ← load tmp 1
    let value := if value &&& 0x80 ≠ 0 ∧ i.opCode = .lb then value ||| 0xffffff00 else value &&& 0xff
    return { pcAfter, nextLoadReg := BitVec.ofNat 32 i.rt.val, nextLoadValue := value }
  | .lh | .lhu =>
    let tmp := rs + i.extra
    if tmp &&& 1 ≠ 0 then .raise .addressErrorException tmp
    else do
      let value ← load tmp 2
      let value :=
        if value &&& 0x8000 ≠ 0 ∧ i.opCode = .lh then value ||| 0xffff0000 else value &&& 0xffff
      return { pcAfter, nextLoadReg := BitVec.ofNat 32 i.rt.val, nextLoadValue := value }
  | .lui => assign i.rt.val (i.extra <<< 16) pcAfter
  | .lw =>
    let tmp := rs + i.extra
    if tmp &&& 3 ≠ 0 then .raise .addressErrorException tmp
    else do
      let value ← load tmp 4
      return { pcAfter, nextLoadReg := BitVec.ofNat 32 i.rt.val, nextLoadValue := value }
  | .lwl =>
    let tmp := rs + i.extra
    if tmp &&& 3 ≠ 0 then .crash .assertFailed
    else do
      let value ← load tmp 4
      let old := mergeInto r i
      return { pcAfter, nextLoadReg := BitVec.ofNat 32 i.rt.val, nextLoadValue := lwlMerge tmp old value }
  | .lwr =>
    let tmp := rs + i.extra
    if tmp &&& 3 ≠ 0 then .crash .assertFailed
    else do
      let value ← load tmp 4
      let old := mergeInto r i
      return { pcAfter, nextLoadReg := BitVec.ofNat 32 i.rt.val, nextLoadValue := lwrMerge tmp old value }
  | .mfhi => assign i.rd.val (r hiReg) pcAfter
  | .mflo => assign i.rd.val (r loReg) pcAfter
  | .mthi => assign hiReg rs pcAfter
  | .mtlo => assign loReg rs pcAfter
  | .mult => do
    setRegister hiReg (mult rs rt true).1
    assign loReg (mult rs rt true).2 pcAfter
  | .multu => do
    setRegister hiReg (mult rs rt false).1
    assign loReg (mult rs rt false).2 pcAfter
  | .nor => assign i.rd.val (~~~ (rs ||| rt)) pcAfter
  -- the second operand is `rs` again
  | .or => assign i.rd.val (rs ||| rs) pcAfter
  | .ori => assign i.rt.val (rs ||| (i.extra &&& 0xffff)) pcAfter
  | .sb => do
    store (rs + i.extra) 1 rt
    return noLoad pcAfter
  | .sh => do
    store (rs + i.extra) 2 rt
    return noLoad pcAfter
  | .sll => assign i.rd.val (rt <<< i.extra.toNat) pcAfter
  | .sllv => assign i.rd.val (rt <<< (rs &&& 0x1f).toNat) pcAfter
  | .slt => assign i.rd.val (if rs.slt rt then 1 else 0) pcAfter
  | .slti => assign i.rt.val (if rs.slt i.extra then 1 else 0) pcAfter
  | .sltiu => assign i.rt.val (if rs.ult i.extra then 1 else 0) pcAfter
  | .sltu => assign i.rd.val (if rs.ult rt then 1 else 0) pcAfter
  | .sra => assign i.rd.val (rt.sshiftRight i.extra.toNat) pcAfter
  | .srav => assign i.rd.val (rt.sshiftRight (rs &&& 0x1f).toNat) pcAfter
  -- `tmp` is an `int`
  | .srl => assign i.rd.val (rt.sshiftRight i.extra.toNat) pcAfter
  | .srlv => assign i.rd.val (rt.sshiftRight (rs &&& 0x1f).toNat) pcAfter
  | .sub =>
    let diff := rs - rt
    if signBit (rs ^^^ rt) && signBit (rs ^^^ diff) then .raise .overflowException 0
    else assign i.rd.val diff pcAfter
  | .subu => assign i.rd.val (rs - rt) pcAfter
  | .sw => do
    store (rs + i.extra) 4 rt
    return noLoad pcAfter
  | .swl =>
    let tmp := rs + i.extra
    if tmp &&& 3 ≠ 0 then .crash .assertFailed
    else do
      let value ← load (tmp &&& ~~~ 3) 4
      store (tmp &&& ~~~ 3) 4 (swlMerge tmp value rt)
      return noLoad pcAfter
  | .swr =>
    let tmp := rs + i.extra
    if tmp &&& 3 ≠ 0 then .crash .assertFailed
    else do
      let value ← load (tmp &&& ~~~ 3) 4
      store (tmp &&& ~~~ 3) 4 (swrMerge tmp value rt)
      return noLoad pcAfter
  | .syscall => .raise .syscallException 0
  | .xor => assign i.rd.val (rs ^^^ rt) pcAfter
  | .xori => assign i.rt.val (rs ^^^ (i.extra &&& 0xffff)) pcAfter
  | .res | .unimp => .raise .illegalInstrException 0
  | .rfe | .special | .bcond => .crash .assertFailed

/-- The end of `OneInstruction`, after the switch. -/
def advance (next : Next) : Cpu Unit := do
  doDelayedLoad next.nextLoadReg next.nextLoadValue
  let r ← getRegisters
  setRegister prevPCReg (r pcReg)
  setRegister pcReg (r nextPCReg)
  setRegister nextPCReg next.pcAfter

/-- `OneInstruction` from the decoded instruction on; `debug` is `DebugIsEnabled('m')`, whose output
asserts that the opcode is one of `opStrings`. -/
def execute (debug : Bool) (instr : Instruction) : Cpu Unit :=
  if debug ∧ (instr.opCode = .special ∨ instr.opCode = .bcond) then .crash .assertFailed
  else do
    let next ← switch instr
    advance next

/-- `Machine::OneInstruction` -/
def oneInstruction (debug : Bool) : Cpu Unit := do
  let r ← getRegisters
  let raw ← load (r pcReg) 4
  execute debug (decode raw)

end Cpu

end Nachos
