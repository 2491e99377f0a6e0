import Nachos.Lib.Store
import Nachos.Machine.Basic

/-!
# Address translation and user memory, `translate.cc`

The machine runs with a linear page table (`tlb == NULL`). `mainMemory` is the array at the
indices `0 ≤ a < memorySize`; indices outside are the host memory around it, which only a stray
kernel pointer can name. The host is little endian (`HOST_i386`), so `WordToHost` and
`ShortToHost` change nothing.
-/

namespace Nachos

structure TranslationEntry where
  virtualPage : ℤ
  physicalPage : ℤ
  valid : Bool
  readOnly : Bool
  use : Bool
  dirty : Bool
  deriving DecidableEq, Repr

abbrev Memory := ℤ → Byte

/-- The answer of `Translate`, `ReadMem` or `WriteMem`: a result, the exception to raise, or a
failed `ASSERT`, which aborts the simulator. -/
inductive Access (α : Type) where
  | ok (a : α)
  | exception (which : ExceptionType)
  | assertFailed

/-- `Machine::Translate`; the result is the physical address and the page table with its use and
dirty bits. -/
def translate (pageTable : List TranslationEntry) (virtAddr : Word) (size : ℕ) (writing : Bool) :
    Access (ℕ × List TranslationEntry) :=
  if (size = 4 ∧ virtAddr &&& 3 ≠ 0) ∨ (size = 2 ∧ virtAddr &&& 1 ≠ 0) then
    .exception .addressErrorException
  else
    let vpn := virtAddr.toNat / pageSize
    let offset := virtAddr.toNat % pageSize
    match pageTable[vpn]? with
    | none => .exception .addressErrorException
    | some entry =>
      if !entry.valid then .exception .pageFaultException
      else if entry.readOnly && writing then .exception .readOnlyException
      else
        let pageFrame := (BitVec.ofInt 32 entry.physicalPage).toNat
        if numPhysPages ≤ pageFrame then .exception .busErrorException
        else
          let entry' := { entry with use := true, dirty := entry.dirty || writing }
          let physAddr := pageFrame * pageSize + offset
          if physAddr + size ≤ memorySize then .ok (physAddr, pageTable.set vpn entry')
          else .assertFailed

/-- The `size` bytes at `physAddr` as an `int`: a `char` is signed, an `unsigned short` is not. -/
def loadValue (m : Memory) (physAddr : ℤ) : ℕ → Option Word
  | 1 => some ((m physAddr).signExtend 32)
  | 2 => some ((m (physAddr + 1) ++ m physAddr : BitVec 16).setWidth 32)
  | 4 => some (m (physAddr + 3) ++ m (physAddr + 2) ++ m (physAddr + 1) ++ m physAddr)
  | _ => none

/-- The bytes a store of `value` with `size` bytes puts at `physAddr`. -/
def storeBytes (physAddr : ℤ) (value : Word) : ℕ → Option (List (ℤ × Byte))
  | 1 => some [(physAddr, value.setWidth 8)]
  | 2 => some [(physAddr, value.setWidth 8), (physAddr + 1, value.extractLsb' 8 8)]
  | 4 => some [(physAddr, value.setWidth 8), (physAddr + 1, value.extractLsb' 8 8),
      (physAddr + 2, value.extractLsb' 16 8), (physAddr + 3, value.extractLsb' 24 8)]
  | _ => none

/-- `Machine::ReadMem`, up to the exception it raises. -/
def readMem (m : Memory) (pageTable : List TranslationEntry) (addr : Word) (size : ℕ) :
    Access (Word × List TranslationEntry) :=
  match translate pageTable addr size false with
  | .exception which => .exception which
  | .assertFailed => .assertFailed
  | .ok (physAddr, pageTable') =>
    match loadValue m physAddr size with
    | some value => .ok (value, pageTable')
    | none => .assertFailed

/-- `Machine::WriteMem`, up to the exception it raises. -/
def writeMem (m : Memory) (pageTable : List TranslationEntry) (addr : Word) (size : ℕ)
    (value : Word) : Access (Memory × List TranslationEntry) :=
  match translate pageTable addr size true with
  | .exception which => .exception which
  | .assertFailed => .assertFailed
  | .ok (physAddr, pageTable') =>
    match storeBytes physAddr value size with
    | some w => .ok (Store.store m w, pageTable')
    | none => .assertFailed

/-! ## Single bytes -/

/-- Translation of a byte address: the page must exist, be valid and lie in a frame below
`NumPhysPages`. -/
theorem translate_one {pageTable : List TranslationEntry} {virtAddr : Word} {e : TranslationEntry}
    (he : pageTable[virtAddr.toNat / pageSize]? = some e) (hv : e.valid = true)
    (hr : e.readOnly = false) {f : ℕ} (hf : e.physicalPage = f) (writing : Bool) :
    translate pageTable virtAddr 1 writing =
      if numPhysPages ≤ f % 2 ^ 32 then .exception .busErrorException
      else .ok (f % 2 ^ 32 * pageSize + virtAddr.toNat % pageSize,
        pageTable.set (virtAddr.toNat / pageSize)
          { e with use := true, dirty := e.dirty || writing }) := by
  have hfr : (BitVec.ofInt 32 e.physicalPage).toNat = f % 2 ^ 32 := by
    rw [hf, BitVec.ofInt_natCast, BitVec.toNat_ofNat]
  have hoff : virtAddr.toNat % pageSize < pageSize := Nat.mod_lt _ (by decide)
  unfold translate
  simp only [he, hv, hr, hfr, Bool.not_true, Bool.false_and, Bool.false_eq_true, if_false,
    OfNat.one_ne_ofNat, false_and, or_self]
  split_ifs with h1 h2
  · rfl
  · rfl
  · exfalso
    unfold memorySize at h2
    have : (f % 2 ^ 32 + 1) * pageSize ≤ numPhysPages * pageSize :=
      Nat.mul_le_mul_right _ (by omega)
    rw [Nat.add_mul, Nat.one_mul] at this
    omega

/-- A page in a frame of the machine never raises a bus error. -/
theorem translate_ne_busError {pageTable : List TranslationEntry} {virtAddr : Word}
    (h : ∀ e, pageTable[virtAddr.toNat / pageSize]? = some e →
      0 ≤ e.physicalPage ∧ e.physicalPage < numPhysPages) (size : ℕ) (writing : Bool) :
    translate pageTable virtAddr size writing ≠ .exception .busErrorException := by
  unfold translate
  split_ifs
  · simp
  rcases he : pageTable[virtAddr.toNat / pageSize]? with _ | e
  · simp only [he]; simp
  obtain ⟨h0, h1⟩ := h e he
  have hframe : ¬ numPhysPages ≤ (BitVec.ofInt 32 e.physicalPage).toNat := by
    obtain ⟨f, hf⟩ := Int.eq_ofNat_of_zero_le h0
    rw [hf] at h1 ⊢
    have hf' : f < 128 := by exact_mod_cast h1
    rw [BitVec.ofInt_natCast, BitVec.toNat_ofNat, Nat.mod_eq_of_lt (by omega)]
    exact Nat.not_le.mpr hf'
  simp only [he, if_neg hframe]
  split_ifs <;> simp

theorem translate_one_outside {pageTable : List TranslationEntry} {virtAddr : Word}
    (he : pageTable[virtAddr.toNat / pageSize]? = none) (writing : Bool) :
    translate pageTable virtAddr 1 writing = .exception .addressErrorException := by
  unfold translate
  simp only [he, OfNat.one_ne_ofNat, false_and, or_self, if_false]

/-! ## The use and dirty bits -/

/-- The frame of a page that can be accessed. -/
def TranslationEntry.frame (e : TranslationEntry) : ℕ := (BitVec.ofInt 32 e.physicalPage).toNat

/-- What the translation reads of an entry. -/
def TranslationEntry.mapping (e : TranslationEntry) : ℤ × Bool × Bool :=
  (e.physicalPage, e.valid, e.readOnly)

/-- Page tables that differ in use and dirty bits only. -/
def SameMap (pt pt' : List TranslationEntry) : Prop :=
  ∀ i : ℕ, (pt'[i]?).map TranslationEntry.mapping = (pt[i]?).map TranslationEntry.mapping

theorem sameMap_refl (pt : List TranslationEntry) : SameMap pt pt := fun _ => rfl

theorem SameMap.trans {pt₁ pt₂ pt₃ : List TranslationEntry} (h₁ : SameMap pt₁ pt₂)
    (h₂ : SameMap pt₂ pt₃) : SameMap pt₁ pt₃ := fun i => (h₂ i).trans (h₁ i)

theorem SameMap.symm {pt pt' : List TranslationEntry} (h : SameMap pt pt') : SameMap pt' pt :=
  fun i => (h i).symm

theorem sameMap_set {pt : List TranslationEntry} {i : ℕ} {e e' : TranslationEntry} (he : pt[i]? = some e)
    (hm : e'.mapping = e.mapping) : SameMap pt (pt.set i e') := by
  intro j
  by_cases hj : i = j
  · subst hj
    have hlt : i < pt.length := (List.getElem?_eq_some_iff.mp he).1
    rw [List.getElem?_set_self hlt, he, Option.map_some, Option.map_some, hm]
  · rw [List.getElem?_set_ne hj]

end Nachos
