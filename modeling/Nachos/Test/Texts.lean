import Nachos.Test.Programs
import Mathlib.Algebra.BigOperators.Group.List.Basic

/-!
# The texts of the water-tap application

What `input.txt` holds, and what `output.txt` should hold at the end: for each number the tap that it
goes to, the first one as long as it was not given more than the second.
-/

namespace Nachos.Test

def IsDigit (ch : Byte) : Prop := 0x30#8 ≤ ch ∧ ch ≤ 0x39#8

instance (ch : Byte) : Decidable (IsDigit ch) := inferInstanceAs (Decidable (_ ∧ _))

/-- The value of the digits that follow `n`. -/
def digitsValue (n : ℕ) (digits : List Byte) : ℕ :=
  digits.foldl (fun n ch => n * 10 + (ch.toNat - 48)) n

/-- A decimal integer as it is written. -/
structure Numeral where
  digits : List Byte
  isDigit : ∀ ch ∈ digits, IsDigit ch
  nonempty : digits ≠ []

def Numeral.value (l : Numeral) : ℕ := digitsValue 0 l.digits

/-- The numbers of a line: positive, with a sum that fits in 31 bits. -/
structure Line where
  numbers : List Numeral
  nonempty : numbers ≠ []
  positive : ∀ l ∈ numbers, 0 < l.value
  fits : (numbers.map Numeral.value).sum < 2 ^ 31

/-- Numbers separated by single spaces. -/
def spaced : List Numeral → List Byte
  | [] => []
  | [l] => l.digits
  | l :: l' :: ls => l.digits ++ 0x20#8 :: spaced (l' :: ls)

/-- The lines of the file; the last one may be without its end of line. -/
def linesText (ended : Bool) : List Line → List Byte
  | [] => []
  | [ln] => spaced ln.numbers ++ if ended then [0x0A#8] else []
  | ln :: ln' :: lns => spaced ln.numbers ++ 0x0A#8 :: linesText ended (ln' :: lns)

/-- `input.txt`: a line with the number `N`, then the lines of numbers. -/
def inputText (N : Numeral) (ended : Bool) (lines : List Line) : List Byte :=
  N.digits ++ 0x0A#8 :: linesText ended lines

/-! ## The expected output -/

/-- The tap for the next number, when `v1` and `v2` were given so far. -/
def tapOf (v1 v2 : ℕ) : Byte := if v1 ≤ v2 then 0x31#8 else 0x32#8

/-- What the taps were given with `l` more. -/
def given (v1 v2 l : ℕ) : ℕ × ℕ := if v1 ≤ v2 then (v1 + l, v2) else (v1, v2 + l)

/-- Each number with its tap, separated by three spaces; CR LF at the end. -/
def poured : ℕ → ℕ → List Numeral → List Byte
  | _, _, [] => []
  | v1, v2, [l] => l.digits ++ [0x5F#8, tapOf v1 v2] ++ [0x0D#8, 0x0A#8]
  | v1, v2, l :: l' :: ls =>
    l.digits ++ [0x5F#8, tapOf v1 v2] ++ [0x20#8, 0x20#8, 0x20#8] ++
      poured (given v1 v2 l.value).1 (given v1 v2 l.value).2 (l' :: ls)

/-- `output.txt`. -/
def outputText (lines : List Line) : List Byte := lines.flatMap fun ln => poured 0 0 ln.numbers

/-! ## Digits and words -/

section Digits

variable {ch : Byte}

theorem IsDigit.toNat (h : IsDigit ch) : 48 ≤ ch.toNat ∧ ch.toNat ≤ 57 :=
  ⟨BitVec.le_def.mp h.1, BitVec.le_def.mp h.2⟩

/-- A digit is none of the characters with a meaning of their own. -/
theorem IsDigit.ne (h : IsDigit ch) {c : Byte} (hc : c.toNat < 48) : ch ≠ c := by
  rintro rfl
  have := h.toNat
  omega

theorem addDigit_ofNat (h : IsDigit ch) (n : ℕ) :
    addDigit (BitVec.ofNat 32 n) ch = BitVec.ofNat 32 (n * 10 + (ch.toNat - 48)) := by
  obtain ⟨hlo, hhi⟩ := h.toNat
  have hext : ch.signExtend 32 = BitVec.ofNat 32 ch.toNat := by
    rw [BitVec.signExtend_eq_setWidth_of_msb_false]
    · apply BitVec.eq_of_toNat_eq
      rw [BitVec.toNat_setWidth, BitVec.toNat_ofNat]
    · rw [BitVec.msb_eq_decide, decide_eq_false]
      omega
  have h10 : (10 : Word).toNat = 10 := rfl
  have h48 : (48 : Word).toNat = 48 := rfl
  unfold addDigit
  rw [hext]
  apply BitVec.eq_of_toNat_eq
  simp only [BitVec.toNat_add, BitVec.toNat_mul, BitVec.toNat_sub, BitVec.toNat_ofNat, h10, h48]
  omega

theorem toInt_ofNat {n : ℕ} (h : n < 2 ^ 31) : (BitVec.ofNat 32 n).toInt = n := by
  rw [BitVec.toInt_eq_toNat_of_lt, BitVec.toNat_ofNat, Nat.mod_eq_of_lt (by omega)]
  rw [BitVec.toNat_ofNat, Nat.mod_eq_of_lt (by omega)]
  omega

end Digits

theorem spaced_ne_nil {ls : List Numeral} (h : ls ≠ []) : spaced ls ≠ [] := by
  cases ls with
  | nil => exact absurd rfl h
  | cons l ls =>
    cases ls with
    | nil => exact l.nonempty
    | cons _ _ => exact fun h => List.cons_ne_nil _ _ (List.append_eq_nil_iff.mp h).2

/-- No end of line and no zero in a line. -/
theorem spaced_chars (ls : List Numeral) : ∀ ch ∈ spaced ls, ch ≠ 0x0A#8 ∧ ch ≠ 0 := by
  have hdigits (l : Numeral) : ∀ ch ∈ l.digits, ch ≠ 0x0A#8 ∧ ch ≠ 0 := fun ch hch =>
    ⟨(l.isDigit ch hch).ne (by decide), (l.isDigit ch hch).ne (by decide)⟩
  induction ls with
  | nil => exact fun ch h => absurd h List.not_mem_nil
  | cons l ls ih =>
    cases ls with
    | nil => exact hdigits l
    | cons l' ls =>
      intro ch h
      rcases List.mem_append.mp h with h | h
      · exact hdigits l ch h
      · rcases List.mem_cons.mp h with rfl | h
        · decide
        · exact ih ch h

end Nachos.Test
