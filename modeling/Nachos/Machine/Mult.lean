import Mathlib.Data.Nat.ModEq
import Mathlib.Tactic.Ring
import Nachos.Machine.Mipssim

/-!
# The multiplication loop of the simulator

`Mult` adds shifted copies of one factor, in two words with a carry by hand. `double` is the number
in two words; each round of `multLoop` keeps `double` of the sum plus the part of the product still
to come, modulo `2 ^ 64`.
-/

namespace Nachos

/-- The number in the words `hi` and `lo`. -/
def double (hi lo : Word) : ℕ := hi.toNat * 2 ^ 32 + lo.toNat

theorem double_zero : double 0 0 = 0 := rfl

theorem toNat_zero : (0 : Word).toNat = 0 := rfl

theorem double_lt (hi lo : Word) : double hi lo < 2 ^ 64 := by
  have h₁ := hi.isLt
  have h₂ := lo.isLt
  unfold double
  omega

theorem double_injective {hi lo hi' lo' : Word} (h : double hi lo = double hi' lo') :
    hi = hi' ∧ lo = lo' := by
  have h₁ := lo.isLt
  have h₂ := lo'.isLt
  unfold double at h
  constructor
  · apply BitVec.eq_of_toNat_eq
    omega
  · apply BitVec.eq_of_toNat_eq
    omega

theorem double_extract (x : BitVec 64) : double (x.extractLsb' 32 32) (x.extractLsb' 0 32) = x.toNat := by
  have h := x.isLt
  unfold double
  rw [BitVec.extractLsb'_toNat, BitVec.extractLsb'_toNat, Nat.shiftRight_eq_div_pow,
    Nat.shiftRight_zero]
  omega

/-! ## One round -/

theorem and_one_toNat (a : Word) : (a &&& 1).toNat = a.toNat % 2 := by
  rw [BitVec.toNat_and]
  exact Nat.and_two_pow_sub_one_eq_mod _ 1

theorem and_one_ne_zero {a : Word} : a &&& 1 ≠ 0 ↔ a.toNat % 2 = 1 := by
  rw [ne_eq, ← BitVec.toNat_inj, and_one_toNat, toNat_zero]
  omega

/-- The low bits of an arithmetic shift. -/
theorem sshiftRight_one_mod (a : Word) {n : ℕ} (hn : n < 32) :
    (a.sshiftRight 1).toNat % 2 ^ n = a.toNat / 2 % 2 ^ n := by
  have hdvd : 2 ^ n ∣ 2 ^ 31 := Nat.pow_dvd_pow 2 (by omega)
  have h31 : (a.sshiftRight 1).toNat % 2 ^ 31 = a.toNat / 2 % 2 ^ 31 := by
    have ha := a.isLt
    cases hm : a.msb with
    | false => rw [BitVec.toNat_sshiftRight_of_msb_false hm, Nat.shiftRight_eq_div_pow, pow_one]
    | true =>
      have hge := BitVec.msb_eq_true_iff_two_mul_ge.mp hm
      rw [BitVec.toNat_sshiftRight_of_msb_true hm, Nat.shiftRight_eq_div_pow, pow_one]
      omega
  rw [← Nat.mod_mod_of_dvd _ hdvd, h31, Nat.mod_mod_of_dvd _ hdvd]

/-- Adding with a carry by hand. -/
theorem double_add (hi lo bHi bLo : Word) :
    double ((if (lo + bLo).ult bLo then hi + 1 else hi) + bHi) (lo + bLo) =
      (double hi lo + double bHi bLo) % 2 ^ 64 := by
  have h₁ := hi.isLt
  have h₂ := lo.isLt
  have h₃ := bHi.isLt
  have h₄ := bLo.isLt
  unfold double
  rw [BitVec.ult]
  split_ifs with hc
  · rw [decide_eq_true_eq, BitVec.toNat_add] at hc
    rw [BitVec.toNat_add, BitVec.toNat_add, BitVec.toNat_add, show (1 : Word).toNat = 1 from rfl]
    omega
  · rw [decide_eq_true_eq, BitVec.toNat_add] at hc
    rw [BitVec.toNat_add, BitVec.toNat_add]
    omega

theorem signBit_eq_msb (x : Word) : signBit x = x.msb := by
  have hbit : (0x80000000 : Word) = BitVec.twoPow 32 31 := by decide
  unfold signBit
  rw [hbit, BitVec.and_twoPow, BitVec.msb_eq_getLsbD_last]
  cases x.getLsbD 31 <;> decide

/-- Shifting two words. -/
theorem double_shift (bHi bLo : Word) :
    double (if signBit bLo then bHi <<< 1 ||| 1 else bHi <<< 1) (bLo <<< 1) =
      2 * double bHi bLo % 2 ^ 64 := by
  have h₁ := bHi.isLt
  have h₂ := bLo.isLt
  have hor : bHi <<< 1 ||| (1 : Word) = bHi <<< 1 + 1 := by
    refine (BitVec.add_eq_or_of_and_eq_zero _ _ ?_).symm
    apply BitVec.eq_of_toNat_eq
    rw [and_one_toNat, BitVec.toNat_shiftLeft, Nat.shiftLeft_eq, pow_one]
    show bHi.toNat * 2 % 2 ^ 32 % 2 = 0
    omega
  unfold double
  rw [signBit_eq_msb, hor, BitVec.toNat_shiftLeft, Nat.shiftLeft_eq, pow_one]
  split_ifs with hm
  · have hge := BitVec.msb_eq_true_iff_two_mul_ge.mp hm
    rw [BitVec.toNat_add, BitVec.toNat_shiftLeft, Nat.shiftLeft_eq, pow_one,
      show (1 : Word).toNat = 1 from rfl]
    omega
  · have hlt := BitVec.msb_eq_false_iff_two_mul_lt.mp (Bool.not_eq_true _ ▸ hm)
    rw [BitVec.toNat_shiftLeft, Nat.shiftLeft_eq, pow_one]
    omega

/-! ## The loop -/

/-- The rounds to go add the low bits of `a` times the shifted factor. -/
theorem multLoop_spec (n : ℕ) : ∀ (a bLo bHi lo hi : Word), n ≤ 32 →
    double (multLoop n a bLo bHi lo hi).1 (multLoop n a bLo bHi lo hi).2 =
      (double hi lo + a.toNat % 2 ^ n * double bHi bLo) % 2 ^ 64 := by
  induction n with
  | zero =>
    intro a bLo bHi lo hi _
    rw [pow_zero, Nat.mod_one, Nat.zero_mul, Nat.add_zero, Nat.mod_eq_of_lt (double_lt hi lo)]
    rfl
  | succ n ih =>
    intro a bLo bHi lo hi hn
    have hbits : a.toNat % 2 ^ (n + 1) = a.toNat % 2 + 2 * (a.toNat / 2 % 2 ^ n) := by
      rw [pow_succ, Nat.mul_comm, Nat.mod_mul]
    -- the sum after this round
    have hsum : double (if a &&& 1 ≠ 0 then
          (if (if a &&& 1 ≠ 0 then lo + bLo else lo).ult bLo then hi + 1 else hi) + bHi else hi)
        (if a &&& 1 ≠ 0 then lo + bLo else lo) =
          (double hi lo + a.toNat % 2 * double bHi bLo) % 2 ^ 64 := by
      by_cases hodd : a &&& 1 ≠ 0
      · rw [if_pos hodd, if_pos hodd, double_add, and_one_ne_zero.mp hodd, Nat.one_mul]
      · have heven : a.toNat % 2 = 0 := by
          have := mt and_one_ne_zero.mpr hodd
          omega
        rw [if_neg hodd, if_neg hodd, heven, Nat.zero_mul, Nat.add_zero,
          Nat.mod_eq_of_lt (double_lt hi lo)]
    rw [multLoop]
    dsimp only
    by_cases hbreak : a &&& 1 ≠ 0 ∧ a &&& 0xfffffffe = 0
    · -- no bit of `a` is left
      have hone : a.toNat / 2 = 0 := by
        have hbit : a &&& 1 = a := by
          have hall : a &&& (1 ||| 0xfffffffe) = a := by
            rw [show (1 ||| 0xfffffffe : Word) = BitVec.allOnes 32 from by decide,
              BitVec.and_allOnes]
          rw [BitVec.and_or_distrib_left, hbreak.2] at hall
          exact BitVec.or_zero.symm.trans hall
        have := and_one_toNat a
        rw [hbit] at this
        omega
      rw [if_pos hbreak, hsum, hbits, hone, Nat.zero_mod, Nat.mul_zero, Nat.add_zero]
    · rw [if_neg hbreak, ih _ _ _ _ _ (by omega), hsum, double_shift,
        sshiftRight_one_mod a (by omega), hbits]
      have hrest : a.toNat / 2 % 2 ^ n * (2 * double bHi bLo % 2 ^ 64) ≡
          a.toNat / 2 % 2 ^ n * (2 * double bHi bLo) [MOD 2 ^ 64] :=
        (Nat.mod_modEq _ _).mul_left _
      calc ((double hi lo + a.toNat % 2 * double bHi bLo) % 2 ^ 64 +
            a.toNat / 2 % 2 ^ n * (2 * double bHi bLo % 2 ^ 64)) % 2 ^ 64
          = (double hi lo + a.toNat % 2 * double bHi bLo +
              a.toNat / 2 % 2 ^ n * (2 * double bHi bLo)) % 2 ^ 64 :=
            (Nat.mod_modEq _ _).add hrest
        _ = _ := by ring_nf

/-- All 32 rounds multiply. -/
theorem multLoop_eq (a b : Word) :
    double (multLoop 32 a b 0 0 0).1 (multLoop 32 a b 0 0 0).2 = a.toNat * b.toNat := by
  have ha := a.isLt
  have hb := b.isLt
  have hlt : a.toNat * b.toNat < 2 ^ 64 := by
    calc a.toNat * b.toNat < 2 ^ 32 * 2 ^ 32 := Nat.mul_lt_mul'' ha hb
      _ = 2 ^ 64 := (pow_add 2 32 32).symm
  have hb' : double 0 b = b.toNat := by
    show 0 * 2 ^ 32 + b.toNat = b.toNat
    omega
  rw [multLoop_spec 32 a b 0 0 0 le_rfl, double_zero, hb', Nat.zero_add, Nat.mod_eq_of_lt ha,
    Nat.mod_eq_of_lt hlt]

theorem double_negate (p : Word × Word) :
    double (negateDouble p).1 (negateDouble p).2 = (2 ^ 64 - double p.1 p.2) % 2 ^ 64 := by
  have h₁ := p.1.isLt
  have h₂ := p.2.isLt
  have hzero : ~~~ p.2 + 1 = 0 ↔ p.2.toNat = 0 := by
    rw [← BitVec.toNat_inj, BitVec.toNat_add, BitVec.toNat_not, show (1 : Word).toNat = 1 from rfl,
      toNat_zero]
    omega
  unfold negateDouble double
  dsimp only
  split_ifs with hc
  · have h0 := hzero.mp hc
    rw [BitVec.toNat_add, BitVec.toNat_add, BitVec.toNat_not, BitVec.toNat_not,
      show (1 : Word).toNat = 1 from rfl]
    omega
  · have h0 := mt hzero.mpr hc
    rw [BitVec.toNat_add, BitVec.toNat_not, BitVec.toNat_not, show (1 : Word).toNat = 1 from rfl]
    omega

/-! ## The two products -/

theorem mult_unsigned (a b : Word) :
    double (mult a b false).1 (mult a b false).2 = a.toNat * b.toNat := by
  unfold mult
  split_ifs with h0
  · rcases h0 with rfl | rfl
    · rw [double_zero, toNat_zero, Nat.zero_mul]
    · rw [double_zero, toNat_zero, Nat.mul_zero]
  · simp only [Bool.false_and, Bool.false_eq_true, if_false, bne_self_eq_false]
    exact multLoop_eq a b

/-- The absolute value the loop works with. -/
theorem toInt_eq_abs (a : Word) :
    a.toInt = if a.slt 0 then -((-a).toNat : ℤ) else (a.toNat : ℤ) := by
  have ha := a.isLt
  have h0 : (0 : Word).toInt = 0 := rfl
  rw [BitVec.slt, h0, BitVec.toNat_neg, BitVec.toInt_eq_toNat_cond]
  split_ifs <;> simp_all <;> omega

theorem ofInt_toNat (n : ℕ) (hn : n < 2 ^ 64) : (BitVec.ofInt 64 n).toNat = n := by
  rw [BitVec.ofInt_natCast, BitVec.toNat_ofNat, Nat.mod_eq_of_lt hn]

theorem ofInt_neg_toNat (n : ℕ) (hn : n < 2 ^ 64) :
    (BitVec.ofInt 64 (-(n : ℤ))).toNat = (2 ^ 64 - n) % 2 ^ 64 := by
  rw [BitVec.ofInt_neg, BitVec.toNat_neg, ofInt_toNat n hn]

theorem mult_signed (a b : Word) :
    double (mult a b true).1 (mult a b true).2 = (BitVec.ofInt 64 (a.toInt * b.toInt)).toNat := by
  unfold mult
  split_ifs with h0
  · rcases h0 with rfl | rfl
    · rw [double_zero, show (0 : Word).toInt = 0 from rfl, Int.zero_mul]
      rfl
    · rw [double_zero, show (0 : Word).toInt = 0 from rfl, Int.mul_zero]
      rfl
  · have hlt : ∀ x y : Word, x.toNat * y.toNat < 2 ^ 64 := fun x y => by
      rw [← multLoop_eq]
      exact double_lt _ _
    rw [toInt_eq_abs a, toInt_eq_abs b]
    simp only [Bool.true_and]
    -- by the signs of the factors
    cases ha : a.slt 0 <;> cases hb : b.slt 0
    · rw [if_neg (by decide), if_neg (by decide), if_neg (by decide), if_neg (by decide),
        if_neg (by decide), multLoop_eq, ← Nat.cast_mul, ofInt_toNat _ (hlt a b)]
    · rw [if_pos (by decide), if_neg (by decide), if_pos rfl, if_neg (by decide), if_pos rfl,
        double_negate, multLoop_eq, Int.mul_neg, ← Nat.cast_mul, ofInt_neg_toNat _ (hlt a (-b))]
    · rw [if_pos (by decide), if_pos rfl, if_neg (by decide), if_pos rfl, if_neg (by decide),
        double_negate, multLoop_eq, Int.neg_mul, ← Nat.cast_mul, ofInt_neg_toNat _ (hlt (-a) b)]
    · rw [if_neg (by decide), if_pos rfl, if_pos rfl, if_pos rfl, if_pos rfl, multLoop_eq,
        Int.neg_mul_neg, ← Nat.cast_mul, ofInt_toNat _ (hlt (-a) (-b))]

/-! ## The double word as one number -/

theorem append_toNat (hi lo : Word) : (hi ++ lo).toNat = double hi lo := by
  rw [BitVec.toNat_append, Nat.shiftLeft_eq, Nat.mul_comm, ← Nat.two_pow_add_eq_or_of_lt lo.isLt,
    double, Nat.mul_comm]

/-- **The full product.** `hi` and `lo` together are the product of the two words, signed or
unsigned. -/
theorem mult_full_product (a b : Word) :
    ((mult a b true).1 ++ (mult a b true).2).toInt = a.toInt * b.toInt ∧
      ((mult a b false).1 ++ (mult a b false).2).toNat = a.toNat * b.toNat := by
  refine ⟨?_, ?_⟩
  · have heq : (mult a b true).1 ++ (mult a b true).2 = BitVec.ofInt 64 (a.toInt * b.toInt) := by
      apply BitVec.eq_of_toNat_eq
      rw [append_toNat, mult_signed]
    -- the product of two words fits the double word
    have hlow : -(2 ^ 62) ≤ a.toInt * b.toInt := BitVec.le_toInt_mul_toInt
    have hhigh : a.toInt * b.toInt ≤ 2 ^ 62 := BitVec.toInt_mul_toInt_le
    rw [heq, BitVec.toInt_ofInt]
    exact Int.bmod_eq_of_le (by omega) (by omega)
  · rw [append_toNat, mult_unsigned]

/-- The extreme factors. -/
example : mult 0x80000000 0x80000000 true = (0x40000000, 0) ∧
    mult 0xffffffff 0xffffffff false = (0xfffffffe, 1) := by decide +kernel

end Nachos
