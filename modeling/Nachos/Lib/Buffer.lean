import Mathlib.Data.Nat.Basic
import Mathlib.Tactic.Common

/-!
# Blocks copied into a buffer

A buffer is a function on its indices. `splice` copies a block into it. A buffer that is filled
block by block, each of `size` elements, is the concatenation of the blocks (`fill_apply`).
-/

namespace Buffer

variable {β : Type*}

/-- `bcopy(src, &buf[start], n)` -/
def splice (buf : ℕ → β) (start n : ℕ) (src : ℕ → β) : ℕ → β :=
  fun k => if start ≤ k ∧ k < start + n then src (k - start) else buf k

theorem splice_inside {start n k : ℕ} (h₁ : start ≤ k) (h₂ : k < start + n) (buf src : ℕ → β) :
    splice buf start n src k = src (k - start) := if_pos ⟨h₁, h₂⟩

theorem splice_outside {start n k : ℕ} (h : k < start ∨ start + n ≤ k) (buf src : ℕ → β) :
    splice buf start n src k = buf k := by
  refine if_neg ?_
  rintro ⟨h₁, h₂⟩
  omega

/-- The first `m` blocks have been copied in. -/
def fill (buf : ℕ → β) (size : ℕ) (block : ℕ → ℕ → β) : ℕ → ℕ → β
  | 0 => buf
  | m + 1 => splice (fill buf size block m) (m * size) size (block m)

theorem fill_apply {size : ℕ} (hsize : 0 < size) (buf : ℕ → β) (block : ℕ → ℕ → β) (m k : ℕ) :
    fill buf size block m k = if k < m * size then block (k / size) (k % size) else buf k := by
  induction m with
  | zero => simp [fill]
  | succ m ih =>
    have hm : (m + 1) * size = m * size + size := Nat.succ_mul m size
    by_cases hin : m * size ≤ k ∧ k < m * size + size
    · have hdiv : k / size = m := by
        refine Nat.div_eq_of_lt_le hin.1 ?_
        rw [hm]
        exact hin.2
      have hmod : k % size = k - m * size := by
        have h := Nat.div_add_mod k size
        rw [hdiv, Nat.mul_comm] at h
        omega
      rw [fill, splice_inside hin.1 hin.2, hdiv, hmod, if_pos (by omega)]
    · rw [fill, splice_outside (by omega), ih]
      by_cases hk : k < m * size
      · rw [if_pos hk, if_pos (by omega)]
      · rw [if_neg hk, if_neg (by omega)]

end Buffer
