import Mathlib.Data.List.Nodup
import Mathlib.Data.List.Range
import Mathlib.Logic.Function.Basic

/-!
# Slots that own things

The slots of a table own a list of things each; `all` lists the things of the first `n` slots. When
an empty slot comes to own `xs`, the table owns `xs` on top of what it owned before
(`all_update_perm`).
-/

namespace Slots

variable {α : Type*} {own : ℕ → List α} {n i j : ℕ} {x : α}

/-- The things that the slots below `n` own. -/
def all (own : ℕ → List α) (n : ℕ) : List α := (List.range n).flatMap own

theorem mem_all : x ∈ all own n ↔ ∃ i < n, x ∈ own i := by
  simp [all]

theorem all_succ (own : ℕ → List α) (n : ℕ) : all own (n + 1) = all own n ++ own n := by
  rw [all, List.range_succ, List.flatMap_append, List.flatMap_singleton]
  rfl

theorem all_congr {own' : ℕ → List α} (h : ∀ i < n, own i = own' i) : all own n = all own' n :=
  List.flatMap_congr fun i hi => h i (List.mem_range.mp hi)

theorem all_update_perm (hi : i < n) (hempty : own i = []) (xs : List α) :
    (all (Function.update own i xs) n).Perm (xs ++ all own n) := by
  induction n with
  | zero => exact absurd hi (Nat.not_lt_zero i)
  | succ n ih =>
    rw [all_succ, all_succ]
    rcases Nat.lt_succ_iff_lt_or_eq.mp hi with hlt | rfl
    · rw [Function.update_of_ne (Nat.ne_of_gt hlt), ← List.append_assoc]
      exact (ih hlt).append_right (own n)
    · rw [Function.update_self, hempty, List.append_nil,
        all_congr fun j hj => Function.update_of_ne (Nat.ne_of_lt hj) xs own]
      exact List.perm_append_comm

/-- Different slots own different things. -/
theorem eq_of_mem (h : (all own n).Nodup) (hi : i < n) (hj : j < n) (hxi : x ∈ own i)
    (hxj : x ∈ own j) : i = j := by
  by_contra hne
  have : Std.Symm (Function.onFun List.Disjoint own) := ⟨fun _ _ hd _ ha hb => hd hb ha⟩
  have hdisjoint := (List.nodup_flatMap.mp h).2.forall (List.mem_range.mpr hi)
    (List.mem_range.mpr hj) hne
  exact hdisjoint hxi hxj

theorem nodup_own (h : (all own n).Nodup) (hi : i < n) : (own i).Nodup :=
  (List.nodup_flatMap.mp h).1 i (List.mem_range.mpr hi)

end Slots
