import Mathlib.Data.List.Basic
import Mathlib.Logic.Function.Basic

/-!
# Sequences of stores

A memory is a function `α → β`, a block of code that writes it the list of its stores
`(address, value)` in program order. `last w a` is the value of the last store to `a`; it decides
what a read of `a` sees afterwards (`store_apply`).
-/

namespace Store

variable {α β γ : Type*} [DecidableEq α]

/-- The memory after the stores `w`. -/
def store (m : α → β) (w : List (α × β)) : α → β :=
  w.foldl (fun m p => Function.update m p.1 p.2) m

/-- The value of the last store to `a`, if there is one. -/
def last : List (α × γ) → α → Option γ
  | [], _ => none
  | p :: w, a => (last w a).or (if p.1 = a then some p.2 else none)

@[simp] theorem last_nil (a : α) : last ([] : List (α × γ)) a = none := rfl

theorem last_cons (p : α × γ) (w : List (α × γ)) (a : α) :
    last (p :: w) a = (last w a).or (if p.1 = a then some p.2 else none) := rfl

theorem store_apply (m : α → β) (w : List (α × β)) (a : α) :
    store m w a = (last w a).getD (m a) := by
  induction w generalizing m with
  | nil => rfl
  | cons p w ih =>
    have h : store m (p :: w) = store (Function.update m p.1 p.2) w := rfl
    rw [h, ih, last_cons]
    rcases last w a with _ | v
    · by_cases hp : p.1 = a
      · subst hp; simp
      · have hne : a ≠ p.1 := fun e => hp e.symm
        simp [hp, hne]
    · rfl

theorem last_append (v w : List (α × γ)) (a : α) : last (v ++ w) a = (last w a).or (last v a) := by
  induction v with
  | nil => simp
  | cons p v ih => rw [List.cons_append, last_cons, last_cons, ih, Option.or_assoc]

theorem last_map (f : γ → β) (w : List (α × γ)) (a : α) :
    last (w.map fun p => (p.1, f p.2)) a = (last w a).map f := by
  induction w with
  | nil => rfl
  | cons p w ih =>
    rw [List.map_cons, last_cons, last_cons, ih]
    rcases last w a with _ | v
    · by_cases hp : p.1 = a <;> simp [hp]
    · rfl

/-- The last store to `a` is one of the stores. -/
theorem mem_of_last {w : List (α × γ)} {a : α} {v : γ} (h : last w a = some v) : (a, v) ∈ w := by
  induction w with
  | nil => simp at h
  | cons p w ih =>
    rw [last_cons] at h
    rcases hl : last w a with _ | u
    · rw [hl, Option.none_or] at h
      split_ifs at h with hp
      rw [Option.some.injEq] at h
      have : p = (a, v) := Prod.ext hp h
      exact this ▸ List.mem_cons_self
    · rw [hl, Option.some_or] at h
      exact List.mem_cons_of_mem _ (ih (hl.trans h))

theorem last_eq_none {w : List (α × γ)} {a : α} : last w a = none ↔ ∀ p ∈ w, p.1 ≠ a := by
  induction w with
  | nil => simp
  | cons p w ih =>
    rw [last_cons, Option.or_eq_none_iff, ih, List.forall_mem_cons, and_comm]
    by_cases hp : p.1 = a <;> simp [hp]

/-- Where all stores to `a` agree, their value is the last one. -/
theorem last_eq_some_of_unique {w : List (α × γ)} {a : α} {v : γ} (hm : (a, v) ∈ w)
    (hu : ∀ u, (a, u) ∈ w → u = v) : last w a = some v := by
  rcases h : last w a with _ | u
  · exact absurd rfl (last_eq_none.mp h _ hm)
  · rw [hu u (mem_of_last h)]

theorem store_of_forall_ne {m : α → β} {w : List (α × β)} {a : α} (h : ∀ p ∈ w, p.1 ≠ a) :
    store m w a = m a := by
  rw [store_apply, last_eq_none.mpr h]; rfl

/-- The last store of a loop is that of its last round that stores to `a`. -/
theorem last_flatMap_range (g : ℕ → List (α × γ)) (n : ℕ) (a : α) (v : γ) :
    last ((List.range n).flatMap g) a = some v ↔
      ∃ i < n, last (g i) a = some v ∧ ∀ i' < n, i < i' → last (g i') a = none := by
  induction n with
  | zero => simp
  | succ n ih =>
    rw [List.range_succ, List.flatMap_append, List.flatMap_singleton, last_append]
    rcases hn : last (g n) a with _ | u
    · rw [Option.none_or, ih]
      constructor
      · rintro ⟨i, hi, hv, hl⟩
        refine ⟨i, by omega, hv, fun i' hi' hlt => ?_⟩
        rcases Nat.lt_succ_iff_lt_or_eq.mp hi' with h | rfl
        · exact hl i' h hlt
        · exact hn
      · rintro ⟨i, hi, hv, hl⟩
        have hne : i ≠ n := by rintro rfl; rw [hn] at hv; cases hv
        exact ⟨i, by omega, hv, fun i' hi' hlt => hl i' (by omega) hlt⟩
    · rw [Option.some_or, Option.some.injEq]
      constructor
      · rintro rfl
        exact ⟨n, by omega, hn, fun i' hi' hlt => absurd hi' (by omega)⟩
      · rintro ⟨i, hi, hv, hl⟩
        rcases Nat.lt_succ_iff_lt_or_eq.mp hi with h | rfl
        · rw [hl n (by omega) h] at hn; cases hn
        · rw [hn, Option.some.injEq] at hv; exact hv

end Store
