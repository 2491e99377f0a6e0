import Mathlib.Data.List.Basic
import Mathlib.Logic.Function.Basic

/-!
# Things on lists, each on at most one

A family of lists, and for each thing the list that it is on, if any. `Holds` says that the thing
occurs once on this list and on no other one. `push` and `pop` are the two ways in which a queue
changes: a thing that is on no list goes to the end of one, the first of a list goes off it.

`Holder` is for things that are at points of a program, some of them points at which the thing holds
a lock: `w` is the one that does, if any.
-/

namespace Places

variable {α ι : Type*} [DecidableEq α] [DecidableEq ι]

/-- Each thing occurs once on the list it is on, and on no other one. -/
def Holds (lists : ι → List α) (place : α → Option ι) : Prop :=
  ∀ a k, (lists k).count a = if place a = some k then 1 else 0

variable {lists : ι → List α} {place : α → Option ι} {a : α} {k : ι}

theorem Holds.place_of_mem (h : Holds lists place) (ha : a ∈ lists k) : place a = some k := by
  by_contra hne
  have hcount := h a k
  rw [if_neg hne] at hcount
  exact List.count_eq_zero.mp hcount ha

theorem Holds.push (h : Holds lists place) (ha : place a = none) (k : ι) :
    Holds (Function.update lists k (lists k ++ [a])) (Function.update place a (some k)) := by
  intro b l
  have hb := h b l
  by_cases hba : b = a
  · subst hba
    rw [ha, if_neg nofun] at hb
    rw [Function.update_self]
    by_cases hl : l = k
    · subst hl
      rw [Function.update_self, List.count_append, hb, if_pos rfl, List.count_singleton_self]
    · rw [Function.update_of_ne hl, hb, if_neg fun e => hl (Option.some.inj e).symm]
  · rw [Function.update_of_ne hba, ← hb]
    by_cases hl : l = k
    · subst hl
      rw [Function.update_self, List.count_append, List.count_singleton,
        if_neg (by simpa using fun e => hba e.symm), Nat.add_zero]
    · rw [Function.update_of_ne hl]

theorem Holds.pop (h : Holds lists place) {rest : List α} (hl : lists k = a :: rest) :
    Holds (Function.update lists k rest) (Function.update place a none) := by
  intro b l
  have hb := h b l
  by_cases hba : b = a
  · subst hba
    have hplace : place b = some k := h.place_of_mem (by rw [hl]; exact List.mem_cons_self)
    rw [Function.update_self, if_neg nofun]
    rw [hplace] at hb
    by_cases hlk : l = k
    · subst hlk
      rw [hl, if_pos rfl, List.count_cons_self] at hb
      rw [Function.update_self]
      omega
    · rw [Function.update_of_ne hlk, hb, if_neg fun e => hlk (Option.some.inj e).symm]
  · rw [Function.update_of_ne hba, ← hb]
    by_cases hlk : l = k
    · subst hlk
      rw [Function.update_self, hl, List.count_cons_of_ne fun e => hba e.symm]
    · rw [Function.update_of_ne hlk]

section Holder

variable {π : Type*} {holds : π → Prop} {point : α → Option π} {w : Option α} {t : α}

/-- `w` is the only thing at a point where it holds the lock. -/
def Holder (holds : π → Prop) (point : α → Option π) (w : Option α) : Prop :=
  ∀ t, (∃ p, point t = some p ∧ holds p) ↔ w = some t

omit [DecidableEq α] in
theorem Holder.eq_some (h : Holder holds point w) {p : π} (hp : point t = some p) (hh : holds p) :
    w = some t :=
  (h t).mp ⟨p, hp, hh⟩

/-- The lock is free or held by `t`, and `t` holds it then. -/
theorem Holder.take (h : Holder holds point w) (hw : w = none ∨ w = some t) {p : π} (hp : holds p) :
    Holder holds (Function.update point t (some p)) (some t) := by
  intro u
  by_cases hu : u = t
  · subst hu
    rw [Function.update_self]
    exact ⟨fun _ => rfl, fun _ => ⟨p, rfl, hp⟩⟩
  · rw [Function.update_of_ne hu, h u]
    rcases hw with rfl | rfl
    · exact ⟨nofun, fun e => absurd (Option.some.inj e).symm hu⟩
    · exact Iff.rfl

/-- `t` goes to a point where it does not hold the lock. -/
theorem Holder.leave (h : Holder holds point (some t)) {p : Option π} (hp : ∀ q ∈ p, ¬ holds q) :
    Holder holds (Function.update point t p) none := by
  intro u
  by_cases hu : u = t
  · subst hu
    rw [Function.update_self]
    refine ⟨?_, nofun⟩
    rintro ⟨q, hq, hh⟩
    exact absurd hh (hp q hq)
  · rw [Function.update_of_ne hu, h u]
    exact ⟨fun e => absurd (Option.some.inj e).symm hu, nofun⟩

/-- `t` does not hold the lock, before and after. -/
theorem Holder.pass (h : Holder holds point w) (ht : w ≠ some t) {p : Option π}
    (hp : ∀ q ∈ p, ¬ holds q) : Holder holds (Function.update point t p) w := by
  intro u
  by_cases hu : u = t
  · subst hu
    rw [Function.update_self]
    refine ⟨?_, fun e => absurd e ht⟩
    rintro ⟨q, hq, hh⟩
    exact absurd hh (hp q hq)
  · rw [Function.update_of_ne hu]
    exact h u

end Holder

end Places
