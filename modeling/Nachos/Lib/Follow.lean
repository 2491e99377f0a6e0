import Nachos.Lib.Run
import Mathlib.Logic.Relation

/-!
# Systems that follow one course

A course is a partial function `next : C → Option C`. A system follows it when every step is the next
one of the course or an idle one, and no more than a bounded number of idle steps can come one after
the other. If the course ends, so does every run of the system, whatever the order of the steps.
-/

namespace Run

variable {S L C : Type*} {step : S → L → Option S} {next : C → Option C}

/-- The course goes from the first place to the second. -/
def Goes (next : C → Option C) : C → C → Prop := Relation.ReflTransGen fun c c' => next c = some c'

theorem Goes.refl (c : C) : Goes next c c := Relation.ReflTransGen.refl

theorem Goes.trans {a b c : C} (h₁ : Goes next a b) (h₂ : Goes next b c) : Goes next a c :=
  Relation.ReflTransGen.trans h₁ h₂

theorem Goes.head {a b c : C} (h₁ : next a = some b) (h₂ : Goes next b c) : Goes next a c :=
  Relation.ReflTransGen.head h₁ h₂

theorem Goes.single {a b : C} (h : next a = some b) : Goes next a b :=
  Relation.ReflTransGen.single h

/-- States of the system at places of the course: a step is the next one or an idle one, and there are
never more than `bound` idle steps ahead. -/
structure Follows (step : S → L → Option S) (next : C → Option C) (at_ : S → C → Prop)
    (idle : S → ℕ) (bound : ℕ) : Prop where
  bounded : ∀ s c, at_ s c → idle s ≤ bound
  step : ∀ s c c' l s', at_ s c → next c = some c' → step s l = some s' →
    at_ s' c' ∨ at_ s' c ∧ idle s' < idle s

variable {at_ : S → C → Prop} {idle : S → ℕ} {bound : ℕ}

/-- A run from a place on the way to a place where the system stops has at most `n` steps, and is on
the way at its end. -/
theorem Follows.exec {last : C} (hf : Follows step next at_ idle bound)
    (hlast : ∀ s l, at_ s last → step s l = none) {c : C} (hc : Goes next c last) :
    ∃ n, ∀ (ls : List L) (s s' : S), at_ s c → exec step s ls = some s' →
      ls.length ≤ n ∧ ∃ c', at_ s' c' ∧ Goes next c' last := by
  induction hc using Relation.ReflTransGen.head_induction_on with
  | refl =>
    refine ⟨0, fun ls s s' hs he => ?_⟩
    cases ls with
    | nil =>
      obtain rfl : s = s' := Option.some.inj he
      exact ⟨Nat.le_refl 0, last, hs, Goes.refl last⟩
    | cons l ls =>
      obtain ⟨s₁, h₁, -⟩ := exec_cons_eq_some.mp he
      rw [hlast s l hs] at h₁
      cases h₁
  | @head c c₁ hnext hgoes ih =>
    obtain ⟨n, ih⟩ := ih
    refine ⟨bound + 1 + n, fun ls s s' hs he => ?_⟩
    -- along the idle steps that come before the next one
    suffices h : ls.length ≤ idle s + 1 + n ∧ ∃ c', at_ s' c' ∧ Goes next c' last by
      have := hf.bounded s c hs
      exact ⟨by omega, h.2⟩
    induction ls generalizing s with
    | nil =>
      obtain rfl : s = s' := Option.some.inj he
      exact ⟨Nat.zero_le _, c, hs, Goes.head hnext hgoes⟩
    | cons l ls ihls =>
      obtain ⟨s₁, h₁, h₂⟩ := exec_cons_eq_some.mp he
      rw [List.length_cons]
      rcases hf.step s c c₁ l s₁ hs hnext h₁ with hs₁ | ⟨hs₁, hidle⟩
      · obtain ⟨hlen, h⟩ := ih ls s₁ s' hs₁ h₂
        exact ⟨by omega, h⟩
      · obtain ⟨hlen, h⟩ := ihls s₁ hs₁ h₂
        exact ⟨by omega, h⟩

end Run
