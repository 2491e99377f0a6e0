import Mathlib.Algebra.BigOperators.Group.List.Lemmas
import Mathlib.Data.Int.Interval
import Mathlib.Data.Finset.Card

/-!
# Intervals that tile an interval

Half-open intervals of integers, given by a start and a length. Laid end to end they cover exactly
one interval (`Tiles.covers_iff`). Conversely, intervals that cover an interval as long as they are
together can be laid end to end (`exists_tiles`): by counting, none of them overlap.
-/

namespace Tiling

variable {α : Type*} (start len : α → ℤ)

/-- The intervals, in this order, lie end to end from `e` on. -/
def Tiles : ℤ → List α → Prop
  | _, [] => True
  | e, a :: l => start a = e ∧ Tiles (e + len a) l

def Covers (l : List α) (x : ℤ) : Prop := ∃ a ∈ l, start a ≤ x ∧ x < start a + len a

/-- The length of all intervals together. -/
def total (l : List α) : ℤ := (l.map len).sum

variable {start len}

@[simp] theorem total_nil : total len ([] : List α) = 0 := rfl

@[simp] theorem total_cons (a : α) (l : List α) : total len (a :: l) = len a + total len l := by
  simp [total]

theorem total_perm {l l' : List α} (h : l.Perm l') : total len l = total len l' :=
  (h.map len).sum_eq

theorem covers_cons {a : α} {l : List α} {x : ℤ} :
    Covers start len (a :: l) x ↔ (start a ≤ x ∧ x < start a + len a) ∨ Covers start len l x := by
  simp [Covers]

theorem covers_perm {l l' : List α} (h : l.Perm l') {x : ℤ} :
    Covers start len l x ↔ Covers start len l' x := by
  simp only [Covers, h.mem_iff]

theorem total_nonneg {l : List α} (hpos : ∀ a ∈ l, 0 < len a) : 0 ≤ total len l := by
  induction l with
  | nil => simp
  | cons a l ih =>
    have ha := hpos a List.mem_cons_self
    have hl := ih fun b hb => hpos b (List.mem_cons_of_mem a hb)
    rw [total_cons]
    omega

/-- Intervals laid end to end cover one interval. -/
theorem Tiles.covers_iff {e : ℤ} {l : List α} (hpos : ∀ a ∈ l, 0 < len a)
    (h : Tiles start len e l) (x : ℤ) :
    Covers start len l x ↔ e ≤ x ∧ x < e + total len l := by
  induction l generalizing e with
  | nil => simp [Covers]
  | cons a l ih =>
    obtain ⟨rfl, hl⟩ := h
    have ha := hpos a List.mem_cons_self
    have hpos' : ∀ b ∈ l, 0 < len b := fun b hb => hpos b (List.mem_cons_of_mem a hb)
    have hsum := total_nonneg hpos'
    rw [covers_cons, ih hpos' hl, total_cons]
    omega

/-- The points that the intervals cover are not more than they are long. -/
theorem card_le_total (s : Finset ℤ) {l : List α} (hpos : ∀ a ∈ l, 0 < len a)
    (h : ∀ x ∈ s, Covers start len l x) : (s.card : ℤ) ≤ total len l := by
  induction l generalizing s with
  | nil =>
    have hs : s = ∅ := Finset.eq_empty_of_forall_notMem fun x hx => by
      obtain ⟨a, ha, -⟩ := h x hx
      cases ha
    simp [hs]
  | cons a l ih =>
    have ha := hpos a List.mem_cons_self
    have hrest := ih (s \ Finset.Ico (start a) (start a + len a))
      (fun b hb => hpos b (List.mem_cons_of_mem a hb)) fun x hx => by
        rw [Finset.mem_sdiff, Finset.mem_Ico] at hx
        exact (covers_cons.mp (h x hx.1)).resolve_left hx.2
    have hcard : s.card ≤ (s \ Finset.Ico (start a) (start a + len a)).card +
        (Finset.Ico (start a) (start a + len a)).card := Finset.card_le_card_sdiff_add_card
    rw [Int.card_Ico] at hcard
    rw [total_cons]
    omega

/-- If the intervals cover an interval as long as they are together, the ones that remain after the
first cover what remains of it. -/
theorem covers_rest {a : α} {l : List α} (hpos : ∀ b ∈ a :: l, 0 < len b)
    (h : ∀ x, Covers start len (a :: l) x ↔
      start a ≤ x ∧ x < start a + total len (a :: l)) (x : ℤ) :
    Covers start len l x ↔ start a + len a ≤ x ∧ x < start a + len a + total len l := by
  have ha := hpos a List.mem_cons_self
  have hpos' : ∀ b ∈ l, 0 < len b := fun b hb => hpos b (List.mem_cons_of_mem a hb)
  have hsum := total_nonneg hpos'
  have hback : ∀ y, start a + len a ≤ y ∧ y < start a + len a + total len l →
      Covers start len l y := by
    rintro y ⟨h1, h2⟩
    have hy := (h y).mpr (by rw [total_cons]; omega)
    exact (covers_cons.mp hy).resolve_left (by omega)
  refine ⟨fun hx => ?_, hback x⟩
  have hin := (h x).mp (covers_cons.mpr (Or.inr hx))
  rw [total_cons] at hin
  refine ⟨?_, by omega⟩
  by_contra hlt
  -- otherwise `l` covers one point more than it is long
  have hcard := card_le_total (insert x (Finset.Ico (start a + len a)
    (start a + len a + total len l))) hpos' fun y hy => by
      rcases Finset.mem_insert.mp hy with rfl | hy
      · exact hx
      · exact hback y (Finset.mem_Ico.mp hy)
  rw [Finset.card_insert_of_notMem (by rw [Finset.mem_Ico]; omega), Int.card_Ico] at hcard
  omega

/-- Intervals that cover an interval as long as they are together can be laid end to end. -/
theorem exists_tiles {e : ℤ} {l : List α} (hpos : ∀ a ∈ l, 0 < len a)
    (h : ∀ x, Covers start len l x ↔ e ≤ x ∧ x < e + total len l) :
    ∃ l', l'.Perm l ∧ Tiles start len e l' := by
  induction hn : l.length generalizing e l with
  | zero =>
    obtain rfl := List.eq_nil_of_length_eq_zero hn
    exact ⟨[], .nil, trivial⟩
  | succ n ih =>
    have hne : 0 < total len l := by
      cases l with
      | nil => cases hn
      | cons b l =>
        have hb := hpos b List.mem_cons_self
        have := total_nonneg fun c hc => hpos c (List.mem_cons_of_mem b hc)
        rw [total_cons]
        omega
    obtain ⟨a, ha, hle, hlt⟩ := (h e).mpr (by omega)
    have hpa := hpos a ha
    have hea : start a = e := by
      have := (h (start a)).mp ⟨a, ha, by omega, by omega⟩
      omega
    obtain ⟨l₁, l₂, rfl⟩ := List.append_of_mem ha
    have hperm : (a :: (l₁ ++ l₂)).Perm (l₁ ++ a :: l₂) := List.perm_middle.symm
    have hpos' : ∀ b ∈ a :: (l₁ ++ l₂), 0 < len b := fun b hb => hpos b (hperm.mem_iff.mp hb)
    have hrest := @covers_rest _ start len _ _ hpos' fun x => by
      rw [covers_perm hperm, total_perm hperm, hea, h]
    rw [hea] at hrest
    obtain ⟨l', hl', ht⟩ := ih (fun b hb => hpos' b (List.mem_cons_of_mem a hb)) hrest
      (by simp at hn ⊢; omega)
    exact ⟨a :: l', (hl'.cons a).trans hperm, hea, hea ▸ ht⟩

end Tiling
