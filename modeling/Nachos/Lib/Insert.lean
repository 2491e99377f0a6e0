import Mathlib.Data.List.Sort

/-!
# Insertion by a key

`insertBy key a l` puts `a` before the first element with a larger key, so behind those with the
same key. On a list sorted by the key it keeps any relation that respects this place.
-/

namespace Insert

variable {α K : Type*} [LinearOrder K] (key : α → K)

/-- The keys do not decrease along the list. -/
def Sorted (l : List α) : Prop := l.Pairwise fun a b => key a ≤ key b

/-- `a` goes before the first element with a larger key. -/
def insertBy (a : α) (l : List α) : List α := l.orderedInsert (fun a b => key a < key b) a

variable {key} {a b : α} {l : List α}

@[simp] theorem insertBy_nil : insertBy key a [] = [a] := rfl

theorem insertBy_cons_of_lt (h : key a < key b) : insertBy key a (b :: l) = a :: b :: l :=
  if_pos h

theorem insertBy_cons_of_le (h : key b ≤ key a) :
    insertBy key a (b :: l) = b :: insertBy key a l :=
  if_neg (not_lt.mpr h)

theorem insertBy_perm : (insertBy key a l).Perm (a :: l) := List.perm_orderedInsert _ a l

@[simp] theorem mem_insertBy : b ∈ insertBy key a l ↔ b = a ∨ b ∈ l := List.mem_orderedInsert _

/-- A relation that holds between `a` and each element on the side where `a` goes. -/
theorem pairwise_insertBy {R : α → α → Prop} (hs : Sorted key l) (h : l.Pairwise R)
    (hlt : ∀ b ∈ l, key a < key b → R a b) (hle : ∀ b ∈ l, key b ≤ key a → R b a) :
    (insertBy key a l).Pairwise R := by
  induction l with
  | nil => exact List.pairwise_singleton R a
  | cons c l ih =>
    obtain ⟨hc, hs'⟩ := List.pairwise_cons.mp hs
    obtain ⟨hR, h'⟩ := List.pairwise_cons.mp h
    rcases lt_or_ge (key a) (key c) with hac | hca
    · rw [insertBy_cons_of_lt hac]
      refine List.pairwise_cons.mpr ⟨fun b hb => hlt b hb ?_, h⟩
      rcases List.mem_cons.mp hb with rfl | hb
      · exact hac
      · exact lt_of_lt_of_le hac (hc b hb)
    · rw [insertBy_cons_of_le hca]
      refine List.pairwise_cons.mpr ⟨fun b hb => ?_, ih hs' h' ?_ ?_⟩
      · rcases mem_insertBy.mp hb with rfl | hb
        · exact hle c List.mem_cons_self hca
        · exact hR b hb
      · exact fun b hb => hlt b (List.mem_cons_of_mem c hb)
      · exact fun b hb => hle b (List.mem_cons_of_mem c hb)

theorem Sorted.insertBy (hs : Sorted key l) : Sorted key (insertBy key a l) :=
  pairwise_insertBy hs hs (fun _ _ h => le_of_lt h) fun _ _ h => h

/-- The place of `a` in any list. -/
theorem insertBy_append {l₂ : List α} (h₁ : ∀ b ∈ l, key b ≤ key a)
    (h₂ : ∀ b, l₂.head? = some b → key a < key b) :
    insertBy key a (l ++ l₂) = l ++ a :: l₂ := by
  induction l with
  | nil =>
    cases l₂ with
    | nil => rfl
    | cons b l₂ => exact insertBy_cons_of_lt (h₂ b rfl)
  | cons b l ih =>
    rw [List.cons_append, insertBy_cons_of_le (h₁ b List.mem_cons_self),
      ih fun b hb => h₁ b (List.mem_cons_of_mem _ hb), List.cons_append]

theorem filter_insertBy_of_false {p : α → Bool} (ha : p a = false) :
    (insertBy key a l).filter p = l.filter p := by
  induction l with
  | nil => simp [ha]
  | cons c l ih =>
    rcases lt_or_ge (key a) (key c) with hac | hca
    · rw [insertBy_cons_of_lt hac, List.filter_cons_of_neg (by simp [ha])]
    · rw [insertBy_cons_of_le hca, List.filter_cons, List.filter_cons, ih]

/-- An element that was taken from the front comes back there only if it has the smallest key by
itself. -/
theorem insertBy_eq_cons_iff (ha : a ∉ l) :
    insertBy key a l = a :: l ↔ ∀ b, l.head? = some b → key a < key b := by
  cases l with
  | nil => simp
  | cons c l =>
    rw [List.head?_cons]
    constructor
    · intro h b hb
      obtain rfl := Option.some.inj hb
      by_contra hn
      rw [insertBy_cons_of_le (not_lt.mp hn)] at h
      exact ha ((List.cons.inj h).1 ▸ List.mem_cons_self)
    · intro h
      exact insertBy_cons_of_lt (h c rfl)

/-- Below a bound on the keys, what is at the front of a sorted list decides. -/
theorem Sorted.filter_le_eq_nil {t : K} (hs : Sorted key (a :: l)) (h : t < key a) :
    (a :: l).filter (fun b => key b ≤ t) = [] := by
  rw [List.filter_eq_nil_iff]
  intro b hb
  rcases List.mem_cons.mp hb with rfl | hb
  · simpa using h
  · simpa using lt_of_lt_of_le h ((List.pairwise_cons.mp hs).1 b hb)

end Insert
