import Mathlib.Data.List.Nodup
import Mathlib.Data.List.Range
import Mathlib.Data.Finset.Basic
import Nachos.Machine.Basic

/-!
# The bitmap of `bitmap.cc`

`map` is the array of 32-bit words, `numBits` the number of bits managed. Bit `which` is bit
`which % 32` of word `which / 32`. The callers' indices are in range, so that the `ASSERT`s of
`Mark`, `Clear` and `Test` hold; where an index comes from data, the caller's model tests
`BitMap.inRange` itself.

`clearBits` lists the clear bits in increasing order. It is the abstraction all users of a bitmap
reason with: `find` takes its head (`find_eq`), `numClear` is its length, and `mark` and `clear`
change the membership of their own bit only (`test_mark`, `test_clear`).
-/

namespace Nachos

abbrev bitsInWord : ℕ := 32

structure BitMap where
  numBits : ℕ
  map : ℕ → Word

namespace BitMap

/-- The word with bit `which` of its word set: `1 << (which % BitsInWord)`. -/
def mask (which : ℕ) : Word := 1#32 <<< (which % bitsInWord)

/-- The condition of the `ASSERT`s. -/
def inRange (b : BitMap) (which : ℤ) : Bool := 0 ≤ which && which < b.numBits

/-- The array assignment `map[i] = w`. -/
def put (b : BitMap) (i : ℕ) (w : Word) : BitMap := { b with map := Function.update b.map i w }

def mark (b : BitMap) (which : ℕ) : BitMap :=
  b.put (which / bitsInWord) (b.map (which / bitsInWord) ||| mask which)

def clear (b : BitMap) (which : ℕ) : BitMap :=
  b.put (which / bitsInWord) (b.map (which / bitsInWord) &&& ~~~(mask which))

def test (b : BitMap) (which : ℕ) : Bool := b.map (which / bitsInWord) &&& mask which != 0

/-- The constructor: the words are not initialised (`words`), then every bit is cleared. -/
def new (words : ℕ → Word) (nitems : ℕ) : BitMap :=
  (List.range nitems).foldl clear { numBits := nitems, map := words }

/-- `Find`: the first clear bit, which is marked, or `-1`. -/
def find (b : BitMap) : ℤ × BitMap :=
  match (List.range b.numBits).find? fun i => !b.test i with
  | some i => (i, b.mark i)
  | none => (-1, b)

def numClear (b : BitMap) : ℕ := (List.range b.numBits).countP fun i => !b.test i

/-- The clear bits in increasing order. -/
def clearBits (b : BitMap) : List ℕ := (List.range b.numBits).filter fun i => !b.test i

/-- The set bits. -/
def marked (b : BitMap) : Finset ℕ := (Finset.range b.numBits).filter fun i => b.test i = true

/-! ## Single bits -/

@[simp] theorem mark_numBits (b : BitMap) (which : ℕ) : (b.mark which).numBits = b.numBits := rfl

@[simp] theorem clear_numBits (b : BitMap) (which : ℕ) : (b.clear which).numBits = b.numBits := rfl

theorem getLsbD_mask (which j : ℕ) : (mask which).getLsbD j = decide (which % bitsInWord = j) := by
  have h : which % bitsInWord < 32 := Nat.mod_lt _ (by decide)
  have e : mask which = BitVec.twoPow 32 (which % bitsInWord) := rfl
  rw [e, BitVec.getLsbD_twoPow, decide_eq_true h, Bool.true_and]

theorem test_eq_getLsbD (b : BitMap) (which : ℕ) :
    b.test which = (b.map (which / bitsInWord)).getLsbD (which % bitsInWord) := by
  have h : which % bitsInWord < 32 := Nat.mod_lt _ (by decide)
  have e : mask which = BitVec.twoPow 32 (which % bitsInWord) := rfl
  unfold test
  rw [e, BitVec.and_twoPow]
  cases hb : (b.map (which / bitsInWord)).getLsbD (which % bitsInWord)
  · simp
  · have h0 : BitVec.twoPow 32 (which % bitsInWord) ≠ 0 := by
      intro h0
      have := congrArg (fun x => BitVec.getLsbD x (which % bitsInWord)) h0
      simp [h] at this
    simpa using h0

theorem eq_of_div_mod {i j : ℕ} (hd : i / bitsInWord = j / bitsInWord)
    (hm : i % bitsInWord = j % bitsInWord) : i = j := by
  rw [← Nat.div_add_mod i bitsInWord, hd, hm, Nat.div_add_mod]

theorem test_mark (b : BitMap) (which i : ℕ) :
    (b.mark which).test i = (decide (i = which) || b.test i) := by
  simp only [test_eq_getLsbD, mark, put]
  by_cases hd : i / bitsInWord = which / bitsInWord
  · rw [hd, Function.update_self, BitVec.getLsbD_or, getLsbD_mask, Bool.or_comm]
    by_cases hm : which % bitsInWord = i % bitsInWord
    · simp [hm, eq_of_div_mod hd hm.symm]
    · have : i ≠ which := fun h => hm (by rw [h])
      simp [hm, this]
  · have : i ≠ which := fun h => hd (by rw [h])
    rw [Function.update_of_ne hd]
    simp [this]

theorem test_clear (b : BitMap) (which i : ℕ) :
    (b.clear which).test i = (decide (i ≠ which) && b.test i) := by
  have hi : i % bitsInWord < 32 := Nat.mod_lt _ (by decide)
  simp only [test_eq_getLsbD, clear, put]
  by_cases hd : i / bitsInWord = which / bitsInWord
  · rw [hd, Function.update_self, BitVec.getLsbD_and, BitVec.getLsbD_not, getLsbD_mask,
      Bool.and_comm]
    by_cases hm : which % bitsInWord = i % bitsInWord
    · simp [hm, eq_of_div_mod hd hm.symm]
    · have : i ≠ which := fun h => hm (by rw [h])
      simp [hm, this, hi]
  · have : i ≠ which := fun h => hd (by rw [h])
    rw [Function.update_of_ne hd]
    simp [this]

/-! ## The sets of clear and of marked bits -/

theorem mem_clearBits {b : BitMap} {i : ℕ} :
    i ∈ b.clearBits ↔ i < b.numBits ∧ b.test i = false := by
  simp [clearBits]

theorem mem_marked {b : BitMap} {i : ℕ} : i ∈ b.marked ↔ i < b.numBits ∧ b.test i = true := by
  simp [marked]

theorem clearBits_pairwise (b : BitMap) : b.clearBits.Pairwise (· < ·) :=
  List.Pairwise.filter _ List.pairwise_lt_range

theorem clearBits_nodup (b : BitMap) : b.clearBits.Nodup := List.Nodup.filter _ List.nodup_range

@[simp] theorem length_clearBits (b : BitMap) : b.clearBits.length = b.numClear :=
  List.countP_eq_length_filter.symm

theorem clearBits_mark (b : BitMap) (which : ℕ) :
    (b.mark which).clearBits = b.clearBits.filter fun i => decide (i ≠ which) := by
  unfold clearBits
  rw [List.filter_filter]
  refine List.filter_congr fun i _ => ?_
  rw [test_mark]
  by_cases h : i = which <;> simp [h]

theorem numClear_mark {b : BitMap} {which : ℕ} (h : which < b.numBits) (ht : b.test which = false) :
    (b.mark which).numClear + 1 = b.numClear := by
  have hmem : which ∈ b.clearBits := mem_clearBits.mpr ⟨h, ht⟩
  have hpos : 0 < b.clearBits.length := List.length_pos_of_mem hmem
  have hfilter : (b.mark which).clearBits = b.clearBits.erase which := by
    rw [clearBits_mark, b.clearBits_nodup.erase_eq_filter]
    refine List.filter_congr fun i _ => ?_
    rw [Bool.eq_iff_iff, decide_eq_true_iff, bne_iff_ne]
  rw [← length_clearBits, ← length_clearBits, hfilter, List.length_erase_of_mem hmem]
  omega

theorem marked_mark {b : BitMap} {which : ℕ} (h : which < b.numBits) :
    (b.mark which).marked = insert which b.marked := by
  ext i
  rw [Finset.mem_insert, mem_marked, mem_marked, mark_numBits, test_mark]
  by_cases hi : i = which
  · simp [hi, h]
  · simp [hi]

theorem marked_clear (b : BitMap) (which : ℕ) : (b.clear which).marked = b.marked.erase which := by
  ext i
  rw [Finset.mem_erase, mem_marked, mem_marked, clear_numBits, test_clear]
  by_cases hi : i = which
  · simp [hi]
  · simp [hi]

/-! ## `Find` -/

theorem find_eq {b : BitMap} {x : ℕ} {xs : List ℕ} (h : b.clearBits = x :: xs) :
    b.find = ((x : ℤ), b.mark x) := by
  have hf : (List.range b.numBits).find? (fun i => !b.test i) = some x := by
    rw [← List.head?_filter]
    exact congrArg List.head? h
  unfold find
  rw [hf]

theorem find_full {b : BitMap} (h : b.clearBits = []) : b.find = (-1, b) := by
  have hf : (List.range b.numBits).find? (fun i => !b.test i) = none := by
    rw [← List.head?_filter]
    exact congrArg List.head? h
  unfold find
  rw [hf]

/-- Marking the first clear bit leaves the others clear, in the same order. -/
theorem clearBits_mark_head {b : BitMap} {x : ℕ} {xs : List ℕ} (h : b.clearBits = x :: xs) :
    (b.mark x).clearBits = xs := by
  have hn : (x :: xs).Nodup := h ▸ b.clearBits_nodup
  have hx : x ∉ xs := (List.nodup_cons.mp hn).1
  rw [clearBits_mark, h, List.filter_cons]
  simp only [ne_eq, not_true_eq_false, decide_false, Bool.false_eq_true, if_false]
  refine List.filter_eq_self.mpr fun i hi => ?_
  have : i ≠ x := fun e => hx (e ▸ hi)
  simpa using this

/-- `Find` answers `-1` exactly on a full bitmap, and else a bit that was clear. -/
theorem find_cases (b : BitMap) :
    (b.clearBits = [] ∧ b.find = (-1, b)) ∨
      ∃ x, x < b.numBits ∧ b.test x = false ∧ b.find = ((x : ℤ), b.mark x) := by
  rcases hc : b.clearBits with _ | ⟨x, xs⟩
  · exact Or.inl ⟨rfl, find_full hc⟩
  · have hx : x ∈ b.clearBits := by rw [hc]; exact List.mem_cons_self
    obtain ⟨hlt, ht⟩ := mem_clearBits.mp hx
    exact Or.inr ⟨x, hlt, ht, find_eq hc⟩

/-! ## The constructor -/

theorem foldl_clear_numBits (l : List ℕ) (b : BitMap) :
    (l.foldl clear b).numBits = b.numBits := by
  induction l generalizing b with
  | nil => rfl
  | cons x l ih => rw [List.foldl_cons, ih, clear_numBits]

theorem test_foldl_clear (l : List ℕ) (b : BitMap) (i : ℕ) :
    (l.foldl clear b).test i = (decide (i ∉ l) && b.test i) := by
  induction l generalizing b with
  | nil => simp
  | cons x l ih =>
    rw [List.foldl_cons, ih, test_clear, ← Bool.and_assoc]
    congr 1
    by_cases h : i = x <;> simp [h]

theorem marked_foldl_clear (l : List ℕ) (b : BitMap) :
    (l.foldl clear b).marked = b.marked \ l.toFinset := by
  ext i
  rw [Finset.mem_sdiff, mem_marked, mem_marked, foldl_clear_numBits, test_foldl_clear,
    List.mem_toFinset]
  simp only [Bool.and_eq_true, decide_eq_true_eq]
  tauto

@[simp] theorem new_numBits (words : ℕ → Word) (n : ℕ) : (new words n).numBits = n :=
  foldl_clear_numBits _ _

theorem test_new (words : ℕ → Word) {n i : ℕ} (h : i < n) : (new words n).test i = false := by
  unfold new
  rw [test_foldl_clear]
  simp [h]

theorem clearBits_new (words : ℕ → Word) (n : ℕ) : (new words n).clearBits = List.range n := by
  unfold clearBits
  rw [new_numBits]
  refine List.filter_eq_self.mpr fun i hi => ?_
  rw [test_new words (List.mem_range.mp hi)]
  rfl

theorem marked_new (words : ℕ → Word) (n : ℕ) : (new words n).marked = ∅ := by
  refine Finset.eq_empty_of_forall_notMem fun i hi => ?_
  obtain ⟨hlt, ht⟩ := mem_marked.mp hi
  rw [test_new words (by simpa using hlt)] at ht
  exact Bool.false_ne_true ht

end BitMap

end Nachos
