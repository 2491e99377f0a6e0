import Mathlib.Data.Finset.Max
import Nachos.Filesys.Operations
import Nachos.Filesys.Stub
import Nachos.Lib.Run

/-!
# A bitmap is a set

`respond` says what the calls of `bitmap.h` do on a finite set of numbers below `n`. The words of a
bitmap represent such a set (`Represents`), and a call with its index below `n` answers as it does
(`call_marked`). The words behind the last one of the bitmap are not touched (`call_map_of_le`).

A bitmap that fills its words is kept in a file of `n / 8` bytes, of the file system or of the host.
-/

namespace Nachos

namespace BitMap

inductive Call where
  | mark (which : ℤ)
  | clear (which : ℤ)
  | test (which : ℤ)
  | find
  | numClear
  deriving DecidableEq, Repr

/-- What a call returns. -/
inductive Answer where
  | done
  | bool (value : Bool)
  | int (value : ℤ)
  deriving DecidableEq, Repr

/-- A call of one of the functions; `none` is a failed `ASSERT`. -/
def call (b : BitMap) : Call → Option (Answer × BitMap)
  | .mark which => if b.inRange which then some (.done, b.mark which.toNat) else none
  | .clear which => if b.inRange which then some (.done, b.clear which.toNat) else none
  | .test which => if b.inRange which then some (.bool (b.test which.toNat), b) else none
  | .find => some (.int b.find.1, b.find.2)
  | .numClear => some (.int b.numClear, b)

/-- A call, with the answers so far. -/
def step (s : BitMap × List Answer) (c : Call) : Option (BitMap × List Answer) :=
  (s.1.call c).map fun (answer, b) => (b, s.2 ++ [answer])

/-- The indices are in `0..n-1`. -/
def Call.InRange (n : ℕ) : Call → Prop
  | .mark which | .clear which | .test which => 0 ≤ which ∧ which < n
  | .find | .numClear => True

instance (n : ℕ) : DecidablePred (Call.InRange n)
  | .mark _ | .clear _ | .test _ => inferInstanceAs (Decidable (_ ∧ _))
  | .find | .numClear => isTrue trivial

/-! ## The set -/

/-- The calls on a set of numbers below `n`. -/
def respond (n : ℕ) (S : Finset ℕ) : Call → Answer × Finset ℕ
  | .mark which => (.done, insert which.toNat S)
  | .clear which => (.done, S.erase which.toNat)
  | .test which => (.bool (which.toNat ∈ S), S)
  | .find =>
    if h : (Finset.range n \ S).Nonempty then
      (.int ((Finset.range n \ S).min' h), insert ((Finset.range n \ S).min' h) S)
    else (.int (-1), S)
  | .numClear => (.int (n - S.card), S)

/-- A call on the set, with the answers so far. -/
def next (n : ℕ) (r : Finset ℕ × List Answer) (c : Call) : Finset ℕ × List Answer :=
  ((respond n r.1 c).2, r.2 ++ [(respond n r.1 c).1])

/-- The set after the calls, and all answers. -/
def run (n : ℕ) (calls : List Call) : Finset ℕ × List Answer := calls.foldl (next n) (∅, [])

/-- The words represent a set of numbers below `n`. -/
structure Represents (b : BitMap) (n : ℕ) (S : Finset ℕ) : Prop where
  numBits : b.numBits = n
  bit : ∀ i, i ∈ S ↔ i < n ∧ (b.map (i / bitsInWord)).getLsbD (i % bitsInWord) = true

section

variable {b b' other : BitMap} {n : ℕ} {S : Finset ℕ}

theorem represents_iff : b.Represents n S ↔ b.numBits = n ∧ b.marked = S := by
  constructor
  · rintro ⟨hn, hbit⟩
    refine ⟨hn, Finset.ext fun i => ?_⟩
    rw [mem_marked, hbit, hn, test_eq_getLsbD]
  · rintro ⟨rfl, rfl⟩
    exact ⟨rfl, fun i => by rw [mem_marked, test_eq_getLsbD]⟩

theorem represents_new (words : ℕ → Word) (n : ℕ) : (new words n).Represents n ∅ :=
  represents_iff.mpr ⟨new_numBits words n, marked_new words n⟩

/-- Bitmaps with the same bits represent the same set. -/
theorem Represents.congr (h : b.Represents n S) (hn : b'.numBits = n)
    (ht : ∀ i < n, b'.test i = b.test i) : b'.Represents n S := by
  obtain ⟨hb, rfl⟩ := represents_iff.mp h
  refine represents_iff.mpr ⟨hn, Finset.ext fun i => ?_⟩
  rw [mem_marked, mem_marked, hn, hb]
  exact and_congr_right fun hi => by rw [ht i hi]

/-! ## One call -/

theorem toFinset_clearBits (b : BitMap) :
    b.clearBits.toFinset = Finset.range b.numBits \ b.marked := by
  ext i
  rw [List.mem_toFinset, mem_clearBits, Finset.mem_sdiff, Finset.mem_range, mem_marked]
  cases b.test i <;> simp

theorem numClear_add_card (b : BitMap) : b.numClear + b.marked.card = b.numBits := by
  have hsub : b.marked ⊆ Finset.range b.numBits := Finset.filter_subset _ _
  have hcard := Finset.card_sdiff_add_card_eq_card hsub
  rwa [← toFinset_clearBits, List.toFinset_card_of_nodup b.clearBits_nodup, length_clearBits,
    Finset.card_range] at hcard

/-- `Find` takes the least number that is not in the set. -/
theorem isLeast_clearBits {x : ℕ} {xs : List ℕ} (h : b.clearBits = x :: xs) :
    IsLeast (Finset.range b.numBits \ b.marked : Finset ℕ) x := by
  rw [← toFinset_clearBits, h]
  have hlt := h ▸ b.clearBits_pairwise
  constructor
  · simp
  · intro y hy
    rcases List.mem_cons.mp (List.mem_toFinset.mp hy) with rfl | hy
    · exact le_refl y
    · exact (List.rel_of_pairwise_cons hlt hy).le

theorem find_respond (b : BitMap) :
    (Answer.int b.find.1, b.find.2.marked) = respond b.numBits b.marked .find := by
  unfold respond
  rcases hc : b.clearBits with _ | ⟨x, xs⟩
  · have hfull : ¬ (Finset.range b.numBits \ b.marked).Nonempty := by
      rw [← toFinset_clearBits, hc]
      simp
    rw [dif_neg hfull, find_full hc]
  · have hleast := isLeast_clearBits hc
    have hfree : (Finset.range b.numBits \ b.marked).Nonempty := ⟨x, hleast.1⟩
    have hx : (Finset.range b.numBits \ b.marked).min' hfree = x :=
      (Finset.isLeast_min' _ hfree).unique hleast
    have hlt : x < b.numBits := Finset.mem_range.mp (Finset.mem_sdiff.mp hleast.1).1
    rw [dif_pos hfree, hx, find_eq hc, marked_mark hlt]

theorem inRange_of_lt {which : ℤ} (h : 0 ≤ which ∧ which < b.numBits) :
    b.inRange which = true ∧ which.toNat < b.numBits := by
  refine ⟨?_, by omega⟩
  unfold inRange
  simpa using h

/-- A call answers as it does on the set. -/
theorem call_marked {c : Call} (hc : c.InRange b.numBits) :
    ∃ b', b.call c = some ((respond b.numBits b.marked c).1, b') ∧ b'.numBits = b.numBits ∧
      b'.marked = (respond b.numBits b.marked c).2 := by
  cases c with
  | mark which =>
    obtain ⟨hr, hlt⟩ := inRange_of_lt hc
    exact ⟨_, if_pos hr, rfl, marked_mark hlt⟩
  | clear which =>
    obtain ⟨hr, -⟩ := inRange_of_lt hc
    exact ⟨_, if_pos hr, rfl, marked_clear b which.toNat⟩
  | test which =>
    obtain ⟨hr, hlt⟩ := inRange_of_lt hc
    have htest : b.test which.toNat = decide (which.toNat ∈ b.marked) := by
      rw [Bool.eq_iff_iff, decide_eq_true_iff, mem_marked]
      simp [hlt]
    refine ⟨b, ?_, rfl, rfl⟩
    show (if _ then some (Answer.bool (b.test which.toNat), b) else none) = some (Answer.bool _, b)
    rw [if_pos hr, htest]
  | find =>
    rw [← find_respond]
    refine ⟨_, rfl, ?_, rfl⟩
    exact (b.find_cases.elim (fun h => by rw [h.2]) fun ⟨x, _, _, h⟩ => by rw [h, mark_numBits])
  | numClear =>
    have hcard := b.numClear_add_card
    have hcard' : (b.numClear : ℤ) = b.numBits - b.marked.card := by omega
    exact ⟨b, congrArg (fun z => some (Answer.int z, b)) hcard', rfl, rfl⟩

/-! ## The words of the array -/

theorem index_lt (b : BitMap) {which : ℕ} (h : which < b.numBits) :
    which / bitsInWord < b.numWords := by
  have hle : b.numBits ≤ b.numWords * bitsInWord := le_divRoundUp_mul b.numBits (by decide)
  exact Nat.div_lt_of_lt_mul (by rw [mul_comm]; exact h.trans_le hle)

theorem put_map_of_le {which k : ℕ} (h : which < b.numBits) (hk : b.numWords ≤ k) (w : Word) :
    (b.put (which / bitsInWord) w).map k = b.map k :=
  Function.update_of_ne ((b.index_lt h).trans_le hk).ne' _ _

theorem new_map_of_le (words : ℕ → Word) (n : ℕ) {k : ℕ} (hk : divRoundUp n bitsInWord ≤ k) :
    (new words n).map k = words k := by
  have hloop : ∀ (l : List ℕ) (b : BitMap), b.numBits = n → (∀ i ∈ l, i < n) →
      (l.foldl clear b).map k = b.map k := by
    intro l
    induction l with
    | nil => exact fun _ _ _ => rfl
    | cons i l ih =>
      intro b hb hl
      have hi : i < b.numBits := hb ▸ hl i List.mem_cons_self
      rw [List.foldl_cons, ih (b.clear i) hb fun j hj => hl j (List.mem_cons_of_mem i hj)]
      exact put_map_of_le hi (by unfold numWords; rwa [hb]) _
  exact hloop _ _ rfl fun i hi => List.mem_range.mp hi

theorem call_map_of_le {c : Call} {answer : Answer} (hc : c.InRange b.numBits)
    (h : b.call c = some (answer, b')) {k : ℕ} (hk : b.numWords ≤ k) : b'.map k = b.map k := by
  cases c with
  | mark which =>
    obtain ⟨hr, hlt⟩ := inRange_of_lt hc
    obtain ⟨-, rfl⟩ := Prod.mk.inj (Option.some.inj ((if_pos hr).symm.trans h))
    exact put_map_of_le hlt hk _
  | clear which =>
    obtain ⟨hr, hlt⟩ := inRange_of_lt hc
    obtain ⟨-, rfl⟩ := Prod.mk.inj (Option.some.inj ((if_pos hr).symm.trans h))
    exact put_map_of_le hlt hk _
  | test which =>
    obtain ⟨hr, -⟩ := inRange_of_lt hc
    obtain ⟨-, rfl⟩ := Prod.mk.inj (Option.some.inj ((if_pos hr).symm.trans h))
    rfl
  | find =>
    obtain ⟨-, rfl⟩ := Prod.mk.inj (Option.some.inj h)
    rcases b.find_cases with ⟨-, hfind⟩ | ⟨x, hlt, -, hfind⟩
    · rw [hfind]
    · rw [hfind]
      exact put_map_of_le hlt hk _
  | numClear =>
    obtain ⟨-, rfl⟩ := Prod.mk.inj (Option.some.inj h)
    rfl

/-! ## Sequences of calls -/

/-- The bitmap and its answers are those of the set. The array has `divRoundUp n bitsInWord` words;
`words` is what was in memory. -/
structure Implements (words : ℕ → Word) (n : ℕ) (s : BitMap × List Answer)
    (r : Finset ℕ × List Answer) : Prop where
  set : s.1.Represents n r.1
  answers : s.2 = r.2
  behind : ∀ k, divRoundUp n bitsInWord ≤ k → s.1.map k = words k

theorem Implements.step {words : ℕ → Word} {s : BitMap × List Answer} {r : Finset ℕ × List Answer}
    {c : Call} (h : Implements words n s r) (hc : c.InRange n) :
    ∃ s', step s c = some s' ∧ Implements words n s' (next n r c) := by
  obtain ⟨b, answers⟩ := s
  obtain ⟨S, answers'⟩ := r
  obtain ⟨hset, rfl, hbehind⟩ := h
  obtain ⟨rfl, rfl⟩ := represents_iff.mp hset
  obtain ⟨b', hcall, hn, hmarked⟩ := call_marked hc
  refine ⟨(b', _), congrArg (Option.map _) hcall, ?_, rfl, fun k hk => ?_⟩
  · exact represents_iff.mpr ⟨hn, hmarked⟩
  · rw [← hbehind k hk]
    exact call_map_of_le hc hcall hk

theorem implements_run (words : ℕ → Word) {calls : List Call} (hc : ∀ c ∈ calls, c.InRange n) :
    ∃ s, Run.exec step (new words n, []) calls = some s ∧ Implements words n s (run n calls) := by
  have hstep : ∀ (_ : ℕ) (s : BitMap × List Answer) (r : Finset ℕ × List Answer) (c : Call),
      Implements words n s r → c.InRange n →
        ∃ s', step s c = some s' ∧ Implements words n s' (next n r c) :=
    fun _ _ _ _ h hc => h.step hc
  have hnew : Implements words n (new words n, []) (∅, []) :=
    ⟨represents_new words n, rfl, fun _ => new_map_of_le words n⟩
  exact Run.exec_refines (R := fun _ => Implements words n) hstep calls _ _ hnew
    (Run.admits_of_forall hc _)

/-! ## Files -/

/-- `FetchFrom`, where the file is one of the host. -/
def fetchFromHost (b : BitMap) (file : OpenFile) (h : Host) : Option (BitMap × Host) :=
  (file.readAt h (b.numWords * 4) 0).map fun (bytes, h) =>
    ({ b with
      map := fun i => wordAt
        (Buffer.splice (bytesOf b.map) 0 bytes.length fun k => bytes.getD k 0) (4 * i) }, h)

/-- `WriteBack`, where the file is one of the host. -/
def writeBackHost (b : BitMap) (file : OpenFile) (h : Host) : Option Host :=
  file.writeAt h ((List.range (b.numWords * 4)).map (bytesOf b.map)) 0

/-- The set is still there when `b` is written to a file and `other` is read from it. -/
structure Persists (n : ℕ) (b other : BitMap) (S : Finset ℕ) : Prop where
  disk : ∀ {file : Filesys.OpenFile} {blocks : List ℕ}, file.hdr.Describes (n / 8) blocks →
    Extent (n / 8) blocks → ∀ (d : Disk) (junk junk' : ℕ → Byte), ∃ d' b',
      b.writeBack file d junk = some d' ∧ other.fetchFrom file d' junk' = some b' ∧
        b'.Represents n S
  host : ∀ {file : OpenFile} {h : Host}, (h.fds file.file).isSome = true → ∃ h' b' h'',
    b.writeBackHost file h = some h' ∧ other.fetchFromHost file h' = some (b', h'') ∧
      b'.Represents n S

theorem Represents.disk (hb : b.Represents n S) (ho : other.numBits = n) (hn : bitsInWord ∣ n)
    {file : Filesys.OpenFile} {blocks : List ℕ} (hf : file.hdr.Describes (n / 8) blocks)
    (he : Extent (n / 8) blocks) (d : Disk) (junk junk' : ℕ → Byte) : ∃ d' b',
      b.writeBack file d junk = some d' ∧ other.fetchFrom file d' junk' = some b' ∧
        b'.Represents n S := by
  obtain ⟨d', hwrite, -, hwritten⟩ := writeBack_bits hn hf he hb.numBits d junk
  obtain ⟨b', hfetch, hbits, hfetched⟩ := fetchFrom_bits hn hf he ho d' junk'
  exact ⟨d', b', hwrite, hfetch, hb.congr hbits fun i hi => (hfetched i hi).trans (hwritten i hi)⟩

theorem Represents.host (hb : b.Represents n S) (ho : other.numBits = n) {file : OpenFile}
    {h : Host} (hfd : (h.fds file.file).isSome = true) : ∃ h' b' h'',
      b.writeBackHost file h = some h' ∧ other.fetchFromHost file h' = some (b', h'') ∧
        b'.Represents n S := by
  obtain ⟨d, hd⟩ := Option.isSome_iff_exists.mp hfd
  obtain ⟨h', h'', hwrite, hread⟩ := OpenFile.readAt_writeAt hd
    ((List.range (b.numWords * 4)).map (bytesOf b.map)) 0
  rw [List.length_map, List.length_range] at hread
  have hwords : other.numWords = b.numWords := by
    unfold numWords
    rw [ho, hb.numBits]
  rw [← hwords] at hread
  refine ⟨h', _, h'', hwrite, congrArg (Option.map _) hread, hb.congr ho fun i hi => ?_⟩
  have hword : i / bitsInWord < b.numWords := b.index_lt (hb.numBits.symm ▸ hi)
  rw [test_eq_getLsbD, test_eq_getLsbD, ← wordAt_bytesOf b.map]
  refine congrArg (BitVec.getLsbD · (i % bitsInWord)) (wordAt_congr fun j hj => ?_)
  exact splice_read_apply _ _ (by omega)

/-- **A bitmap implements a set.** Calls with indices in `0..n-1` answer as they do on a set of
numbers below `n` that is empty at first, and touch no word behind the last. A set that fills its
words is the same after `WriteBack` to a file of `n / 8` bytes and `FetchFrom`. -/
theorem bitMap_implements_set (n : ℕ) (words : ℕ → Word) :
    (∀ calls : List Call, (∀ c ∈ calls, c.InRange n) → ∃ s,
      Run.exec step (new words n, []) calls = some s ∧ Implements words n s (run n calls)) ∧
    (bitsInWord ∣ n → ∀ (b other : BitMap) (S : Finset ℕ), b.Represents n S → other.numBits = n →
      Persists n b other S) :=
  ⟨fun _ hc => implements_run words hc, fun hn _ _ _ hb ho =>
    ⟨fun hf he => hb.disk ho hn hf he, fun hfd => hb.host ho hfd⟩⟩

end

/-- Calls at the ends of two words. -/
def twoWords : List Call :=
  [.mark 31, .mark 40, .clear 40, .find, .test 31, .test 32, .find, .numClear]

/-- A file of two words in sector 5. -/
def twoWordFile : Filesys.OpenFile where
  hdr := { numBytes := 8, numSectors := 1, dataSectors := fun _ => 5 }
  seekPosition := 0
  type := none

theorem bitMap_implements_set_two_words : ∃ s d' b',
    Run.exec step (new (fun _ => BitVec.allOnes 32) 64, []) twoWords = some s ∧
      s.1.Represents 64 {0, 1, 31} ∧
      s.2 = [.done, .done, .done, .int 0, .bool true, .bool false, .int 1, .int 61] ∧
      s.1.writeBack twoWordFile (fun _ _ => 0) (fun _ => 0) = some d' ∧
      (new (fun _ => 0) 64).fetchFrom twoWordFile d' (fun _ => 0) = some b' ∧
      b'.Represents 64 {0, 1, 31} := by
  obtain ⟨hrun, hfile⟩ := bitMap_implements_set 64 fun _ => BitVec.allOnes 32
  obtain ⟨s, hexec, hset, hanswers, -⟩ := hrun twoWords (by decide)
  have htwo : run 64 twoWords = ({0, 1, 31}, [.done, .done, .done, .int 0, .bool true,
      .bool false, .int 1, .int 61]) := by decide +kernel
  rw [htwo] at hset hanswers
  have hdescribes : twoWordFile.hdr.Describes (64 / 8) [5] := by
    refine ⟨rfl, rfl, fun j hj => ?_⟩
    obtain rfl : j = 0 := by simpa using hj
    rfl
  have hextent : Extent (64 / 8) [5] := extent_singleton (by decide) (by decide) (by decide)
  obtain ⟨d', b', hwrite, hfetch, hset'⟩ := (hfile (by decide) s.1 (new (fun _ => 0) 64) _ hset
    (new_numBits _ 64)).disk hdescribes hextent (fun _ _ => 0) (fun _ => 0) (fun _ => 0)
  exact ⟨s, d', b', hexec, hset, hanswers, hwrite, hfetch, hset'⟩

end BitMap

end Nachos
