import Mathlib.Data.List.TakeWhile
import Nachos.Userprog.Loader
import Nachos.Userprog.Outcome

/-!
# User memory and the copy loops of `exception.cc`

The memory of a process is what its page table makes of `mainMemory`: a partial map from addresses
to bytes. An access sets use and dirty bits, which changes nothing in this map. `User2System` and
`System2User` are described on the map; both stop at a zero byte.
-/

namespace Nachos

open Prog

/-! ## The map -/

/-- Where the byte at an address lies in `mainMemory`. -/
def physAddr (pageTable : List TranslationEntry) (a : Word) : Option ℕ :=
  match translate pageTable a 1 false with
  | .ok (p, _) => some p
  | _ => none

/-- The memory as a process with this page table sees it. -/
def userMap (m : Memory) (pageTable : List TranslationEntry) (a : Word) : Option Byte :=
  (physAddr pageTable a).map fun p : ℕ => m p

def Kernel.user (k : Kernel) : Word → Option Byte := userMap k.memory k.pageTable

/-- The page table of an address space: no page is read-only and no two are in one frame. -/
structure IsSpace (pt : List TranslationEntry) : Prop where
  writable : ∀ (i : ℕ) e, pt[i]? = some e → e.readOnly = false
  distinct : ∀ (i j : ℕ) e e', pt[i]? = some e → pt[j]? = some e' →
    BitVec.ofInt 32 e.physicalPage = BitVec.ofInt 32 e'.physicalPage → i = j

section Translate

variable {pt pt' : List TranslationEntry} {a : Word} {p : ℕ}

theorem physAddr_eq_some : physAddr pt a = some p ↔ ∃ e, pt[a.toNat / pageSize]? = some e ∧
    e.valid = true ∧ e.frame < numPhysPages ∧ p = e.frame * pageSize + a.toNat % pageSize := by
  have hoff : a.toNat % pageSize < pageSize := Nat.mod_lt _ (by decide)
  unfold physAddr translate
  simp only [OfNat.one_ne_ofNat, false_and, or_self, if_false, Bool.and_false, Bool.false_eq_true]
  cases he : pt[a.toNat / pageSize]? with
  | none => simp
  | some e =>
    cases hv : e.valid with
    | false => simp [hv]
    | true =>
      simp only [TranslationEntry.frame, Option.some.injEq, exists_eq_left', hv, true_and,
        Bool.not_true, Bool.false_eq_true, if_false]
      generalize (BitVec.ofInt 32 e.physicalPage).toNat = frame
      by_cases hf : numPhysPages ≤ frame
      · simp [if_pos hf, not_lt.mpr hf]
      · have hsize : frame * pageSize + a.toNat % pageSize + 1 ≤ memorySize := by
          have hf : ¬ 128 ≤ frame := hf
          have hoff : a.toNat % 512 < 512 := hoff
          show frame * 512 + a.toNat % 512 + 1 ≤ 65536
          omega
        rw [if_neg hf, if_pos hsize]
        simp only [Option.some.injEq, not_le.mp hf, true_and]
        exact eq_comm

theorem SameMap.physAddr (h : SameMap pt pt') (a : Word) : physAddr pt' a = physAddr pt a := by
  have one : ∀ {pt₁ pt₂ : List TranslationEntry}, SameMap pt₁ pt₂ → ∀ p,
      Nachos.physAddr pt₁ a = some p → Nachos.physAddr pt₂ a = some p := by
    intro pt₁ pt₂ h p hp
    obtain ⟨e, he, hv, hf, rfl⟩ := physAddr_eq_some.mp hp
    have hs := h (a.toNat / pageSize)
    rw [he, Option.map_some] at hs
    obtain ⟨e', he', hm⟩ := Option.map_eq_some_iff.mp hs
    simp only [TranslationEntry.mapping, Prod.mk.injEq] at hm
    have hframe : e'.frame = e.frame := by
      unfold TranslationEntry.frame
      rw [hm.1]
    exact physAddr_eq_some.mpr ⟨e', he', hm.2.1.trans hv, hframe ▸ hf, by rw [hframe]⟩
  apply Option.ext
  intro p
  exact ⟨one h.symm p, one h p⟩

theorem SameMap.isSpace (h : SameMap pt pt') (hs : IsSpace pt) : IsSpace pt' := by
  have back : ∀ (i : ℕ) e', pt'[i]? = some e' → ∃ e, pt[i]? = some e ∧ e.mapping = e'.mapping := by
    intro i e' he'
    have hi := h i
    rw [he', Option.map_some] at hi
    exact Option.map_eq_some_iff.mp hi.symm
  constructor
  · intro i e' he'
    obtain ⟨e, he, hm⟩ := back i e' he'
    rw [← hs.writable i e he]
    exact (congrArg (fun m => m.2.2) hm).symm
  · intro i j e₁' e₂' h₁ h₂ hf
    obtain ⟨e₁, he₁, hm₁⟩ := back i e₁' h₁
    obtain ⟨e₂, he₂, hm₂⟩ := back j e₂' h₂
    have hp₁ : e₁.physicalPage = e₁'.physicalPage := congrArg Prod.fst hm₁
    have hp₂ : e₂.physicalPage = e₂'.physicalPage := congrArg Prod.fst hm₂
    exact hs.distinct i j e₁ e₂ he₁ he₂ (by rw [hp₁, hp₂, hf])

/-- Different addresses of a space are different places of `mainMemory`. -/
theorem IsSpace.physAddr_inj (hs : IsSpace pt) {b : Word} (ha : physAddr pt a = some p)
    (hb : physAddr pt b = some p) : a = b := by
  obtain ⟨e, he, -, -, hp⟩ := physAddr_eq_some.mp ha
  obtain ⟨e', he', -, -, hp'⟩ := physAddr_eq_some.mp hb
  have h512 : pageSize = 512 := rfl
  rw [h512] at he he' hp hp'
  have hframe : e.frame = e'.frame := by omega
  have hpage := hs.distinct _ _ e e' he he' (BitVec.eq_of_toNat_eq hframe)
  apply BitVec.eq_of_toNat_eq
  rw [hframe] at hp
  omega

theorem translate_read (ha : physAddr pt a = some p) :
    ∃ pt', SameMap pt pt' ∧ translate pt a 1 false = .ok (p, pt') := by
  obtain ⟨e, he, hv, hf, rfl⟩ := physAddr_eq_some.mp ha
  unfold physAddr at ha
  have hset : ∀ q pt', translate pt a 1 false = .ok (q, pt') → SameMap pt pt' := by
    intro q pt' ht
    unfold translate at ht
    simp only [OfNat.one_ne_ofNat, false_and, or_self, if_false, he] at ht
    split_ifs at ht
    cases ht
    exact sameMap_set he rfl
  cases ht : translate pt a 1 false with
  | ok r =>
    obtain ⟨q, pt'⟩ := r
    rw [ht] at ha
    cases ha
    exact ⟨pt', hset _ _ ht, rfl⟩
  | exception which =>
    rw [ht] at ha
    cases ha
  | assertFailed =>
    rw [ht] at ha
    cases ha

theorem IsSpace.translate_write (hs : IsSpace pt) (ha : physAddr pt a = some p) :
    ∃ pt', SameMap pt pt' ∧ translate pt a 1 true = .ok (p, pt') := by
  obtain ⟨e, he, hv, hf, -⟩ := physAddr_eq_some.mp ha
  have hr := hs.writable _ e he
  obtain ⟨pt', -, ht⟩ := translate_read ha
  unfold translate at ht ⊢
  simp only [OfNat.one_ne_ofNat, false_and, or_self, if_false, he, hr, Bool.false_and] at ht ⊢
  split_ifs at ht ⊢
  cases ht
  refine ⟨_, ?_, rfl⟩
  apply sameMap_set he
  rw [TranslationEntry.mapping, TranslationEntry.mapping, hr]

/-- Where a store goes, a load finds the same place. -/
theorem translate_load {size : ℕ} (h : translate pt a size true = .ok (p, pt')) :
    ∃ pt'', translate pt a size false = .ok (p, pt'') := by
  unfold translate at h ⊢
  split_ifs at h ⊢
  rcases he : pt[a.toNat / pageSize]? with _ | e
  · simp only [he] at h
    cases h
  · simp only [he, Bool.and_false, Bool.false_eq_true, if_false] at h ⊢
    split_ifs at h ⊢
    cases h
    exact ⟨_, rfl⟩

end Translate

/-! ## Single accesses -/

section Accesses

variable {k : Kernel} {a : Word} {c : Byte}

/-- Use and dirty bits do not matter to the process. -/
theorem SameMap.userMap {pt pt' : List TranslationEntry} (h : SameMap pt pt') (m : Memory) :
    userMap m pt' = userMap m pt := by
  funext b
  exact congrArg (Option.map fun p : ℕ => m p) (h.physAddr b)

/-- Which addresses a process has does not depend on what is there. -/
theorem SameMap.accessible_iff {pt pt' : List TranslationEntry} (h : SameMap pt pt')
    (m m' : Memory) (b : Word) :
    Nachos.userMap m' pt' b ≠ none ↔ Nachos.userMap m pt b ≠ none := by
  unfold Nachos.userMap
  rw [ne_eq, ne_eq, Option.map_eq_none_iff, Option.map_eq_none_iff, h.physAddr b]

theorem readMemByte_run (ha : k.user a = some c) : ∃ pt, SameMap k.pageTable pt ∧
    (readMemByte a).run k = .done (c.signExtend 32) { k with pageTable := pt } := by
  obtain ⟨p, hp, rfl⟩ := Option.map_eq_some_iff.mp ha
  obtain ⟨pt, hpt, ht⟩ := translate_read hp
  refine ⟨pt, hpt, ?_⟩
  unfold readMemByte access readMem
  simp only [ht, loadValue]

theorem setWidth_signExtend (c : Byte) : (c.signExtend 32).setWidth 8 = c := by
  revert c
  decide

theorem signExtend_eq_zero (c : Byte) : c.signExtend 32 = 0 ↔ c = 0 := by
  revert c
  decide

/-- `mainMemory` is as before but for the `n` bytes from the address `a` on. -/
def KeepsOthers (pt : List TranslationEntry) (a : Word) (n : ℕ) (m m' : Memory) : Prop :=
  ∀ q : ℤ, (∀ j < n, ∀ p : ℕ, physAddr pt (a + BitVec.ofNat 32 j) = some p → q ≠ p) → m' q = m q

/-- A store changes one byte of the map. -/
theorem writeMemByte_run (hs : IsSpace k.pageTable) (ha : k.user a ≠ none) :
    ∃ m pt, SameMap k.pageTable pt ∧
      (writeMemByte a (c.signExtend 32)).run k =
        .done () { k with memory := m, pageTable := pt } ∧
      userMap m pt = Function.update k.user a (some c) ∧
      ∀ q : ℤ, (∀ p : ℕ, physAddr k.pageTable a = some p → q ≠ p) → m q = k.memory q := by
  obtain ⟨b, hb⟩ := Option.ne_none_iff_exists'.mp ha
  obtain ⟨p, hp, -⟩ := Option.map_eq_some_iff.mp hb
  obtain ⟨pt, hpt, ht⟩ := hs.translate_write hp
  have hc := setWidth_signExtend c
  refine ⟨Function.update k.memory p c, pt, hpt, ?_, ?_, ?_⟩
  · unfold writeMemByte access writeMem
    simp only [ht, storeBytes, hc]
    rfl
  · funext b
    show (physAddr pt b).map (fun q : ℕ => Function.update k.memory p c q) = _
    rw [hpt.physAddr b]
    by_cases hba : b = a
    · subst hba
      rw [hp, Function.update_self, Option.map_some, Function.update_self]
    · rw [Function.update_of_ne hba]
      cases hq : physAddr k.pageTable b with
      | none =>
        rw [Kernel.user, userMap, hq]
        rfl
      | some q =>
        have hne : (q : ℤ) ≠ p := by
          intro he
          rw [Int.natCast_inj.mp he] at hq
          exact hba (hs.physAddr_inj hq hp)
        rw [Kernel.user, userMap, hq, Option.map_some, Option.map_some, Function.update_of_ne hne]
  · exact fun q hq => Function.update_of_ne (hq p hp) _ _

/-- A store that succeeds is to an address of the process. -/
theorem writeMemByte_accessible {value : Word} {k' : Kernel}
    (h : (writeMemByte a value).run k = .done () k') : k.user a ≠ none := by
  unfold writeMemByte access writeMem at h
  dsimp only at h
  rcases ht : translate k.pageTable a 1 true with ⟨p, pt⟩ | which | _
  · obtain ⟨pt', ht'⟩ := translate_load ht
    rw [Kernel.user, userMap, physAddr, ht']
    exact Option.some_ne_none _
  · rw [ht] at h
    cases h
  · rw [ht] at h
    cases h

end Accesses

/-! ## The copy loops -/

/-- What a copy of `bytes` transfers: it stops after the first zero. -/
def untilNul : List Byte → List Byte
  | [] => []
  | c :: cs => if c = 0 then [0] else c :: untilNul cs

/-- The same in a buffer that was filled with zeros. -/
def zeroFilled (bytes : List Byte) : List Byte :=
  untilNul bytes ++ List.replicate (bytes.length - (untilNul bytes).length) 0

theorem cstring_ne_zero {text : List Byte} {c : Byte} (h : c ∈ cstring text) : c ≠ 0 := by
  have hc := List.mem_takeWhile_imp (p := fun b => decide (b ≠ 0)) h
  exact of_decide_eq_true hc

theorem length_untilNul_le (bytes : List Byte) : (untilNul bytes).length ≤ bytes.length := by
  induction bytes with
  | nil => exact le_rfl
  | cons c cs ih =>
    rw [untilNul]
    split_ifs
    · exact Nat.le_add_left 1 cs.length
    · exact Nat.succ_le_succ ih

theorem length_zeroFilled (bytes : List Byte) : (zeroFilled bytes).length = bytes.length := by
  have := length_untilNul_le bytes
  rw [zeroFilled, List.length_append, List.length_replicate]
  omega

/-- A zero comes before the byte at `j`, so that a copy does not get to it. -/
def AfterNul (bytes : List Byte) (j : ℕ) : Prop := ∃ i < j, bytes[i]? = some 0

theorem getElem?_untilNul_of_afterNul {bytes : List Byte} {j : ℕ} (h : AfterNul bytes j) :
    (untilNul bytes)[j]? = none := by
  induction bytes generalizing j with
  | nil => rfl
  | cons c cs ih =>
    obtain ⟨i, hij, hi⟩ := h
    obtain ⟨j, rfl⟩ : ∃ j', j = j' + 1 := ⟨j - 1, by omega⟩
    rw [untilNul]
    split_ifs with hc
    · rfl
    · cases i with
      | zero => exact absurd (Option.some.inj hi) hc
      | succ i => exact ih ⟨i, by omega, hi⟩

theorem getElem?_untilNul {bytes : List Byte} {j : ℕ} (h : ¬ AfterNul bytes j) :
    (untilNul bytes)[j]? = bytes[j]? := by
  induction bytes generalizing j with
  | nil => rfl
  | cons c cs ih =>
    rw [untilNul]
    cases j with
    | zero =>
      split_ifs with hc
      · rw [hc]
        rfl
      · rfl
    | succ j =>
      have hc : c ≠ 0 := fun hc => h ⟨0, Nat.succ_pos j, by rw [hc]; rfl⟩
      rw [if_neg hc]
      exact ih fun ⟨i, hij, hi⟩ => h ⟨i + 1, by omega, hi⟩

/-- What a zero-filled copy has at an index of the bytes. -/
theorem getElem?_zeroFilled {bytes : List Byte} {j : ℕ} (hj : j < bytes.length) :
    (zeroFilled bytes)[j]? = (untilNul bytes)[j]?.or (some 0) := by
  unfold zeroFilled
  by_cases hlt : j < (untilNul bytes).length
  · rw [List.getElem?_append_left hlt, List.getElem?_eq_getElem hlt, Option.some_or]
  · rw [List.getElem?_append_right (by omega), List.getElem?_eq_none (l := untilNul bytes) (by omega),
      Option.none_or, List.getElem?_replicate_of_lt (by omega)]

/-- A zero-filled copy is exact when only zeros come after a zero. -/
theorem zeroFilled_eq_iff {bytes : List Byte} :
    zeroFilled bytes = bytes ↔ ∀ j c, AfterNul bytes j → bytes[j]? = some c → c = 0 := by
  constructor
  · intro h j c hj hc
    have hlt := (List.getElem?_eq_some_iff.mp hc).1
    have hz := getElem?_zeroFilled hlt
    rw [h, hc, getElem?_untilNul_of_afterNul hj, Option.none_or] at hz
    exact Option.some.inj hz
  · intro h
    apply List.ext_getElem?
    intro j
    by_cases hlt : j < bytes.length
    · rw [getElem?_zeroFilled hlt]
      by_cases hj : AfterNul bytes j
      · rw [getElem?_untilNul_of_afterNul hj, Option.none_or]
        have hc := List.getElem?_eq_getElem hlt
        rw [hc, h j _ hj hc]
      · rw [getElem?_untilNul hj, List.getElem?_eq_getElem hlt, Option.some_or]
    · have hlen := length_zeroFilled bytes
      rw [List.getElem?_eq_none (by omega), List.getElem?_eq_none (by omega)]

theorem untilNul_zeroFilled (bytes : List Byte) : untilNul (zeroFilled bytes) = untilNul bytes := by
  induction bytes with
  | nil => rfl
  | cons c cs ih =>
    by_cases hc : c = 0
    · subst hc
      rfl
    · have hz : zeroFilled (c :: cs) = c :: zeroFilled cs := by
        unfold zeroFilled
        rw [untilNul, if_neg hc, List.length_cons, List.length_cons, Nat.add_sub_add_right]
        rfl
      rw [hz, untilNul, if_neg hc, ih, untilNul, if_neg hc]

/-- The bytes `bytes` are at the address `a`. -/
def Kernel.HasBytes (k : Kernel) (a : Word) (bytes : List Byte) : Prop :=
  ∀ i c, bytes[i]? = some c → k.user (a + BitVec.ofNat 32 i) = some c

/-- The map after `bytes` are stored at `a`. -/
def putBytes (user : Word → Option Byte) (a : Word) : List Byte → Word → Option Byte
  | [] => user
  | c :: cs => putBytes (Function.update user a (some c)) (a + 1) cs

theorem add_ofNat_succ (a : Word) (i : ℕ) :
    a + BitVec.ofNat 32 (i + 1) = a + 1 + BitVec.ofNat 32 i := by
  rw [BitVec.ofNat_add, BitVec.add_assoc]
  exact congrArg (a + ·) (BitVec.add_comm _ _)

theorem add_ofNat_add_one (a : Word) (i : ℕ) :
    a + BitVec.ofNat 32 i + 1 = a + BitVec.ofNat 32 (i + 1) := by
  rw [BitVec.ofNat_add, BitVec.add_assoc]
  rfl

theorem putBytes_apply (bytes : List Byte) : ∀ (user : Word → Option Byte) (a : Word) (j : ℕ),
    bytes.length ≤ 2 ^ 32 → j < 2 ^ 32 → putBytes user a bytes (a + BitVec.ofNat 32 j) =
      (bytes[j]?).or (user (a + BitVec.ofNat 32 j)) := by
  induction bytes with
  | nil => exact fun _ _ _ _ _ => rfl
  | cons c cs ih =>
    intro user a j hlen hj
    have hlen : cs.length + 1 ≤ 2 ^ 32 := hlen
    rw [putBytes]
    cases j with
    | zero =>
      -- the other stores would have to go round all addresses to come back to `a`
      have hwrap : a + BitVec.ofNat 32 0 = a + 1 + BitVec.ofNat 32 (2 ^ 32 - 1) := by
        rw [← add_ofNat_succ]
        rfl
      rw [hwrap, ih _ _ _ (by omega) (by omega), ← hwrap, List.getElem?_eq_none (by omega)]
      have ha : a + BitVec.ofNat 32 0 = a := BitVec.add_zero a
      rw [ha, Option.none_or, Function.update_self]
      rfl
    | succ j =>
      have hne : a + BitVec.ofNat 32 (j + 1) ≠ a := by
        intro h
        have h := congrArg BitVec.toNat h
        rw [BitVec.toNat_add, BitVec.toNat_ofNat, Nat.mod_eq_of_lt hj] at h
        have := a.isLt
        omega
      rw [add_ofNat_succ, ih _ _ _ (by omega) (by omega), ← add_ofNat_succ,
        Function.update_of_ne hne]
      rfl

section Loops

variable {k : Kernel} {a : Word}

theorem user2SystemLoop_run (bytes : List Byte) : ∀ (i : ℕ) (k : Kernel),
    k.HasBytes (a + BitVec.ofNat 32 i) bytes →
    ∃ pt, SameMap k.pageTable pt ∧ (user2SystemLoop a i bytes.length).run k =
      .done (untilNul bytes) { k with pageTable := pt } := by
  induction bytes with
  | nil => exact fun i k _ => ⟨k.pageTable, sameMap_refl _, rfl⟩
  | cons c cs ih =>
    intro i k h
    have hhead : k.user (a + BitVec.ofNat 32 i) = some c := by
      have := h 0 c rfl
      rwa [BitVec.add_zero] at this
    obtain ⟨pt, hpt, hr⟩ := readMemByte_run hhead
    show ∃ pt, _ ∧ (user2SystemLoop a i (cs.length + 1)).run k = _
    unfold user2SystemLoop untilNul
    rw [run_bind, hr, Res.bind_done]
    by_cases hc : c = 0
    · rw [if_pos ((signExtend_eq_zero c).mpr hc), if_pos hc]
      exact ⟨pt, hpt, rfl⟩
    · rw [if_neg (mt (signExtend_eq_zero c).mp hc), if_neg hc]
      have htail : { k with pageTable := pt }.HasBytes (a + BitVec.ofNat 32 (i + 1)) cs := by
        intro j c' hj
        have hj := h (j + 1) c' hj
        rw [add_ofNat_succ, add_ofNat_add_one] at hj
        show userMap k.memory pt _ = _
        rw [hpt.userMap]
        exact hj
      obtain ⟨pt', hpt', hl⟩ := ih (i + 1) { k with pageTable := pt } htail
      refine ⟨pt', hpt.trans hpt', ?_⟩
      rw [run_bind, hl, Res.bind_done, setWidth_signExtend]
      rfl

/-- `User2System` of `bytes`: the buffer has them up to the first zero, then zeros. -/
theorem user2System_run {bytes : List Byte} (h : k.HasBytes a bytes)
    (hlen : bytes.length + 1 < 2 ^ 31) : ∃ pt, SameMap k.pageTable pt ∧
    (user2System a bytes.length).run k = .done (zeroFilled bytes ++ [0]) { k with pageTable := pt } := by
  have h0 : k.HasBytes (a + BitVec.ofNat 32 0) bytes := by
    rwa [BitVec.add_zero]
  obtain ⟨pt, hpt, hl⟩ := user2SystemLoop_run bytes 0 k h0
  refine ⟨pt, hpt, ?_⟩
  unfold user2System zeroFilled
  rw [if_neg (by omega), run_bind, hl, Res.bind_done]
  have := length_untilNul_le bytes
  have hr : bytes.length + 1 - (untilNul bytes).length =
      bytes.length - (untilNul bytes).length + 1 := by omega
  rw [hr, List.replicate_succ', List.append_assoc]
  rfl

/-- `bytes` are all that a copy of `n` bytes looks at. -/
def LooksAt (n : ℕ) (bytes : List Byte) : Prop := n = bytes.length ∨ bytes.length ≤ n ∧ 0 ∈ bytes

theorem LooksAt.exists_succ {n : ℕ} {cs : List Byte} (h : LooksAt n (c :: cs)) :
    ∃ n', n = n' + 1 := by
  refine Nat.exists_eq_add_one.mpr ?_
  rcases h with rfl | ⟨hle, -⟩
  · exact Nat.succ_pos _
  · exact Nat.lt_of_lt_of_le (Nat.succ_pos _) hle

theorem LooksAt.tail {n : ℕ} {cs : List Byte} (h : LooksAt (n + 1) (c :: cs)) (hc : c ≠ 0) :
    LooksAt n cs := by
  rcases h with h | ⟨hle, hmem⟩
  · exact Or.inl (Nat.succ_injective h)
  · exact Or.inr ⟨Nat.le_of_succ_le_succ hle,
      (List.mem_cons.mp hmem).resolve_left fun h => hc h.symm⟩

theorem system2UserLoop_run (buffer : List Byte) (bytes : List Byte) : ∀ (n i : ℕ) (k : Kernel),
    LooksAt n bytes → IsSpace k.pageTable →
    (∀ j < (untilNul bytes).length, k.user (a + BitVec.ofNat 32 (i + j)) ≠ none) →
    (∀ j c, bytes[j]? = some c → buffer[i + j]? = some c) →
    ∃ m pt, SameMap k.pageTable pt ∧
      (system2UserLoop a buffer i n).run k =
        .done (i + (untilNul bytes).length : ℕ) { k with memory := m, pageTable := pt } ∧
      userMap m pt = putBytes k.user (a + BitVec.ofNat 32 i) (untilNul bytes) ∧
      KeepsOthers k.pageTable (a + BitVec.ofNat 32 i) (untilNul bytes).length k.memory m := by
  induction bytes with
  | nil =>
    intro n i k hn _ _ _
    obtain rfl : n = 0 := hn.resolve_right fun h => List.not_mem_nil h.2
    exact ⟨k.memory, k.pageTable, sameMap_refl _, rfl, rfl, fun _ _ => rfl⟩
  | cons c cs ih =>
    intro n i k hn hs hacc hbuf
    have hpos : 0 < (untilNul (c :: cs)).length := by
      rw [untilNul]
      split_ifs
      · exact Nat.one_pos
      · exact Nat.succ_pos _
    obtain ⟨m, pt, hpt, hw, huser, hkeep⟩ := writeMemByte_run (c := c) hs (hacc 0 hpos)
    have hb : buffer[i]? = some c := hbuf 0 c rfl
    obtain ⟨n, rfl⟩ := hn.exists_succ
    unfold system2UserLoop
    rw [untilNul] at hacc ⊢
    rw [hb]
    dsimp only
    rw [run_bind]
    have hw : (writeMemByte (a + BitVec.ofNat 32 i) (c.signExtend 32)).run k = _ := hw
    rw [hw, Res.bind_done]
    by_cases hc : c = 0
    · rw [if_pos hc, if_pos hc]
      subst hc
      refine ⟨m, pt, hpt, rfl, huser, fun q hq => hkeep q fun p hp => hq 0 Nat.one_pos p ?_⟩
      rwa [BitVec.add_zero]
    · rw [if_neg hc] at hacc
      rw [if_neg hc, if_neg hc]
      have hacc' : ∀ j < (untilNul cs).length,
          userMap m pt (a + BitVec.ofNat 32 (i + 1 + j)) ≠ none := by
        intro j hj
        rw [huser, Nat.add_assoc, Nat.add_comm 1 j, Function.update_apply]
        split_ifs
        · exact Option.some_ne_none _
        · exact hacc (j + 1) (Nat.succ_lt_succ hj)
      obtain ⟨m', pt', hpt', hl, huser', hkeep'⟩ := ih n (i + 1)
        { k with memory := m, pageTable := pt } (hn.tail hc) (hpt.isSpace hs) hacc' fun j c' hj => by
          rw [Nat.add_assoc, Nat.add_comm 1 j]
          exact hbuf (j + 1) c' hj
      refine ⟨m', pt', hpt.trans hpt', ?_, ?_, ?_⟩
      · rw [hl, List.length_cons, Nat.add_right_comm]
        rfl
      · rw [putBytes, add_ofNat_add_one]
        have huser : Kernel.user { k with memory := m, pageTable := pt } =
          Function.update k.user (a + BitVec.ofNat 32 i) (some c) := huser
        rw [← huser]
        exact huser'
      · intro q hq
        rw [hkeep' q fun j hj p hp => hq (j + 1) (Nat.succ_lt_succ hj) p ?_]
        · exact hkeep q fun p hp => hq 0 (Nat.succ_pos _) p (by rwa [BitVec.add_zero])
        · have hp : physAddr pt _ = some p := hp
          rwa [hpt.physAddr, ← add_ofNat_add_one, ← add_ofNat_succ] at hp

/-- `System2User` of `bytes`, which are at the start of the buffer. -/
theorem system2User_run {b bytes : List Byte} {n : ℕ} (hs : IsSpace k.pageTable)
    (hn : LooksAt n bytes)
    (hacc : ∀ j < (untilNul bytes).length, k.user (a + BitVec.ofNat 32 j) ≠ none)
    (hbuf : bytes <+: b) (h0 : bytes ≠ []) :
    ∃ m pt, SameMap k.pageTable pt ∧
      (system2User a n b).run k =
        .done (untilNul bytes).length { k with memory := m, pageTable := pt } ∧
      userMap m pt = putBytes k.user a (untilNul bytes) ∧
      KeepsOthers k.pageTable a (untilNul bytes).length k.memory m := by
  have hpos : 0 < n := by
    have := List.length_pos_iff.mpr h0
    rcases hn with rfl | ⟨hle, -⟩ <;> omega
  obtain ⟨m, pt, hpt, hl, huser, hkeep⟩ := system2UserLoop_run b bytes n 0 k hn hs
    (fun j hj => by rw [Nat.zero_add]; exact hacc j hj)
    (fun j c hj => by
      obtain ⟨hlt, rfl⟩ := List.getElem?_eq_some_iff.mp hj
      rw [Nat.zero_add]
      exact List.prefix_iff_getElem?.mp hbuf j hlt)
  rw [Nat.zero_add] at hl
  rw [BitVec.add_zero] at huser hkeep
  refine ⟨m, pt, hpt, ?_, huser, hkeep⟩
  unfold system2User
  rw [if_neg (by omega), if_neg (by omega), Int.toNat_natCast]
  exact hl

end Loops

/-- A copy of `bytes` to `a` is exact when what it does not get to was there before. -/
theorem hasBytes_putBytes_iff {k q : Kernel} {a : Word} {bytes : List Byte}
    (hlen : bytes.length ≤ 2 ^ 32) (hk : q.user = putBytes k.user a (untilNul bytes)) :
    q.HasBytes a bytes ↔ ∀ j c, AfterNul bytes j → bytes[j]? = some c →
      k.user (a + BitVec.ofNat 32 j) = some c := by
  have happly : ∀ j, j < bytes.length → q.user (a + BitVec.ofNat 32 j) =
      ((untilNul bytes)[j]?).or (k.user (a + BitVec.ofNat 32 j)) := by
    intro j hj
    rw [hk]
    exact putBytes_apply _ _ _ _ ((length_untilNul_le bytes).trans hlen) (by omega)
  constructor
  · intro h j c hj hc
    have hu := h j c hc
    rwa [happly j (List.getElem?_eq_some_iff.mp hc).1, getElem?_untilNul_of_afterNul hj,
      Option.none_or] at hu
  · intro h j c hc
    rw [happly j (List.getElem?_eq_some_iff.mp hc).1]
    by_cases hj : AfterNul bytes j
    · rw [getElem?_untilNul_of_afterNul hj, Option.none_or, h j c hj hc]
    · rw [getElem?_untilNul hj, hc, Option.some_or]

theorem physAddr_lt {pt : List TranslationEntry} {b : Word} {p : ℕ} (h : physAddr pt b = some p) :
    p < memorySize := by
  obtain ⟨e, -, -, hf, rfl⟩ := physAddr_eq_some.mp h
  have hf : e.frame < 128 := hf
  show e.frame * 512 + b.toNat % 512 < 65536
  omega

/-- A process has at most as many bytes as the machine. -/
theorem length_le_memorySize {k : Kernel} {a : Word} {n : ℕ} (hs : IsSpace k.pageTable)
    (hn : n ≤ 2 ^ 32) (hacc : ∀ j < n, k.user (a + BitVec.ofNat 32 j) ≠ none) : n ≤ memorySize := by
  have hp : ∀ j < n, ∃ p, physAddr k.pageTable (a + BitVec.ofNat 32 j) = some p := by
    intro j hj
    obtain ⟨c, hc⟩ := Option.ne_none_iff_exists'.mp (hacc j hj)
    obtain ⟨p, hp, -⟩ := Option.map_eq_some_iff.mp hc
    exact ⟨p, hp⟩
  choose! place hplace using hp
  rw [← Finset.card_range n, ← Finset.card_range memorySize]
  apply Finset.card_le_card_of_injOn place
  · intro j hj
    exact Finset.mem_coe.mpr (Finset.mem_range.mpr (physAddr_lt (hplace j (Finset.mem_range.mp hj))))
  · intro i hi j hj hij
    have hi := Finset.mem_range.mp (Finset.mem_coe.mp hi)
    have hj := Finset.mem_range.mp (Finset.mem_coe.mp hj)
    have heq := hs.physAddr_inj (hplace i hi) (hij ▸ hplace j hj)
    have heq := congrArg BitVec.toNat ((BitVec.add_right_inj a).mp heq)
    rwa [BitVec.toNat_ofNat, BitVec.toNat_ofNat, Nat.mod_eq_of_lt (by omega),
      Nat.mod_eq_of_lt (by omega)] at heq

theorem Kernel.HasBytes.accessible {k : Kernel} {a : Word} {bytes : List Byte}
    (h : k.HasBytes a bytes) : ∀ j < bytes.length, k.user (a + BitVec.ofNat 32 j) ≠ none := by
  intro j hj
  rw [h j bytes[j] (List.getElem?_eq_getElem hj)]
  exact Option.some_ne_none _

/-- The page table that a constructor of `AddrSpace` sets up. -/
theorem IsBuilt.isSpace {h : NoffHeader} {file : List Byte} {s s' : Loader} {sp : AddrSpace}
    (hb : IsBuilt h file s sp s') (hn : s.gPhysPageBitMap.numBits ≤ 2 ^ 32) :
    IsSpace sp.pageTable := by
  have entry : ∀ (i : ℕ) e, sp.pageTable[i]? = some e → ∃ f : ℕ,
      (framesFor h s.gPhysPageBitMap)[i]? = some f ∧ f < 2 ^ 32 ∧ e = freshEntry i f := by
    intro i e he
    rw [hb.getElem?_pageTable] at he
    obtain ⟨f, hf, rfl⟩ := Option.map_eq_some_iff.mp he
    exact ⟨f, hf, (mem_framesFor (List.mem_of_getElem? hf)).1.trans_le hn, rfl⟩
  constructor
  · intro i e he
    obtain ⟨f, -, -, rfl⟩ := entry i e he
    rfl
  · intro i j e e' he he' heq
    obtain ⟨f, hf, hlt, rfl⟩ := entry i e he
    obtain ⟨f', hf', hlt', rfl⟩ := entry j e' he'
    have heq : BitVec.ofInt 32 (f : ℤ) = BitVec.ofInt 32 (f' : ℤ) := heq
    rw [BitVec.ofInt_natCast, BitVec.ofInt_natCast] at heq
    have heq := congrArg BitVec.toNat heq
    rw [BitVec.toNat_ofNat, BitVec.toNat_ofNat, Nat.mod_eq_of_lt hlt, Nat.mod_eq_of_lt hlt'] at heq
    obtain ⟨hi, hfi⟩ := List.getElem?_eq_some_iff.mp hf
    obtain ⟨hj, hfj⟩ := List.getElem?_eq_some_iff.mp hf'
    exact (framesFor_nodup _ _).getElem_inj_iff.mp (hfi.trans (heq.trans hfj.symm))

end Nachos
