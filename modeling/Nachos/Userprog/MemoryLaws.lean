import Nachos.Machine.Isolation
import Nachos.Userprog.UserMemory

/-!
# `ReadMem` after `WriteMem`

The page table is any linear one: entries that are valid are in different frames of the machine. A
store then changes the bytes at its virtual addresses and no other byte, and a load of any size
puts together the bytes it finds, the lowest first (`user_memory`).
-/

namespace Nachos

/-- The entries that are valid map to different frames below `NumPhysPages`. -/
structure IsLinear (pt : List TranslationEntry) : Prop where
  frame : ∀ (i : ℕ) e, pt[i]? = some e → e.valid = true →
    0 ≤ e.physicalPage ∧ e.physicalPage < numPhysPages
  distinct : ∀ (i j : ℕ) e e', pt[i]? = some e → pt[j]? = some e' → e.valid = true →
    e'.valid = true → e.physicalPage = e'.physicalPage → i = j

/-! ## Bytes of a value -/

/-- Byte `i` of a value, the lowest first. -/
def byteOf (v : Word) (i : ℕ) : Byte := v.extractLsb' (8 * i) 8

/-- The value of `size` bytes: a `char` is signed, an `unsigned short` is not. -/
def valueOf (bytes : ℕ → Byte) : ℕ → Word
  | 1 => (bytes 0).signExtend 32
  | 2 => (bytes 1 ++ bytes 0 : BitVec 16).setWidth 32
  | _ => bytes 3 ++ bytes 2 ++ bytes 1 ++ bytes 0

/-- A value reduced to `size` bytes. -/
def reduced (v : Word) : ℕ → Word
  | 1 => (v.setWidth 8).signExtend 32
  | 2 => (v.setWidth 16).setWidth 32
  | _ => v

section Bytes

variable {size : ℕ} {f g : ℕ → Byte}

theorem valueOf_congr (hsize : accessSize size) (h : ∀ i < size, f i = g i) :
    valueOf f size = valueOf g size := by
  rcases hsize with rfl | rfl | rfl
  · rw [valueOf, valueOf, h 0 (by omega)]
  · rw [valueOf, valueOf, h 0 (by omega), h 1 (by omega)]
  · rw [valueOf, valueOf, h 0 (by omega), h 1 (by omega), h 2 (by omega), h 3 (by omega)]
    all_goals omega

theorem byteOf_signExtend (x : Byte) : byteOf (x.signExtend 32) 0 = x := by
  apply BitVec.eq_of_getLsbD_eq
  intro j hj
  simp only [byteOf, BitVec.getLsbD_extractLsb', BitVec.getLsbD_signExtend]
  grind

theorem byteOf_short (x y : Byte) {i : ℕ} (hi : i < 2) :
    byteOf ((x ++ y).setWidth 32) i = if i = 0 then y else x := by
  apply BitVec.eq_of_getLsbD_eq
  intro j hj
  simp only [byteOf, BitVec.getLsbD_extractLsb', BitVec.getLsbD_setWidth, BitVec.getLsbD_append]
  grind

theorem byteOf_word (x y z w : Byte) {i : ℕ} (hi : i < 4) :
    byteOf (x ++ y ++ z ++ w) i =
      if i = 0 then w else if i = 1 then z else if i = 2 then y else x := by
  apply BitVec.eq_of_getLsbD_eq
  intro j hj
  simp only [byteOf, BitVec.getLsbD_extractLsb', BitVec.getLsbD_append]
  grind

theorem byteOf_valueOf (hsize : accessSize size) {i : ℕ} (hi : i < size) :
    byteOf (valueOf f size) i = f i := by
  rcases hsize with rfl | rfl | rfl
  · rw [Nat.lt_one_iff.mp hi]
    exact byteOf_signExtend (f 0)
  · refine (byteOf_short (f 1) (f 0) hi).trans ?_
    split_ifs with h0
    · rw [h0]
    · rw [show i = 1 by omega]
  · refine (byteOf_word (f 3) (f 2) (f 1) (f 0) hi).trans ?_
    split_ifs with h0 h1 h2
    · rw [h0]
    · rw [h1]
    · rw [h2]
    · rw [show i = 3 by omega]

theorem short_byteOf (v : Word) :
    (byteOf v 1 ++ byteOf v 0).setWidth 32 = (v.setWidth 16).setWidth 32 := by
  apply BitVec.eq_of_getLsbD_eq
  intro j hj
  simp only [byteOf, BitVec.getLsbD_extractLsb', BitVec.getLsbD_setWidth, BitVec.getLsbD_append]
  grind

theorem byteOf_zero (v : Word) : byteOf v 0 = v.setWidth 8 := by
  apply BitVec.eq_of_getLsbD_eq
  intro j hj
  simp only [byteOf, BitVec.getLsbD_extractLsb', BitVec.getLsbD_setWidth]
  grind

theorem valueOf_byteOf (hsize : accessSize size) (v : Word) :
    valueOf (byteOf v) size = reduced v size := by
  rcases hsize with rfl | rfl | rfl
  · rw [valueOf, byteOf_zero, reduced]
  · exact short_byteOf v
  · exact append_extractLsb' v

theorem loadValue_eq (m : Memory) (p : ℕ) (hsize : accessSize size) :
    loadValue m p size = some (valueOf (fun i => m ((p + i : ℕ) : ℤ)) size) := by
  rcases hsize with rfl | rfl | rfl <;> rfl

theorem storeBytes_eq (p : ℕ) (v : Word) (hsize : accessSize size) :
    storeBytes p v size =
      some ((List.range size).map fun i => (((p + i : ℕ) : ℤ), byteOf v i)) := by
  have h0 := byteOf_zero v
  rcases hsize with rfl | rfl | rfl <;> unfold storeBytes <;> rw [← h0] <;> rfl

/-- What a store leaves at a place. -/
theorem store_apply_range (m : Memory) (p : ℕ) (f : ℕ → Byte) (q : ℕ) :
    Store.store m ((List.range size).map fun i => (((p + i : ℕ) : ℤ), f i)) q =
      if p ≤ q ∧ q < p + size then f (q - p) else m q := by
  split_ifs with hq
  · have hlast : Store.last ((List.range size).map fun i => (((p + i : ℕ) : ℤ), f i)) q =
        some (f (q - p)) := by
      refine Store.last_eq_some_of_unique ?_ fun u hu => ?_
      · refine List.mem_map.mpr ⟨q - p, List.mem_range.mpr (by omega), ?_⟩
        rw [show p + (q - p) = q by omega]
      · obtain ⟨i, -, he⟩ := List.mem_map.mp hu
        rw [Prod.mk.injEq, Nat.cast_inj] at he
        rw [← he.2, show i = q - p by omega]
    rw [Store.store_apply, hlast, Option.getD_some]
  · refine Store.store_of_forall_ne fun x hx => ?_
    obtain ⟨i, hi, rfl⟩ := List.mem_map.mp hx
    have hi := List.mem_range.mp hi
    dsimp only
    omega

end Bytes

/-! ## Translation -/

/-- The same answer with another result. -/
def Access.map {α β : Type} (f : α → β) : Access α → Access β
  | .ok a => .ok (f a)
  | .exception which => .exception which
  | .assertFailed => .assertFailed

/-- Use and dirty bits do not matter to `Translate`. -/
theorem SameMap.translate {pt pt' : List TranslationEntry} (h : SameMap pt pt') (a : Word)
    (size : ℕ) (writing : Bool) : (translate pt' a size writing).map Prod.fst =
      (translate pt a size writing).map Prod.fst := by
  have hvpn := h (a.toNat / pageSize)
  unfold Nachos.translate
  split_ifs
  · rfl
  rcases he : pt[a.toNat / pageSize]? with _ | e
  · rw [he, Option.map_none, Option.map_eq_none_iff] at hvpn
    simp only [hvpn, he]
  · rw [he, Option.map_some] at hvpn
    obtain ⟨e', he', hm⟩ := Option.map_eq_some_iff.mp hvpn
    simp only [TranslationEntry.mapping, Prod.mk.injEq] at hm
    obtain ⟨hp, hv, hr⟩ := hm
    simp only [he, he', hp, hv, hr]
    split_ifs <;> rfl

/-- Where a translation leads, in pages and frames. -/
theorem IsLinear.translate {pt pt' : List TranslationEntry} (hpt : IsLinear pt) {a : Word}
    {size p : ℕ} {writing : Bool} (hsize : accessSize size)
    (h : Nachos.translate pt a size writing = .ok (p, pt')) :
    ∃ e, pt[a.toNat / pageSize]? = some e ∧ e.valid = true ∧
      (p : ℤ) = e.physicalPage * pageSize + (a.toNat % pageSize : ℕ) ∧
      a.toNat % pageSize + size ≤ pageSize := by
  unfold Nachos.translate at h
  split_ifs at h with halign
  rcases he : pt[a.toNat / pageSize]? with _ | e
  · simp only [he] at h
    cases h
  · simp only [he] at h
    split_ifs at h with hinvalid
    cases h
    have hvalid : e.valid = true := by
      cases hv : e.valid with
      | true => rfl
      | false => exact absurd (by rw [hv]; rfl) hinvalid
    obtain ⟨h0, hlt⟩ := hpt.frame _ e he hvalid
    obtain ⟨f, hf⟩ := Int.eq_ofNat_of_zero_le h0
    have hframe : (BitVec.ofInt 32 e.physicalPage).toNat = f := by
      rw [hf] at hlt ⊢
      rw [BitVec.ofInt_natCast, BitVec.toNat_ofNat, Nat.mod_eq_of_lt]
      have hlt : f < 128 := Int.ofNat_lt.mp hlt
      omega
    refine ⟨e, rfl, hvalid, ?_, fits_page hsize halign⟩
    rw [hframe, hf, Nat.cast_add, Nat.cast_mul]

/-- What `ReadMem` yields: the value, or an exception. -/
def Machine.readValue (m : Machine) (addr : Word) (size : ℕ) : Access Word :=
  (readMem m.mainMemory m.pageTable addr size).map Prod.fst

theorem Machine.readValue_eq (m : Machine) (addr : Word) {size : ℕ} (hsize : accessSize size) :
    m.readValue addr size = ((Nachos.translate m.pageTable addr size false).map Prod.fst).map
      fun p => valueOf (fun i => m.mainMemory ((p + i : ℕ) : ℤ)) size := by
  unfold readValue readMem
  rcases Nachos.translate m.pageTable addr size false with ⟨p, pt⟩ | which | _
  · dsimp only
    rw [loadValue_eq _ _ hsize]
    rfl
  · rfl
  · rfl

/-! ## Laws -/

/-- The addresses are no address of the other range. -/
def Apart (a : Word) (s : ℕ) (b : Word) (t : ℕ) : Prop :=
  a.toNat + s ≤ b.toNat ∨ b.toNat + t ≤ a.toNat

/-- The bytes at `b` after a store of `v` at `a`, where `old` was read at `b` before. -/
def overlay (a : Word) (s : ℕ) (v : Word) (b : Word) (old : Word) (i : ℕ) : Byte :=
  if a.toNat ≤ b.toNat + i ∧ b.toNat + i < a.toNat + s then byteOf v (b.toNat + i - a.toNat)
  else byteOf old i

section Laws

variable {m m' : Machine} {a b : Word} {s t : ℕ} {v : Word}

/-- What a `WriteMem` that succeeds makes of the machine. -/
theorem store_done (hs : accessSize s) (h : (Cpu.store a s v).run m = .done () m') :
    ∃ p pt, translate m.pageTable a s true = .ok (p, pt) ∧ SameMap m.pageTable m'.pageTable ∧
      ∀ q : ℕ, m'.mainMemory q =
        if p ≤ q ∧ q < p + s then byteOf v (q - p) else m.mainMemory q := by
  unfold Cpu.store Cpu.run writeMem at h
  rcases htr : translate m.pageTable a s true with ⟨p, pt⟩ | which | _
  · rw [htr] at h
    dsimp only at h
    rw [storeBytes_eq p v hs] at h
    cases h
    exact ⟨p, pt, rfl, translate_sameMap htr, store_apply_range m.mainMemory p (byteOf v)⟩
  · have hraise : (m.raiseException which a : Result Unit) ≠ .done () m' := by
      unfold Machine.raiseException
      split <;> nofun
    rw [htr] at h
    exact absurd h hraise
  · rw [htr] at h
    cases h

/-- A load puts together the bytes of the store and the bytes that were there. -/
theorem readValue_store (hpt : IsLinear m.pageTable) (hs : accessSize s) (ht : accessSize t)
    (h : (Cpu.store a s v).run m = .done () m') :
    m'.readValue b t = (m.readValue b t).map fun old => valueOf (overlay a s v b old) t := by
  obtain ⟨p, pt, htr, hsame, hmem⟩ := store_done hs h
  obtain ⟨e, he, hvalid, hp, hfit⟩ := hpt.translate hs htr
  rw [m'.readValue_eq b ht, m.readValue_eq b ht, hsame.translate b t false]
  rcases htr' : translate m.pageTable b t false with ⟨q, pt'⟩ | which | _
  · refine congrArg Access.ok (valueOf_congr ht fun i hi => ?_)
    obtain ⟨e', he', hvalid', hq, hfit'⟩ := hpt.translate ht htr'
    unfold overlay
    rw [byteOf_valueOf ht hi, hmem]
    have hpage : pageSize = 512 := rfl
    rw [hpage] at he he' hp hq hfit hfit'
    by_cases hsamePage : a.toNat / 512 = b.toNat / 512
    · -- one page, and so one frame
      rw [hsamePage, he', Option.some.injEq] at he
      subst he
      have hin : (p ≤ q + i ∧ q + i < p + s) ↔
          (a.toNat ≤ b.toNat + i ∧ b.toNat + i < a.toNat + s) := by omega
      by_cases hc : a.toNat ≤ b.toNat + i ∧ b.toNat + i < a.toNat + s
      · rw [if_pos (hin.mpr hc), if_pos hc, show q + i - p = b.toNat + i - a.toNat by omega]
      · rw [if_neg (mt hin.mp hc), if_neg hc]
    · -- two pages, and so two frames
      have hframes : e.physicalPage ≠ e'.physicalPage :=
        fun heq => hsamePage (hpt.distinct _ _ e e' he he' hvalid hvalid' heq)
      rw [if_neg (by omega), if_neg (by omega)]
  · rfl
  · rfl

/-- An access that fails leaves the memory and the page table. -/
theorem store_fails (h : ∀ m', (Cpu.store a s v).run m ≠ .done () m') :
    ((Cpu.store a s v).run m).last.mainMemory = m.mainMemory ∧
      ((Cpu.store a s v).run m).last.pageTable = m.pageTable := by
  unfold Cpu.store Cpu.run at h ⊢
  rcases hw : writeMem m.mainMemory m.pageTable a s v with ⟨mem, pt⟩ | which | _
  · rw [hw] at h
    exact absurd rfl (h _)
  · dsimp only
    unfold Machine.raiseException
    split <;> exact ⟨rfl, rfl⟩
  · exact ⟨rfl, rfl⟩

/-- A load changes no memory, whether it fails or not. -/
theorem load_mainMemory : ((Cpu.load b t).run m).last.mainMemory = m.mainMemory := by
  unfold Cpu.load Cpu.run
  rcases hr : readMem m.mainMemory m.pageTable b t with ⟨value, pt⟩ | which | _
  · rfl
  · dsimp only
    unfold Machine.raiseException
    split <;> rfl
  · rfl

/-- Where a store succeeds, a load of the same bytes does. -/
theorem readValue_ok (hs : accessSize s) (h : (Cpu.store a s v).run m = .done () m') :
    ∃ old, m.readValue a s = .ok old := by
  obtain ⟨p, pt, htr, -, -⟩ := store_done hs h
  obtain ⟨pt', hload⟩ := translate_load htr
  rw [m.readValue_eq a hs, hload]
  exact ⟨_, rfl⟩

end Laws

/-- User memory under any linear page table: after a store of `v` at `a` a load from `a` yields `v`
reduced to the size, a load elsewhere yields what it yielded before, and any load yields the bytes
of `v` where it meets them and the old bytes elsewhere. A store that fails, and any load, changes
no memory. -/
theorem user_memory {m : Machine} (hpt : IsLinear m.pageTable) {s t : ℕ} (hs : accessSize s)
    (ht : accessSize t) (a b v : Word) :
    (∀ m', (Cpu.store a s v).run m = .done () m' →
      m'.readValue a s = .ok (reduced v s) ∧
      (Apart a s b t → m'.readValue b t = m.readValue b t) ∧
      m'.readValue b t = (m.readValue b t).map fun old => valueOf (overlay a s v b old) t) ∧
    ((∀ m', (Cpu.store a s v).run m ≠ .done () m') →
      ((Cpu.store a s v).run m).last.mainMemory = m.mainMemory) ∧
    ((Cpu.load b t).run m).last.mainMemory = m.mainMemory := by
  refine ⟨fun m' h => ⟨?_, fun hapart => ?_, readValue_store hpt hs ht h⟩,
    fun h => (store_fails h).1, load_mainMemory⟩
  · obtain ⟨old, hold⟩ := readValue_ok hs h
    rw [readValue_store hpt hs hs h, hold, ← valueOf_byteOf hs v]
    refine congrArg Access.ok (valueOf_congr hs fun i hi => ?_)
    unfold overlay
    rw [if_pos (by omega), Nat.add_sub_cancel_left]
  · rw [readValue_store hpt hs ht h, m.readValue_eq b ht]
    rcases (translate m.pageTable b t false).map Prod.fst with q | which | _
    · refine congrArg Access.ok (valueOf_congr ht fun i hi => ?_)
      unfold overlay Apart at *
      rw [if_neg (by omega), byteOf_valueOf ht hi]
    · rfl
    · rfl

theorem isLinear_onePage : IsLinear onePage := by
  have hone : ∀ (i : ℕ) e, onePage[i]? = some e → i = 0 ∧ e.physicalPage = 0 := by
    intro i e he
    obtain ⟨hi, rfl⟩ := List.getElem?_eq_some_iff.mp he
    obtain rfl : i = 0 := Nat.lt_one_iff.mp hi
    exact ⟨rfl, rfl⟩
  refine ⟨fun i e he _ => ?_, fun i j e e' he he' _ _ _ => ?_⟩
  · rw [(hone i e he).2]
    exact ⟨le_rfl, Int.natCast_pos.mpr (by decide)⟩
  · rw [(hone i e he).1, (hone j e' he').1]

/-- A machine with one page and a memory of zeros. -/
def zeroMachine : Machine where
  registers := fun _ => 0
  mainMemory := fun _ => 0
  pageTable := onePage
  accesses := []

/-- A word is stored; its second byte is read as a signed `char`. -/
theorem user_memory_char : ∃ m', (Cpu.store 4 4 0x80FF).run zeroMachine = .done () m' ∧
    m'.readValue 4 4 = .ok 0x80FF ∧ m'.readValue 5 1 = .ok 0xFFFFFF80 := by
  have hlinear : IsLinear zeroMachine.pageTable := isLinear_onePage
  obtain ⟨hself, -, hchar⟩ := (user_memory hlinear (Or.inr (Or.inr rfl)) (Or.inl rfl)
    4 5 0x80FF).1 _ rfl
  exact ⟨_, rfl, hself, hchar⟩

end Nachos
