import Nachos.Userprog.Transfer

/-!
# Strings between the kernel and user memory

`System2User` stops after the first zero it has written, or after `len` bytes; `User2System` stops
at the first zero it reads, and its buffer is zeroed before. `string_copies` says what they
transfer, for any place in an address space, and that a string comes back as it was.
-/

namespace Nachos

open Prog

/-- How many bytes `System2User` writes: up to the first zero, and at most `len`. -/
def copyLength (len : ℕ) (buffer : List Byte) : ℕ := min len (buffer.findIdx (· == 0) + 1)

theorem untilNul_take (buffer : List Byte) : ∀ len : ℕ,
    untilNul (buffer.take len) = buffer.take (copyLength len buffer) := by
  induction buffer with
  | nil =>
    intro len
    rw [List.take_nil, List.take_nil, untilNul]
  | cons c cs ih =>
    intro len
    cases len with
    | zero => rw [copyLength, Nat.zero_min, List.take_zero, untilNul]
    | succ len =>
      rw [List.take_succ_cons, untilNul, copyLength, List.findIdx_cons]
      by_cases hc : c = 0
      · subst hc
        rw [if_pos rfl, beq_self_eq_true, cond_true, Nat.zero_add,
          Nat.min_eq_right (Nat.succ_pos len)]
        rfl
      · have hfalse : (c == 0) = false := beq_eq_false_iff_ne.mpr hc
        rw [if_neg hc, ih len, hfalse, cond_false, Nat.add_min_add_right, List.take_succ_cons]
        rfl

/-- A string with its zero. -/
theorem untilNul_concat {text : List Byte} (h : 0 ∉ text) :
    untilNul (text ++ [0]) = text ++ [0] := by
  induction text with
  | nil => rfl
  | cons c cs ih =>
    obtain ⟨hc, hcs⟩ := List.ne_and_not_mem_of_not_mem_cons h
    rw [List.cons_append, untilNul, if_neg hc.symm, ih hcs]

theorem copyLength_concat {text : List Byte} (h : 0 ∉ text) :
    copyLength (text.length + 1) (text ++ [0]) = text.length + 1 := by
  have hlen : (text ++ [0]).length = text.length + 1 := List.length_append
  have htake := untilNul_take (text ++ [0]) (text.length + 1)
  rw [← hlen, List.take_length, untilNul_concat h, hlen] at htake
  have htake := congrArg List.length htake
  rw [List.length_take, hlen] at htake
  have hle : copyLength (text.length + 1) (text ++ [0]) ≤ text.length + 1 := Nat.min_le_left _ _
  omega

theorem cstring_of_notMem {text : List Byte} (h : 0 ∉ text) : cstring text = text := by
  unfold cstring
  rw [List.takeWhile_eq_self_iff]
  intro c hc
  exact decide_eq_true fun h0 => h (h0 ▸ hc)

/-- In the zeroed buffer the string ends where the copy did. -/
theorem zeroFilled_eq (bytes : List Byte) : zeroFilled bytes =
    cstring bytes ++ List.replicate (bytes.length - (cstring bytes).length) 0 := by
  induction bytes with
  | nil => rfl
  | cons c cs ih =>
    unfold zeroFilled cstring at ih ⊢
    rw [untilNul, List.takeWhile_cons]
    by_cases hc : c = 0
    · subst hc
      rfl
    · rw [if_neg hc, if_pos (decide_eq_true hc), List.length_cons, List.length_cons,
        List.length_cons, Nat.add_sub_add_right, Nat.add_sub_add_right, List.cons_append, ih,
        List.cons_append]

/-- `bytes` are at `a`, and nothing else is different but use and dirty bits. -/
structure Kernel.Stored (k k' : Kernel) (a : Word) (bytes : List Byte) : Prop where
  here : k'.HasBytes a bytes
  elsewhere : ∀ b, (∀ j < bytes.length, b ≠ a + BitVec.ofNat 32 j) → k'.user b = k.user b
  memory : KeepsOthers k.pageTable a bytes.length k.memory k'.memory
  rest : ∃ m pt, SameMap k.pageTable pt ∧ k' = { k with memory := m, pageTable := pt }

section Copies

variable {k : Kernel} {a : Word}

theorem Kernel.HasBytes.of_prefix {bytes whole : List Byte} (h : k.HasBytes a whole)
    (hp : bytes <+: whole) : k.HasBytes a bytes := by
  intro j c hc
  obtain ⟨hlt, rfl⟩ := List.getElem?_eq_some_iff.mp hc
  exact h j _ (List.prefix_iff_getElem?.mp hp j hlt)

/-- A part of an address space is not larger than the memory of the machine. -/
theorem accessible_le (hs : IsSpace k.pageTable) {n : ℕ}
    (hacc : ∀ j < n, k.user (a + BitVec.ofNat 32 j) ≠ none) : n ≤ memorySize := by
  by_contra hlt
  have h := length_le_memorySize hs (n := memorySize + 1) (by decide) fun j hj =>
    hacc j (by omega)
  exact absurd h (Nat.not_succ_le_self memorySize)

theorem stored_of_putBytes {bytes : List Byte} {m : Memory} {pt : List TranslationEntry}
    (hlen : bytes.length ≤ 2 ^ 32) (hpt : SameMap k.pageTable pt)
    (huser : userMap m pt = putBytes k.user a bytes)
    (hkeep : KeepsOthers k.pageTable a bytes.length k.memory m) :
    k.Stored { k with memory := m, pageTable := pt } a bytes where
  here := by
    intro j c hc
    have hlt := (List.getElem?_eq_some_iff.mp hc).1
    show userMap m pt _ = some c
    rw [huser, putBytes_apply _ _ _ _ hlen (by omega), hc, Option.some_or]
  elsewhere := by
    intro b hb
    have hba : b = a + BitVec.ofNat 32 (b - a).toNat := by
      rw [BitVec.ofNat_toNat, BitVec.setWidth_eq, BitVec.add_comm, BitVec.sub_add_cancel]
    have hle : bytes.length ≤ (b - a).toNat := by
      by_contra hlt
      exact hb _ (not_le.mp hlt) hba
    show userMap m pt b = _
    rw [huser, hba, putBytes_apply _ _ _ _ hlen (b - a).isLt, List.getElem?_eq_none hle,
      Option.none_or]
  memory := hkeep
  rest := ⟨m, pt, hpt, rfl⟩

/-- `System2User` -/
theorem system2User_stored (hs : IsSpace k.pageTable) {len : ℕ} {buffer : List Byte} (h0 : 0 < len)
    (hlen : copyLength len buffer ≤ buffer.length)
    (hacc : ∀ j < copyLength len buffer, k.user (a + BitVec.ofNat 32 j) ≠ none) :
    ∃ k', (system2User a len buffer).run k = .done (copyLength len buffer) k' ∧
      k.Stored k' a (buffer.take (copyLength len buffer)) := by
  have hcopied := untilNul_take buffer len
  have hlength : (buffer.take (copyLength len buffer)).length = copyLength len buffer := by
    rw [List.length_take, Nat.min_eq_left hlen]
  have hlooks : LooksAt len (buffer.take len) := by
    rw [LooksAt, List.length_take]
    by_cases hle : len ≤ buffer.length
    · exact Or.inl (Nat.min_eq_left hle).symm
    · -- the copy stops at a zero
      have hlt : buffer.findIdx (· == 0) < buffer.length := by
        rw [copyLength] at hlen
        omega
      refine Or.inr ⟨by omega, ?_⟩
      rw [List.take_of_length_le (by omega)]
      have hzero := List.findIdx_getElem (w := hlt)
      exact eq_of_beq hzero ▸ List.getElem_mem hlt
  have hne : buffer.take len ≠ [] := by
    intro hnil
    rw [hnil, untilNul] at hcopied
    rw [← hcopied, List.length_nil, copyLength] at hlength
    omega
  obtain ⟨m, pt, hpt, hrun, huser, hkeep⟩ := system2User_run hs hlooks
    (by rw [hcopied, hlength]; exact hacc) (List.take_prefix len buffer) hne
  rw [hcopied] at huser hkeep hrun
  rw [hlength] at hrun
  refine ⟨_, hrun, stored_of_putBytes ?_ hpt huser hkeep⟩
  have := accessible_le hs hacc
  rw [hlength]
  exact this.trans (by decide)

/-- `User2System` -/
theorem user2System_copies (hs : IsSpace k.pageTable) {bytes : List Byte} (h : k.HasBytes a bytes) :
    ∃ k', (user2System a bytes.length).run k = .done (cstring bytes ++
      List.replicate (bytes.length + 1 - (cstring bytes).length) 0) k' ∧ k.Stored k' a [] := by
  have hlen := accessible_le hs h.accessible
  have hsize : bytes.length ≤ 65536 := hlen
  obtain ⟨pt, hpt, hrun⟩ := user2System_run h (by omega)
  have hcut : (cstring bytes).length ≤ bytes.length := (List.takeWhile_prefix _).length_le
  have hpad : bytes.length + 1 - (cstring bytes).length =
      bytes.length - (cstring bytes).length + 1 := by omega
  rw [zeroFilled_eq, List.append_assoc, ← List.replicate_succ', ← hpad] at hrun
  refine ⟨_, hrun, ?_, ?_, fun _ _ => rfl, k.memory, pt, hpt, rfl⟩
  · exact fun j c hc => nomatch hc
  · exact fun b _ => congrFun (hpt.userMap k.memory) b

/-- A string that was copied to user memory with its zero comes back. -/
theorem string_round_trip (hs : IsSpace k.pageTable) {text : List Byte} (htext : 0 ∉ text)
    (hacc : ∀ j ≤ text.length, k.user (a + BitVec.ofNat 32 j) ≠ none) :
    ∃ k₁ k₂, (system2User a (text.length + 1 : ℕ) (text ++ [0])).run k =
        .done (text.length + 1 : ℕ) k₁ ∧
      (user2System a text.length).run k₁ = .done (text ++ [0]) k₂ := by
  have hcopy := copyLength_concat htext
  have hlen : (text ++ [0]).length = text.length + 1 := List.length_append
  obtain ⟨k₁, hrun₁, hstored⟩ := @system2User_stored k a hs _ (text ++ [0])
    (Nat.succ_pos text.length) (hcopy.trans hlen.symm).le
    (hcopy ▸ fun j hj => hacc j (Nat.lt_succ_iff.mp hj))
  rw [hcopy] at hrun₁ hstored
  rw [← hlen, List.take_length] at hstored
  obtain ⟨m, pt, hpt, rfl⟩ := hstored.rest
  obtain ⟨k₂, hrun₂, -⟩ :=
    user2System_copies (hpt.isSpace hs) (hstored.here.of_prefix (List.prefix_append text [0]))
  refine ⟨_, k₂, hrun₁, ?_⟩
  rw [hrun₂, cstring_of_notMem htext, Nat.add_sub_cancel_left]
  rfl

end Copies

/-- What the two copies transfer between the kernel and the address space of the process. -/
theorem string_copies {k : Kernel} (hs : IsSpace k.pageTable) (a : Word) :
    (∀ (len : ℕ) (buffer : List Byte), 0 < len → copyLength len buffer ≤ buffer.length →
      (∀ j < copyLength len buffer, k.user (a + BitVec.ofNat 32 j) ≠ none) →
      ∃ k', (system2User a len buffer).run k = .done (copyLength len buffer) k' ∧
        k.Stored k' a (buffer.take (copyLength len buffer))) ∧
    (∀ bytes, k.HasBytes a bytes →
      ∃ k', (user2System a bytes.length).run k = .done (cstring bytes ++
        List.replicate (bytes.length + 1 - (cstring bytes).length) 0) k' ∧ k.Stored k' a []) ∧
    ∀ text : List Byte, 0 ∉ text →
      (∀ j ≤ text.length, k.user (a + BitVec.ofNat 32 j) ≠ none) →
      ∃ k₁ k₂, (system2User a (text.length + 1 : ℕ) (text ++ [0])).run k =
          .done (text.length + 1 : ℕ) k₁ ∧
        (user2System a text.length).run k₁ = .done (text ++ [0]) k₂ :=
  ⟨fun _ _ h0 hlen hacc => system2User_stored hs h0 hlen hacc,
    fun _ h => user2System_copies hs h, fun _ htext hacc => string_round_trip hs htext hacc⟩

/-- A byte that is negative as a `char` makes the round trip. -/
theorem string_copies_high_byte : ∃ k₁ k₂,
    (system2User 0 2 [0x80, 0]).run (writer [1, 2]) = .done 2 k₁ ∧
      (user2System 0 1).run k₁ = .done [0x80, 0] k₂ :=
  (string_copies (writer_isSpace [1, 2]) 0).2.2 [0x80] (by decide) fun _ hj =>
    (writer_hasBytes (by decide)).accessible _ (Nat.lt_succ_of_le hj)

end Nachos
