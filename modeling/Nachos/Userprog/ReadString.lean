import Nachos.Userprog.StringCopy
import Nachos.Userprog.ConsoleRead

/-!
# The buffer of `SC_ReadString`

The call reads up to `length` characters, puts a zero after them in a kernel buffer that is one byte
longer, and copies the characters and the zero to the buffer of the user: a line with `length`
characters takes `length + 1` bytes there. `respectsBuffer_iff` says for which lines and buffers the
call keeps to what it was given.
-/

namespace Nachos

open Prog

section Copies

variable {k k' : Kernel} {a : Word}

/-- A copy that ends has been to addresses of the process only. -/
theorem system2UserLoop_accessible (buffer : List Byte) (bytes : List Byte) :
    ∀ (n i : ℕ) (k : Kernel) (r : ℤ) (k' : Kernel), LooksAt n bytes → IsSpace k.pageTable →
      (∀ j c, bytes[j]? = some c → buffer[i + j]? = some c) →
      (system2UserLoop a buffer i n).run k = .done r k' →
      ∀ j < (untilNul bytes).length, k.user (a + BitVec.ofNat 32 (i + j)) ≠ none := by
  induction bytes with
  | nil => exact fun _ _ _ _ _ _ _ _ _ j hj => absurd hj (Nat.not_lt_zero j)
  | cons c cs ih =>
    intro n i k r k' hn hs hbuf hrun j hj
    have hb : buffer[i]? = some c := hbuf 0 c rfl
    obtain ⟨n, rfl⟩ := hn.exists_succ
    unfold system2UserLoop at hrun
    rw [hb] at hrun
    dsimp only at hrun
    rw [run_bind] at hrun
    have hacc : k.user (a + BitVec.ofNat 32 i) ≠ none := by
      rcases hw : (writeMemByte (a + BitVec.ofNat 32 i) (c.signExtend 32)).run k with
        ⟨_, k₁⟩ | d | ⟨call, k₁, resume⟩
      · exact writeMemByte_accessible hw
      · rw [hw] at hrun
        cases hrun
      · rw [hw] at hrun
        cases hrun
    cases j with
    | zero => exact hacc
    | succ j =>
      obtain ⟨m, pt, hpt, hw, huser, -⟩ := writeMemByte_run (c := c) hs hacc
      rw [hw, Res.bind_done] at hrun
      rw [untilNul] at hj
      by_cases hc : c = 0
      · rw [if_pos hc] at hj
        have hj : j + 1 < 1 := hj
        omega
      · rw [if_neg hc] at hj hrun
        have hrest := ih n (i + 1) { k with memory := m, pageTable := pt } r k' (hn.tail hc)
          (hpt.isSpace hs) (fun j c' hj => by
            rw [Nat.add_assoc, Nat.add_comm 1 j]
            exact hbuf (j + 1) c' hj) hrun j (Nat.lt_of_succ_lt_succ hj)
        rw [Nat.add_assoc, Nat.add_comm 1 j] at hrest
        exact (hpt.accessible_iff _ _ _).mp hrest

theorem untilNul_concat_zero (text : List Byte) : untilNul (text ++ [0]) = cstring text ++ [0] := by
  induction text with
  | nil => rfl
  | cons c cs ih =>
    unfold cstring at ih ⊢
    rw [List.cons_append, untilNul, List.takeWhile_cons]
    by_cases hc : c = 0
    · subst hc
      rfl
    · rw [if_neg hc, if_pos (decide_eq_true hc), ih, List.cons_append]

/-- The copy of `text` and the zero after it: what it stores, and where it has to. -/
theorem system2User_concat_zero (hs : IsSpace k.pageTable) (text rest : List Byte) :
    (∀ r k', (system2User a (text.length + 1 : ℕ) (text ++ 0 :: rest)).run k = .done r k' →
      ∀ j ≤ (cstring text).length, k.user (a + BitVec.ofNat 32 j) ≠ none) ∧
    ((∀ j ≤ (cstring text).length, k.user (a + BitVec.ofNat 32 j) ≠ none) →
      ∃ k', (system2User a (text.length + 1 : ℕ) (text ++ 0 :: rest)).run k =
          .done ((cstring text).length + 1 : ℕ) k' ∧ k.Stored k' a (cstring text ++ [0])) := by
  have hsplit : text ++ 0 :: rest = text ++ [0] ++ rest := List.append_cons text 0 rest
  have hlen : (text ++ [0]).length = text.length + 1 := List.length_append
  have hstored : (untilNul (text ++ [0])).length = (cstring text).length + 1 := by
    rw [untilNul_concat_zero, List.length_append]
    rfl
  constructor
  · intro r k' hrun j hj
    unfold system2User at hrun
    rw [if_neg (by omega), if_neg (by omega), Int.toNat_natCast, hsplit] at hrun
    have hacc := system2UserLoop_accessible _ (text ++ [0]) _ 0 k r k' (Or.inl hlen.symm) hs
      (fun j c hj => by
        rw [Nat.zero_add, List.getElem?_append_left (List.getElem?_eq_some_iff.mp hj).1]
        exact hj) hrun j (by omega)
    rwa [Nat.zero_add] at hacc
  · intro hacc
    obtain ⟨m, pt, hpt, hrun, huser, hkeep⟩ := system2User_run (b := text ++ 0 :: rest) hs
      (Or.inl hlen.symm) (fun j hj => hacc j (by omega)) (hsplit ▸ List.prefix_append _ rest)
      (List.append_ne_nil_of_right_ne_nil text (List.cons_ne_nil 0 []))
    have hsize := accessible_le hs fun j (hj : j < (cstring text).length + 1) => hacc j (by omega)
    rw [hstored] at hrun
    rw [untilNul_concat_zero] at huser hkeep
    refine ⟨_, hrun, stored_of_putBytes ?_ hpt huser hkeep⟩
    rw [List.length_append]
    exact hsize.trans (by decide)

end Copies

/-! ## The call -/

section Call

variable {k : Kernel} {line rest : List Byte} {e : LineEnd} {n : ℕ}

/-- What the call does with a line: `buffer[-1]` for a line that ends with Ctrl-A. -/
def gotString (a : Word) (n : ℕ) (line rest : List Byte) (e : LineEnd) (k : Kernel) :
    Res Kernel Call.Reply End Leave :=
  if e = .ctrlA then .stop (.down .undefined)
  else if line = [] then
    .done .brk { k with input := rest, printed := k.printed ++ [.readStringEmpty] }
  else ((system2User a (line.length + 1 : ℕ) (line ++ 0 :: List.replicate (n - line.length) 0)).run
    { k with input := rest }).bind fun byteCopied k' =>
      .done .brk (if byteCopied ≤ 0 then
        { k' with printed := k'.printed ++ [.readStringFailed] } else k')

theorem scReadString_run (hn : (k.registers 5).toInt = n) (h0 : 0 < n) (hmax : n ≠ 2 ^ 31 - 1) :
    ∃ resume, scReadString.run k = .wait .consoleRead k resume ∧
      ∀ (k₁ : Kernel) line e rest, readLine n k₁.input = some (line, e, rest) →
        resume () k₁ = gotString (k.registers 4) n line rest e k₁ := by
  have hsize := toInt_add_one (k.registers 5)
  rw [if_neg (by omega), hn] at hsize
  have hbuf : n ≤ (List.replicate (n + 1) (0 : Byte)).length := by
    rw [List.length_replicate]
    omega
  obtain ⟨resume, hrun, hresume⟩ := synchRead_run h0 hbuf k
  unfold scReadString
  simp only [run_bind, readRegister, run_look, Res.bind_done]
  rw [hsize, hn, if_neg (by omega)]
  have hnat : ((n : ℤ) + 1).toNat = n + 1 := rfl
  rw [run_bind, hnat, hrun]
  refine ⟨_, rfl, ?_⟩
  intro k₁ line e rest hline
  have hlen := readLine_length_le _ _ hline
  rw [hresume k₁ line e rest hline, Res.bind_done]
  unfold gotString
  dsimp only
  by_cases he : e = .ctrlA
  · rw [if_pos he, if_pos he]
    rfl
  have hfill : line ++ List.replicate (n - line.length) 0 ++
      (List.replicate (n + 1) (0 : Byte)).drop n =
        line ++ 0 :: List.replicate (n - line.length) 0 := by
    rw [List.drop_replicate, Nat.add_sub_cancel_left, List.append_assoc, ← List.replicate_add]
    rfl
  rw [if_neg he, if_neg he, hfill, run_bind, putByte_run (by simp), Res.bind_done,
    List.set_append_right _ _ le_rfl, Nat.sub_self, List.set_cons_zero]
  by_cases hempty : line = []
  · subst hempty
    rfl
  have hpos : (line.length : ℤ) ≠ 0 := by
    have := List.length_pos_iff.mpr hempty
    omega
  rw [if_neg hpos, if_neg hempty, run_bind]
  refine congrArg _ (funext fun byteCopied => funext fun k' => ?_)
  split_ifs <;> rfl

/-- Of the user memory only the `n` bytes at `a` are different; of a line that is not empty they
hold a prefix, with a zero behind it. -/
structure KeptTo (k k' : Kernel) (a : Word) (n : ℕ) (line : List Byte) : Prop where
  outside : ∀ b, (∀ j < n, b ≠ a + BitVec.ofNat 32 j) → k'.user b = k.user b
  inside : line ≠ [] → ∃ stored, stored <+: line ∧ stored.length + 1 ≤ n ∧
    k'.HasBytes a (stored ++ [0])

/-- `SC_ReadString` waits for the line, returns, and has kept to the buffer of the user. -/
def RespectsBuffer (k : Kernel) (line : List Byte) : Prop :=
  ∃ resume, scReadString.run k = .wait .consoleRead k resume ∧
    ∀ k₁, k.Mine k₁ → ∃ k', resume () k₁ = .done .brk k' ∧
      KeptTo k₁ k' (k.registers 4) (k.registers 5).toInt.toNat line

/-- The characters up to the first zero, and a zero, fit into the buffer and the address space. -/
def FitsBuffer (k : Kernel) (n : ℕ) (line : List Byte) : Prop :=
  (cstring line).length < n ∧
    ∀ j ≤ (cstring line).length, k.user (k.registers 4 + BitVec.ofNat 32 j) ≠ none

/-- A string that is in memory with its zero is not longer than any other that is at this place. -/
theorem Kernel.HasBytes.length_cstring_le {a : Word} {text stored : List Byte}
    (h : k.HasBytes a (cstring text ++ [0])) (h' : k.HasBytes a (stored ++ [0])) :
    (cstring text).length ≤ stored.length := by
  by_contra hlt
  have hlt := not_le.mp hlt
  have hzero : (stored ++ [0])[stored.length]? = some 0 := List.getElem?_concat_length
  have hchar : (cstring text ++ [0])[stored.length]? = some (cstring text)[stored.length] := by
    rw [List.getElem?_append_left hlt, List.getElem?_eq_getElem hlt]
  have heq := (h _ _ hchar).symm.trans (h' _ _ hzero)
  exact cstring_ne_zero (List.getElem_mem hlt) (Option.some.inj heq)

theorem RespectsBuffer.fits (hs : IsSpace k.pageTable) (hn : (k.registers 5).toInt = n) (h0 : 0 < n)
    (hline : readLine n k.input = some (line, e, rest)) (h : RespectsBuffer k line) :
    n ≠ 2 ^ 31 - 1 ∧ e ≠ .ctrlA ∧ (line ≠ [] → FitsBuffer k n line) := by
  obtain ⟨resume', hrun', h⟩ := h
  have hmax : n ≠ 2 ^ 31 - 1 := by
    intro hmax
    have hsize := toInt_add_one (k.registers 5)
    rw [if_pos (by omega)] at hsize
    unfold scReadString at hrun'
    simp only [run_bind, readRegister, run_look, Res.bind_done] at hrun'
    rw [hsize, if_pos (by decide)] at hrun'
    cases hrun'
  obtain ⟨resume, hrun, hresume⟩ := scReadString_run hn h0 hmax
  obtain rfl : resume' = resume := by
    rw [hrun] at hrun'
    cases hrun'
    rfl
  obtain ⟨k', hk', hkept⟩ := h k k.mine_refl
  rw [hresume k line e rest hline] at hk'
  unfold gotString at hk'
  have he : e ≠ .ctrlA := by
    intro he
    rw [if_pos he] at hk'
    cases hk'
  refine ⟨hmax, he, fun hne => ?_⟩
  rw [if_neg he, if_neg hne] at hk'
  obtain ⟨hacc, hstores⟩ := @system2User_concat_zero { k with input := rest } (k.registers 4) hs
    line (List.replicate (n - line.length) 0)
  have hacc : ∀ j ≤ (cstring line).length, k.user (k.registers 4 + BitVec.ofNat 32 j) ≠ none := by
    rcases hcopy : (system2User (k.registers 4) (line.length + 1 : ℕ)
      (line ++ 0 :: List.replicate (n - line.length) 0)).run { k with input := rest } with
      ⟨r, k''⟩ | d | ⟨call, k'', resume⟩
    · exact hacc r k'' hcopy
    · rw [hcopy] at hk'
      cases hk'
    · rw [hcopy] at hk'
      cases hk'
  refine ⟨?_, hacc⟩
  obtain ⟨k'', hcopy, hstored⟩ := hstores hacc
  rw [hcopy, Res.bind_done, if_neg (by omega)] at hk'
  cases hk'
  obtain ⟨stored, -, hlen, hbytes⟩ := hkept.inside hne
  have hle := hstored.here.length_cstring_le hbytes
  rw [hn, Int.toNat_natCast] at hlen
  exact Nat.lt_of_le_of_lt hle hlen

theorem respectsBuffer (hs : IsSpace k.pageTable) (hn : (k.registers 5).toInt = n) (h0 : 0 < n)
    (hline : readLine n k.input = some (line, e, rest)) (hmax : n ≠ 2 ^ 31 - 1) (he : e ≠ .ctrlA)
    (hfits : line ≠ [] → FitsBuffer k n line) : RespectsBuffer k line := by
  obtain ⟨resume, hrun, hresume⟩ := scReadString_run hn h0 hmax
  refine ⟨resume, hrun, fun k₁ hk₁ => ?_⟩
  rw [← hk₁.input] at hline
  rw [hresume k₁ line e rest hline, hn, Int.toNat_natCast]
  unfold gotString
  rw [if_neg he]
  by_cases hne : line = []
  · rw [if_pos hne]
    exact ⟨_, rfl, fun _ _ => rfl, fun hne' => absurd hne hne'⟩
  rw [if_neg hne]
  obtain ⟨hlt, hacc⟩ := hfits hne
  have hpt : SameMap k.pageTable k₁.pageTable := hk₁.pageTable ▸ sameMap_refl _
  obtain ⟨k', hcopy, hstored⟩ := (@system2User_concat_zero { k₁ with input := rest } (k.registers 4)
    (hpt.isSpace hs) line (List.replicate (n - line.length) 0)).2 fun j hj =>
      (hpt.accessible_iff k.memory k₁.memory _).mpr (hacc j hj)
  rw [hcopy, Res.bind_done, if_neg (by omega)]
  refine ⟨k', rfl, ?_, fun _ => ⟨cstring line, List.takeWhile_prefix _, hlt, hstored.here⟩⟩
  intro b hb
  refine hstored.elsewhere b fun j hj => hb j ?_
  rw [List.length_append] at hj
  have hj : j < (cstring line).length + 1 := hj
  omega

/-- `SC_ReadString` keeps to the buffer of the user when the line is shorter than the buffer and
what it stores is in the address space; a line that fills the buffer has its zero behind it. -/
theorem respectsBuffer_iff (hs : IsSpace k.pageTable) (hn : (k.registers 5).toInt = n) (h0 : 0 < n)
    (hline : readLine n k.input = some (line, e, rest)) :
    RespectsBuffer k line ↔
      n ≠ 2 ^ 31 - 1 ∧ e ≠ .ctrlA ∧ (line ≠ [] → FitsBuffer k n line) :=
  ⟨fun h => h.fits hs hn h0 hline,
    fun ⟨hmax, he, hfits⟩ => respectsBuffer hs hn h0 hline hmax he hfits⟩

end Call

/-- A process with `bytes` at the address 0, a buffer of `n` bytes there, and a user who types
`text`. -/
def stringReader (bytes : List Byte) (n : ℕ) (text : List Byte) : Kernel :=
  { writer bytes with
    registers := (writer bytes).registers.write 5 (BitVec.ofNat 32 n)
    input := text }

/-- The line `a` and a buffer of two bytes. -/
theorem respectsBuffer_a : RespectsBuffer (stringReader [1, 2] 2 [0x61, 0x0A]) [0x61] := by
  have hbytes : (writer [1, 2]).HasBytes 0 [1, 2] := writer_hasBytes (by decide)
  have hiff := @respectsBuffer_iff (stringReader [1, 2] 2 [0x61, 0x0A]) [0x61] [] .newline 2
    (writer_isSpace [1, 2]) rfl (by decide) rfl
  refine hiff.mpr ⟨by decide, nofun, fun _ => ⟨by decide, fun j hj => ?_⟩⟩
  have hj : j < 2 := Nat.lt_succ_of_le hj
  exact hbytes.accessible j hj

/-- The line `a` and a buffer of one byte: the byte behind the buffer is 2, and is 0 afterwards. -/
theorem zero_behind_buffer : ∃ (k : Kernel) (line rest : List Byte) (resume : Unit → Kernel → _)
    (k' : Kernel), IsSpace k.pageTable ∧ (k.registers 5).toInt = 1 ∧
      readLine 1 k.input = some (line, .full, rest) ∧
      scReadString.run k = .wait .consoleRead k resume ∧ resume () k = .done .brk k' ∧
      k.user (k.registers 4 + 1) = some 2 ∧ k'.user (k.registers 4 + 1) = some 0 ∧
      ¬ RespectsBuffer k line := by
  have hbytes : (writer [1, 2]).HasBytes 0 [1, 2] := writer_hasBytes (by decide)
  obtain ⟨resume, hrun, hresume⟩ := @scReadString_run (stringReader [1, 2] 1 [0x61, 0x0A]) 1 rfl
    (by decide) (by decide)
  obtain ⟨k', hcopy, hstored⟩ := (@system2User_concat_zero
    { stringReader [1, 2] 1 [0x61, 0x0A] with input := [0x0A] } 0 (writer_isSpace [1, 2]) [0x61]
      []).2 fun j hj => hbytes.accessible j (Nat.lt_succ_of_le hj)
  have hdone : resume () (stringReader [1, 2] 1 [0x61, 0x0A]) = .done .brk k' := by
    rw [hresume _ [0x61] .full [0x0A] rfl]
    unfold gotString
    rw [if_neg nofun, if_neg (List.cons_ne_nil _ _)]
    refine (congrArg (fun r => Res.bind r _) hcopy).trans ?_
    rfl
  have hbefore : (stringReader [1, 2] 1 [0x61, 0x0A]).user (0 + 1) = some 2 := hbytes 1 2 rfl
  have hafter : k'.user (0 + 1) = some 0 := hstored.here 1 0 rfl
  refine ⟨stringReader [1, 2] 1 [0x61, 0x0A], [0x61], [0x0A], resume, k', writer_isSpace [1, 2],
    rfl, rfl, hrun, hdone, hbefore, hafter, fun h => ?_⟩
  have hs : IsSpace (stringReader [1, 2] 1 [0x61, 0x0A]).pageTable := writer_isSpace [1, 2]
  have hfits := @RespectsBuffer.fits _ _ [0x0A] .full 1 hs rfl (by decide) rfl h
  exact absurd (hfits.2.2 (List.cons_ne_nil _ _)).1 (by decide)

end Nachos
