import Mathlib.Data.Nat.Digits.Lemmas
import Nachos.Userprog.ConsoleWrite

/-!
# Integers on the console

`SC_ReadInt` computes in an `int` and does not look for an overflow, so a line stands for its
integer modulo `2 ^ 32`. `SC_PrintInt` negates a negative number before it takes the digits, and the
least `int` is its own negation: only the sign is printed. What is printed of every other number is
the canonical decimal numeral, and `SC_ReadInt` reads it back.
-/

namespace Nachos

open Prog

/-! ## A line from the console -/

theorem readLine_length_le (n : ℕ) (input : List Byte) : ∀ {line e rest},
    readLine n input = some (line, e, rest) → line.length ≤ n := by
  induction n, input using readLine.induct with
  | case1 input =>
    rintro line e rest h
    rw [readLine_zero] at h
    cases h
    exact le_rfl
  | case2 n => exact fun h => nomatch h
  | case3 n input ih =>
    intro line e rest h
    rw [readLine, if_pos rfl] at h
    exact ih h
  | case4 n input h₁ =>
    intro line e rest h
    rw [readLine, if_neg h₁, if_pos rfl] at h
    cases h
    exact Nat.zero_le _
  | case5 n input h₁ h₂ =>
    intro line e rest h
    rw [readLine, if_neg h₁, if_neg h₂, if_pos rfl] at h
    cases h
    exact Nat.zero_le _
  | case6 n ch input h₁ h₂ h₃ ih =>
    intro line e rest h
    rw [readLine, if_neg h₁, if_neg h₂, if_neg h₃, Option.map_eq_some_iff] at h
    obtain ⟨⟨line', e', rest'⟩, h, heq⟩ := h
    cases heq
    exact Nat.succ_le_succ (ih h)

/-- A character of a line: not the `EOF` of the device, and not an end of the line. -/
def IsTyped (ch : Byte) : Prop := ch ≠ 0xFF#8 ∧ ¬ IsEoln ch

instance (ch : Byte) : Decidable (IsTyped ch) :=
  inferInstanceAs (Decidable (ch ≠ 0xFF#8 ∧ ¬ (ch = 0x0A#8 ∨ ch = 0x01#8)))

/-- A line that is typed and ended with a newline, and leaves room in the buffer. -/
theorem readLine_typed {line : List Byte} (hline : ∀ c ∈ line, IsTyped c) :
    ∀ {n : ℕ} (rest : List Byte), line.length < n →
      readLine n (line ++ 0x0A#8 :: rest) = some (line, .newline, rest) := by
  induction line with
  | nil =>
    intro n rest hn
    obtain ⟨n, rfl⟩ := Nat.exists_eq_add_one.mpr hn
    rw [List.nil_append, readLine, if_neg (by decide), if_pos rfl]
  | cons c cs ih =>
    intro n rest hn
    obtain ⟨n, rfl⟩ : ∃ m, n = m + 1 := ⟨n - 1, by omega⟩
    obtain ⟨hff, heoln⟩ := hline c List.mem_cons_self
    have hcs : ∀ d ∈ cs, IsTyped d := fun d hd => hline d (List.mem_cons_of_mem c hd)
    have hrest := ih hcs rest (Nat.lt_of_succ_lt_succ hn)
    rw [List.cons_append, readLine, if_neg hff, if_neg fun h => heoln (Or.inl h),
      if_neg fun h => heoln (Or.inr h), hrest]
    rfl

/-- `SynchConsole::Read` for at least one character: it waits once, and then has a line. -/
theorem synchRead_run {into : List Byte} {n : ℕ} (h0 : 0 < n) (hn : n ≤ into.length) (k : Kernel) :
    ∃ resume, (synchRead into n).run k = .wait .consoleRead k resume ∧
      ∀ (k₁ : Kernel) line e rest, readLine n k₁.input = some (line, e, rest) →
        resume () k₁ = .done (line ++ List.replicate (n - line.length) 0 ++ into.drop n,
          if e = .ctrlA then -1 else (line.length : ℤ)) { k₁ with input := rest } := by
  unfold synchRead
  rw [if_neg (by omega)]
  refine ⟨_, rfl, ?_⟩
  intro k₁ line e rest hline
  rw [if_neg (by omega)]
  simp only [Res.bind_done, run_bind, run_look, Int.toNat_natCast, hline]
  rfl

theorem putByte_run {buffer : List Byte} {i : ℕ} (hi : i < buffer.length) (value : Byte)
    (k : Kernel) : (putByte buffer i value).run k = .done (buffer.set i value) k := by
  unfold putByte
  rw [if_pos ⟨Int.natCast_nonneg i, Int.ofNat_lt.mpr hi⟩, Int.toNat_natCast]
  rfl

/-! ## `SC_ReadInt` -/

/-- What `SC_ReadInt` makes of a non-empty line. -/
def Kernel.gotInt (k : Kernel) (line rest : List Byte) : Kernel :=
  match parseInt line with
  | some result => { k with input := rest, registers := k.registers.write 2 result }
  | none =>
    { k with
      input := rest
      registers := k.registers.write 2 0
      printed := k.printed ++ [.readIntInvalid] }

theorem scReadInt_run (k : Kernel) : ∃ resume, scReadInt.run k = .wait .consoleRead k resume ∧
    ∀ (k₁ : Kernel) line e rest, readLine maxBufferSize k₁.input = some (line, e, rest) →
      e ≠ .ctrlA → line ≠ [] → resume () k₁ = .done .brk (k₁.gotInt line rest) := by
  have hbuf : maxBufferSize ≤ (List.replicate (maxBufferSize + 1) (0 : Byte)).length := by
    rw [List.length_replicate]
    omega
  obtain ⟨resume, hrun, hresume⟩ := synchRead_run (Nat.zero_lt_succ 254) hbuf k
  unfold scReadInt
  rw [run_bind, hrun]
  refine ⟨_, rfl, ?_⟩
  intro k₁ line e rest hline he hne
  have hlen := readLine_length_le _ _ hline
  have hpos : 0 < line.length := List.length_pos_iff.mpr hne
  rw [hresume k₁ line e rest hline, if_neg he, Res.bind_done]
  dsimp only
  rw [run_bind, putByte_run (by simp), Res.bind_done, run_ite, if_pos (Int.natCast_pos.mpr hpos),
    Int.toNat_natCast, List.take_set_of_le le_rfl, List.append_assoc, List.take_left]
  unfold Kernel.gotInt
  rcases parseInt line with _ | result <;> rfl

/-- The value is an `int`. -/
def IsInt32 (n : ℤ) : Prop := -2 ^ 31 ≤ n ∧ n < 2 ^ 31

theorem toInt_ofInt_of_isInt32 {n : ℤ} (hn : IsInt32 n) : (BitVec.ofInt 32 n).toInt = n :=
  BitVec.toInt_ofInt_eq_self (by decide) hn.1 hn.2

theorem isInt32_toInt (w : Word) : IsInt32 w.toInt := ⟨w.le_toInt, w.toInt_lt⟩

theorem not_isDigit_minus : ¬ isDigit 0x2D#8 = true := by decide

/-- A line is at most one integer. -/
theorem IsInt.unique {line : List Byte} {m n : ℤ} (hm : IsInt line m) (hn : IsInt line n) :
    m = n := by
  cases hm with
  | digits _ hd =>
    cases hn with
    | digits _ _ => rfl
    | minus _ _ => exact absurd (hd _ List.mem_cons_self) not_isDigit_minus
  | minus _ _ =>
    cases hn with
    | digits _ hd => exact absurd (hd _ List.mem_cons_self) not_isDigit_minus
    | minus _ _ => rfl

theorem isDigit_iff (c : Byte) : isDigit c = true ↔ 0x30 ≤ c.toNat ∧ c.toNat ≤ 0x39 := by
  unfold isDigit
  rw [Bool.and_eq_true, decide_eq_true_iff, decide_eq_true_iff]
  exact Iff.rfl

theorem isTyped_of_isDigit {c : Byte} (hc : isDigit c = true) : IsTyped c := by
  rw [isDigit_iff] at hc
  refine ⟨?_, ?_⟩
  · rintro rfl
    exact absurd hc.2 (by decide)
  · rintro (rfl | rfl)
    · exact absurd hc.1 (by decide)
    · exact absurd hc.1 (by decide)

theorem IsInt.ne_nil {line : List Byte} {n : ℤ} (h : IsInt line n) : line ≠ [] := by
  cases h with
  | digits hne _ => exact hne
  | minus _ _ => exact List.cons_ne_nil _ _

theorem IsInt.isTyped {line : List Byte} {n : ℤ} (h : IsInt line n) : ∀ c ∈ line, IsTyped c := by
  cases h with
  | digits _ hd => exact fun c hc => isTyped_of_isDigit (hd c hc)
  | minus _ hd =>
    intro c hc
    rcases List.mem_cons.mp hc with rfl | hc
    · decide
    · exact isTyped_of_isDigit (hd c hc)

/-- An integer in the range of `int` is in register 2; any other line is reported, with 0 in
register 2. -/
structure Answered (k k' : Kernel) (line : List Byte) : Prop where
  valid : ∀ n, IsInt line n → IsInt32 n → (k'.registers 2).toInt = n ∧ k'.printed = k.printed
  invalid : (∀ n, IsInt line n → ¬ IsInt32 n) →
    k'.registers 2 = 0 ∧ k'.printed = k.printed ++ [.readIntInvalid]

/-- `SC_ReadInt` waits for the line, returns, and has answered it. -/
def AnswersLine (k : Kernel) (line : List Byte) : Prop :=
  ∃ resume, scReadInt.run k = .wait .consoleRead k resume ∧
    ∀ k₁, k.Mine k₁ → ∃ k', resume () k₁ = .done .brk k' ∧ Answered k₁ k' line

theorem gotInt_of_isInt {line : List Byte} {n : ℤ} (hn : IsInt line n) (k : Kernel)
    (rest : List Byte) : k.gotInt line rest =
      { k with input := rest, registers := k.registers.write 2 (BitVec.ofInt 32 n) } := by
  unfold Kernel.gotInt
  rw [parseInt_eq_some.mpr ⟨n, hn, rfl⟩]

theorem gotInt_of_not_isInt {line : List Byte} (hno : ∀ n, ¬ IsInt line n) (k : Kernel)
    (rest : List Byte) : k.gotInt line rest =
      { k with
        input := rest
        registers := k.registers.write 2 0
        printed := k.printed ++ [.readIntInvalid] } := by
  unfold Kernel.gotInt
  rcases hp : parseInt line with _ | v
  · rfl
  · obtain ⟨m, hm, -⟩ := parseInt_eq_some.mp hp
    exact absurd hm (hno m)

section Line

variable {k : Kernel} {line : List Byte} {e : LineEnd} {rest : List Byte}

theorem AnswersLine.isInt32 (h : AnswersLine k line)
    (hline : readLine maxBufferSize k.input = some (line, e, rest)) (he : e ≠ .ctrlA)
    (hne : line ≠ []) {n : ℤ} (hn : IsInt line n) : IsInt32 n := by
  obtain ⟨resume, hrun, hresume⟩ := scReadInt_run k
  obtain ⟨resume', hrun', h⟩ := h
  obtain rfl : resume' = resume := by
    rw [hrun] at hrun'
    cases hrun'
    rfl
  by_contra hout
  obtain ⟨k', hk', hans⟩ := h k ⟨rfl, rfl, rfl, rfl, fun _ _ _ => rfl⟩
  rw [hresume k line e rest hline he hne, gotInt_of_isInt hn] at hk'
  cases hk'
  -- the line is taken for an integer, and nothing is reported
  have hinv := (hans.invalid fun m hm hm32 => hout (hn.unique hm ▸ hm32)).2
  exact List.cons_ne_nil _ _ (List.self_eq_append_right.mp hinv)

theorem answersLine (hline : readLine maxBufferSize k.input = some (line, e, rest))
    (he : e ≠ .ctrlA) (hne : line ≠ []) (h : ∀ n, IsInt line n → IsInt32 n) :
    AnswersLine k line := by
  obtain ⟨resume, hrun, hresume⟩ := scReadInt_run k
  refine ⟨resume, hrun, fun k₁ hk₁ => ⟨k₁.gotInt line rest, ?_, ?_⟩⟩
  · rw [← hk₁.input] at hline
    exact hresume k₁ line e rest hline he hne
  · by_cases hint : ∃ n, IsInt line n
    · obtain ⟨m, hm⟩ := hint
      rw [gotInt_of_isInt hm]
      refine ⟨fun n hn hn32 => ⟨?_, rfl⟩, fun hno => absurd (h m hm) (hno m hm)⟩
      obtain rfl := hm.unique hn
      show ((k₁.registers.write 2 (BitVec.ofInt 32 m)) 2).toInt = m
      rw [Registers.write_self, toInt_ofInt_of_isInt32 hn32]
    · rw [gotInt_of_not_isInt fun n hn => hint ⟨n, hn⟩]
      exact ⟨fun n hn _ => absurd ⟨n, hn⟩ hint,
        fun _ => ⟨Registers.write_self k₁.registers 2 0, rfl⟩⟩

/-- `SC_ReadInt` answers a line as it should unless this is an integer out of the range of `int`. -/
theorem answersLine_iff (hline : readLine maxBufferSize k.input = some (line, e, rest))
    (he : e ≠ .ctrlA) (hne : line ≠ []) : AnswersLine k line ↔ ∀ n, IsInt line n → IsInt32 n :=
  ⟨fun h _ hn => h.isInt32 hline he hne hn, answersLine hline he hne⟩

end Line

/-- A process whose user types `text`. -/
def typist (text : List Byte) : Kernel := { writer [] with input := text }

theorem typist_readLine {line : List Byte} (hline : ∀ c ∈ line, IsTyped c)
    (hlen : line.length < maxBufferSize) :
    readLine maxBufferSize (typist (line ++ [0x0A#8])).input = some (line, .newline, []) :=
  readLine_typed hline [] hlen

/-- `-42` and a newline. -/
theorem answersLine_minus_42 :
    AnswersLine (typist ([0x2D, 0x34, 0x32] ++ [0x0A])) [0x2D, 0x34, 0x32] := by
  refine (answersLine_iff (typist_readLine (by decide) (by decide)) nofun
    (List.cons_ne_nil _ _)).mpr fun n hn => ?_
  have hint : IsInt [0x2D, 0x34, 0x32] (-decimal [0x34, 0x32]) :=
    .minus (List.cons_ne_nil _ _) (by decide)
  obtain rfl : n = -42 := hn.unique hint
  exact ⟨by decide, by decide⟩

/-- `2147483648` and a newline: the least `int` is in register 2, and nothing is reported. -/
theorem overflow_not_reported :
    ¬ ∀ (k : Kernel) (line : List Byte) (e : LineEnd) (rest : List Byte),
      readLine maxBufferSize k.input = some (line, e, rest) → e ≠ .ctrlA → line ≠ [] →
        AnswersLine k line := by
  intro hall
  have hint : IsInt [0x32, 0x31, 0x34, 0x37, 0x34, 0x38, 0x33, 0x36, 0x34, 0x38] 2147483648 :=
    .digits (List.cons_ne_nil _ _) (by decide)
  have hline := typist_readLine hint.isTyped (by decide)
  have h := (hall _ _ _ _ hline nofun (List.cons_ne_nil _ _)).isInt32 hline nofun
    (List.cons_ne_nil _ _) hint
  exact absurd h.2 (by decide)

/-! ## `SC_PrintInt` -/

/-- The character of a digit. -/
def digitChar (d : ℕ) : Byte := BitVec.ofNat 8 (d + 0x30)

theorem digitChar_toNat {d : ℕ} (hd : d < 10) : (digitChar d).toNat = d + 0x30 := by
  unfold digitChar
  rw [BitVec.toNat_ofNat, Nat.mod_eq_of_lt (by omega)]

/-- The characters of the digits of a number, the first one first. -/
def digitChars (n : ℕ) : List Byte := (Nat.digits 10 n).reverse.map digitChar

theorem isDigit_of_mem_digitChars {n : ℕ} {c : Byte} (hc : c ∈ digitChars n) :
    isDigit c = true := by
  obtain ⟨d, hd, rfl⟩ := List.mem_map.mp hc
  have hlt := Nat.digits_lt_base (by decide) (List.mem_reverse.mp hd)
  rw [isDigit_iff, digitChar_toNat hlt]
  omega

theorem length_digitChars (n : ℕ) : (digitChars n).length = (Nat.digits 10 n).length := by
  rw [digitChars, List.length_map, List.length_reverse]

/-- The last digit is on the right. -/
theorem digitChars_of_pos {n : ℕ} (hn : 0 < n) :
    digitChars n = digitChars (n / 10) ++ [digitChar (n % 10)] := by
  unfold digitChars
  rw [Nat.digits_def' (by decide) hn, List.reverse_cons, List.map_append]
  rfl

/-- A row of digits stands for what `Nat.ofDigits` makes of it. -/
theorem decimal_append (ds : List Byte) (c : Byte) :
    decimal (ds ++ [c]) = decimal ds * 10 + (c.toNat - 0x30 : ℤ) := by
  unfold decimal
  rw [List.foldl_append]
  rfl

theorem decimal_digitChars (n : ℕ) : decimal (digitChars n) = n := by
  induction n using Nat.strong_induction_on with
  | h n ih =>
    rcases Nat.eq_zero_or_pos n with rfl | hn
    · rfl
    · have hlast := digitChar_toNat (Nat.mod_lt n (by decide : 0 < 10))
      rw [digitChars_of_pos hn, decimal_append, ih (n / 10) (Nat.div_lt_self hn (by decide)), hlast]
      push_cast
      omega

/-- The first loop of `SC_PrintInt` counts the digits. -/
theorem countDigits_eq (fuel : ℕ) : ∀ n, n < 10 ^ fuel →
    countDigits fuel n = (Nat.digits 10 n).length := by
  induction fuel with
  | zero =>
    intro n hn
    obtain rfl : n = 0 := by simpa using hn
    rfl
  | succ fuel ih =>
    intro n hn
    rw [countDigits]
    split_ifs with h0
    · rw [pow_succ'] at hn
      rw [ih (n / 10) (Nat.div_lt_of_lt_mul hn), Nat.digits_def' (by decide) h0]
      rfl
    · obtain rfl : n = 0 := Nat.eq_zero_of_not_pos h0
      rfl

/-- The second loop writes them. -/
theorem fillDigits_eq (n : ℕ) : fillDigits (Nat.digits 10 n).length n = digitChars n := by
  induction n using Nat.strong_induction_on with
  | h n ih =>
    rcases Nat.eq_zero_or_pos n with rfl | hn
    · rfl
    · rw [digitChars_of_pos hn, Nat.digits_def' (by decide) hn, List.length_cons, fillDigits,
        ih (n / 10) (Nat.div_lt_self hn (by decide))]
      rfl

/-- `SynchConsole::Write` and what comes after it. -/
theorem sends_synchWrite {ends : Option Kernel → Prop} {buffer rest : List Byte} {n : ℕ}
    (hn : n ≤ buffer.length) {f : Unit → KernelM Leave} (k : Kernel)
    (h : ∀ k', Sends ends ((f ()).run k') rest) :
    Sends ends ((synchWrite buffer n >>= f).run k) (buffer.take n ++ rest) := by
  unfold synchWrite
  rw [if_neg (by omega)]
  exact ⟨buffer.take n, rest, rfl, rfl, fun _ k' _ => h k'⟩

/-- What a thread sends does not depend on what it finds. -/
theorem Sends.unique {ends ends' : Option Kernel → Prop} {r : Res Kernel Call.Reply End Leave}
    {bytes bytes' : List Byte} (h : Sends ends r bytes) (h' : Sends ends' r bytes') :
    bytes = bytes' := by
  induction r generalizing bytes bytes' with
  | done leave k => exact h.1.trans h'.1.symm
  | stop d => exact h.1.trans h'.1.symm
  | wait c k resume ih =>
    obtain ⟨sent, rest, rfl, rfl, hrest⟩ := h
    obtain ⟨sent', rest', hsent, rfl, hrest'⟩ := h'
    cases hsent
    obtain ⟨k', hk'⟩ := serves_consoleWrite k sent
    rw [ih () k' (hrest () k' hk') (hrest' () k' hk')]

/-- What `SC_PrintInt` sends for a number: a minus sign before the digits of the `int` that its
negation is, and a zero at the end. -/
def printed (n : ℤ) : List Byte :=
  if n = 0 then [0x30#8]
  else (if n < 0 then [0x2D#8] else []) ++
    digitChars (if n < 0 then (BitVec.ofInt 32 (n * (-1))).toInt else n).toNat ++ [0]

/-- The digits and the zero. -/
theorem sends_digits {m : ℕ} (hm : m < 10 ^ 10) (k : Kernel) :
    Sends (fun o => o ≠ none)
      ((synchWrite (fillDigits (countDigits 10 m) m ++ [0]) (countDigits 10 m + 1) >>= fun _ =>
        pure Leave.brk).run k) (digitChars m ++ [0]) := by
  have hlen : (digitChars m ++ [0]).length = (Nat.digits 10 m).length + 1 := by
    rw [List.length_append, length_digitChars]
    rfl
  rw [countDigits_eq 10 m hm, fillDigits_eq]
  have h : Sends (fun o => o ≠ none) _ ((digitChars m ++ [0]).take _ ++ []) :=
    sends_synchWrite hlen.ge (f := fun _ => pure Leave.brk) k
      fun _ => ⟨rfl, Option.some_ne_none _⟩
  rwa [← hlen, List.take_length, List.append_nil, hlen] at h

theorem toNat_toInt_lt (w : Word) : w.toInt.toNat < 10 ^ 10 := by
  have := (isInt32_toInt w).2
  omega

theorem scPrintInt_sends (k : Kernel) :
    Sends (fun o => o ≠ none) (scPrintInt.run k) (printed (k.registers 4).toInt) := by
  unfold scPrintInt printed readRegister
  rw [run_bind, run_look, Res.bind_done, run_ite]
  have hpos := toNat_toInt_lt (k.registers 4)
  generalize (k.registers 4).toInt = n at hpos
  by_cases h0 : n = 0
  · rw [if_pos h0, if_pos h0]
    have hone : 1 ≤ [0x30#8].length := le_rfl
    exact sends_synchWrite hone k fun _ => ⟨rfl, Option.some_ne_none _⟩
  · rw [if_neg h0, if_neg h0]
    by_cases hneg : n < 0
    · simp only [if_pos hneg, List.append_assoc]
      have hone : 1 ≤ [0x2D#8].length := le_rfl
      exact sends_synchWrite hone k fun k' =>
        sends_digits (toNat_toInt_lt (BitVec.ofInt 32 (n * -1))) k'
    · simp only [if_neg hneg, List.nil_append]
      exact sends_digits hpos k

/-! ## Canonical numerals -/

/-- A numeral as one writes it: with a minus sign exactly for a negative number and no leading
zero. -/
structure IsCanonical (text : List Byte) (n : ℤ) : Prop where
  isInt : IsInt text n
  minus : text.head? = some 0x2D#8 ↔ n < 0
  noLeadingZero : ∀ ds, text = 0x30#8 :: ds ∨ text = 0x2D#8 :: 0x30#8 :: ds → text = [0x30#8]

/-- The canonical numeral. -/
def numeral (n : ℤ) : List Byte :=
  if n = 0 then [0x30#8] else (if n < 0 then [0x2D#8] else []) ++ digitChars n.natAbs

theorem digitChars_ne_nil {n : ℕ} (hn : n ≠ 0) : digitChars n ≠ [] := by
  unfold digitChars
  rw [ne_eq, List.map_eq_nil_iff, List.reverse_eq_nil_iff]
  exact Nat.digits_ne_nil_iff_ne_zero.mpr hn

/-- The first digit of a number is not zero. -/
theorem head?_digitChars (n : ℕ) : (digitChars n).head? ≠ some 0x30#8 := by
  intro h
  have hne : Nat.digits 10 n ≠ [] := by
    intro hnil
    rw [digitChars, hnil] at h
    cases h
  have hlast := Nat.getLast_digit_ne_zero 10 (Nat.digits_ne_nil_iff_ne_zero.mp hne)
  rw [digitChars, List.head?_map, List.head?_reverse, List.getLast?_eq_some_getLast hne,
    Option.map_some, Option.some.injEq] at h
  have hlt := Nat.digits_lt_base (by decide) (List.getLast_mem hne)
  have h := congrArg BitVec.toNat h
  rw [digitChar_toNat hlt] at h
  exact hlast (Nat.add_eq_right.mp h)

theorem isCanonical_numeral (n : ℤ) : IsCanonical (numeral n) n := by
  have hminus : isDigit 0x2D#8 = false := rfl
  unfold numeral
  by_cases h0 : n = 0
  · subst h0
    rw [if_pos rfl]
    refine ⟨.digits (List.cons_ne_nil _ _) (by decide), by decide, ?_⟩
    rintro ds (h | h)
    · exact rfl
    · cases h
  · rw [if_neg h0]
    have hne := digitChars_ne_nil (Int.natAbs_ne_zero.mpr h0)
    have hd : ∀ c ∈ digitChars n.natAbs, isDigit c = true := fun _ => isDigit_of_mem_digitChars
    have hhead := head?_digitChars n.natAbs
    have hval := decimal_digitChars n.natAbs
    generalize digitChars n.natAbs = cs at hne hd hhead hval
    by_cases hneg : n < 0
    · rw [if_pos hneg, List.singleton_append]
      have hint := IsInt.minus hne hd
      rw [hval, show -(n.natAbs : ℤ) = n by omega] at hint
      refine ⟨hint, by simpa using hneg, ?_⟩
      rintro ds (h | h)
      · cases h
      · cases h
        exact absurd rfl hhead
    · rw [if_neg hneg, List.nil_append]
      have hint := IsInt.digits hne hd
      rw [hval, show (n.natAbs : ℤ) = n by omega] at hint
      refine ⟨hint, ⟨fun h => ?_, fun h => absurd h hneg⟩, ?_⟩
      · have := hd _ (List.mem_of_head? h)
        rw [hminus] at this
        cases this
      · rintro ds (rfl | rfl)
        · exact absurd rfl hhead
        · have := hd _ List.mem_cons_self
          rw [hminus] at this
          cases this

/-! ## Printing and reading -/

/-- `SC_ReadInt` waits for a line, returns, and leaves `n` in register 2. -/
def Kernel.ReturnsInt (k : Kernel) (n : Word) : Prop :=
  ∃ resume, scReadInt.run k = .wait .consoleRead k resume ∧
    ∀ k₁, k.Mine k₁ → ∃ k', resume () k₁ = .done .brk k' ∧ k'.registers 2 = n

/-- `SC_PrintInt` sends the canonical numeral of its number, maybe with a zero at the end, and
`SC_ReadInt` returns the number when this numeral is typed as a line. -/
def PrintsAndReadsBack (k : Kernel) : Prop := ∃ text nul,
  IsCanonical text (k.registers 4).toInt ∧ (nul = [] ∨ nul = [0]) ∧
    Sends (fun o => o ≠ none) (scPrintInt.run k) (text ++ nul) ∧
    ∀ (q : Kernel) rest, q.input = text ++ 0x0A#8 :: rest → q.ReturnsInt (k.registers 4)

/-- A numeral of an `int`, typed as a line, is read as this `int`. -/
theorem returnsInt_of_isInt {text : List Byte} {n : Word} (hint : IsInt text n.toInt)
    (hlen : text.length < maxBufferSize) {q : Kernel} {rest : List Byte}
    (hq : q.input = text ++ 0x0A#8 :: rest) : q.ReturnsInt n := by
  obtain ⟨resume, hrun, hresume⟩ := scReadInt_run q
  have hline := readLine_typed hint.isTyped rest hlen
  have hne := hint.ne_nil
  refine ⟨resume, hrun, fun q₁ hq₁ => ⟨q₁.gotInt text rest, ?_, ?_⟩⟩
  · rw [← hq, ← hq₁.input] at hline
    exact hresume q₁ text _ rest hline nofun hne
  · rw [gotInt_of_isInt hint, BitVec.ofInt_toInt]
    exact Registers.write_self q₁.registers 2 n

theorem length_numeral (w : Word) : (numeral w.toInt).length < maxBufferSize := by
  obtain ⟨hlow, hhigh⟩ := isInt32_toInt w
  have hd : (Nat.digits 10 w.toInt.natAbs).length ≤ 10 :=
    (Nat.digits_length_le_iff (by decide) _).mpr (by omega)
  rw [← length_digitChars] at hd
  show (numeral w.toInt).length < 255
  unfold numeral
  generalize digitChars w.toInt.natAbs = cs at hd
  split_ifs
  · exact (by decide : 1 < 255)
  · rw [List.length_append, List.length_singleton]
    omega
  · rw [List.nil_append]
    omega

/-- The least `int` is the only one whose negation is not an `int`. -/
theorem neg_lt_of_ne_intMin {w : Word} (hw : w ≠ BitVec.intMin 32) : -w.toInt < 2 ^ 31 := by
  have hlow := (isInt32_toInt w).1
  by_contra hle
  have hmin : w.toInt = (BitVec.intMin 32).toInt := by
    have : (BitVec.intMin 32).toInt = -2 ^ 31 := by decide
    omega
  exact hw (BitVec.eq_of_toInt_eq hmin)

/-- For every number but the least `int` the text sent is the canonical numeral. -/
theorem printed_eq {w : Word} (hw : w ≠ BitVec.intMin 32) : ∃ nul, (nul = [] ∨ nul = [0]) ∧
    printed w.toInt = numeral w.toInt ++ nul := by
  have hhigh := neg_lt_of_ne_intMin hw
  have hlow := (isInt32_toInt w).2
  generalize w.toInt = n at hhigh hlow
  unfold printed numeral
  by_cases h0 : n = 0
  · rw [if_pos h0, if_pos h0]
    exact ⟨[], .inl rfl, (List.append_nil _).symm⟩
  · rw [if_neg h0, if_neg h0]
    refine ⟨[0], .inr rfl, ?_⟩
    by_cases hneg : n < 0
    · have habs : (BitVec.ofInt 32 (n * (-1))).toInt.toNat = n.natAbs := by
        rw [toInt_ofInt_of_isInt32 ⟨by omega, by omega⟩]
        omega
      rw [if_pos hneg, if_pos hneg, habs]
    · have habs : n.toNat = n.natAbs := by omega
      rw [if_neg hneg, if_neg hneg, habs]

/-- What follows a minus sign is digits. -/
theorem not_isInt_minus {cs : List Byte} {n : ℤ} (hcs : cs = [] ∨ cs = [0]) :
    ¬ IsInt (0x2D#8 :: cs) n := by
  intro h
  cases h with
  | digits _ hd => exact not_isDigit_minus (hd _ List.mem_cons_self)
  | minus hne hd =>
    rcases hcs with rfl | rfl
    · exact hne rfl
    · exact absurd (hd 0 List.mem_cons_self) (by decide)

theorem PrintsAndReadsBack.ne_intMin {k : Kernel} (h : PrintsAndReadsBack k) :
    k.registers 4 ≠ BitVec.intMin 32 := by
  intro hmin
  obtain ⟨text, nul, hcan, hnul, hsends, -⟩ := h
  have hsent := hsends.unique (scPrintInt_sends k)
  rw [hmin] at hsent
  -- its negation is the least `int` again, and has no digits
  have hprinted : printed (BitVec.intMin 32).toInt = [0x2D#8] ++ [0] := by decide
  rw [hprinted] at hsent
  rcases hnul with rfl | rfl
  · rw [List.append_nil] at hsent
    exact not_isInt_minus (.inr rfl) (hsent ▸ hcan.isInt)
  · obtain rfl := List.append_cancel_right hsent
    exact not_isInt_minus (.inl rfl) hcan.isInt

/-- Printing and reading are inverse for every number but the least `int`. -/
theorem printsAndReadsBack_iff (k : Kernel) :
    PrintsAndReadsBack k ↔ k.registers 4 ≠ BitVec.intMin 32 := by
  refine ⟨PrintsAndReadsBack.ne_intMin, fun hw => ?_⟩
  obtain ⟨nul, hnul, hprinted⟩ := printed_eq hw
  have hcan := isCanonical_numeral (k.registers 4).toInt
  refine ⟨_, nul, hcan, hnul, hprinted ▸ scPrintInt_sends k, fun q rest hq => ?_⟩
  exact returnsInt_of_isInt hcan.isInt (length_numeral _) hq

/-- The least `int`: a minus sign and a zero are sent. -/
theorem least_int_not_printed : ¬ ∀ k : Kernel, PrintsAndReadsBack k := fun hall =>
  (hall { typist [] with registers := (typist []).registers.write 4 (BitVec.intMin 32) }).ne_intMin
    (Registers.write_self (typist []).registers 4 _)

end Nachos
