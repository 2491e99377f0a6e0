import Nachos.Userprog.ConsoleInt

/-!
# Kernel buffers of the console reads

The handlers of `Exception` take a line from the console as a whole. In `Indexed` the same code
makes every access to a buffer by its index; one outside of the buffer is undefined behaviour. The
indexed handlers are the handlers, and `inBounds_iff` says in which states they keep to their
buffers.
-/

namespace Nachos

open Prog

/-- `buffer[i]` -/
def getByte (buffer : List Byte) (i : ℤ) : KernelM Byte :=
  if 0 ≤ i then
    match buffer[i.toNat]? with
    | some c => pure c
    | none => undefined
  else undefined

/-! ## The code with its indices -/

namespace Indexed

/-- `for (loop = 0; loop < numBytes; loop++) into[loop] = 0`, from `loop` on for `n` rounds. -/
def clearLoop : List Byte → ℕ → ℕ → KernelM (List Byte)
  | into, _, 0 => pure into
  | into, loop, n + 1 => do
    let into ← putByte into loop 0
    clearLoop into (loop + 1) n

/-- The loop of `SynchConsole::Read` on the characters that arrive; it ends with the buffer, `loop`,
how the line ends, and the characters left. -/
def readLoop (numBytes : ℕ) : List Byte → List Byte → ℕ →
    KernelM (List Byte × ℕ × LineEnd × List Byte)
  | [], into, loop => if loop < numBytes then stop .waits else pure (into, loop, .full, [])
  | ch :: input, into, loop =>
    if loop < numBytes then
      if ch = 0xFF#8 then readLoop numBytes input into loop
      else if ch = 0x0A#8 then pure (into, loop, .newline, input)
      else if ch = 0x01#8 then pure (into, loop, .ctrlA, input)
      else do
        let into ← putByte into loop ch
        readLoop numBytes input into (loop + 1)
    else pure (into, loop, .full, ch :: input)

/-- `SynchConsole::Read` -/
def synchRead (into : List Byte) (numBytes : ℤ) : KernelM (List Byte × ℤ) := do
  let into ← clearLoop into 0 numBytes.toNat
  wait .consoleRead
  if numBytes ≤ 0 then do
    let ch ← wait .arbitrary
    pure (into, if ch = 1 then -1 else 0)
  else do
    let input ← look fun k => k.input
    let (into, loop, e, rest) ← readLoop numBytes.toNat input into 0
    change fun k => { k with input := rest }
    pure (into, if e = .ctrlA then -1 else (loop : ℤ))

/-- The loop of `User2System` from index `i` with `n` rounds left. -/
def user2SystemLoop (virtAddr : Word) : List Byte → ℕ → ℕ → KernelM (List Byte)
  | kernelBuf, _, 0 => pure kernelBuf
  | kernelBuf, i, n + 1 => do
    let oneChar ← readMemByte (virtAddr + BitVec.ofNat 32 i)
    let kernelBuf ← putByte kernelBuf i (oneChar.setWidth 8)
    if oneChar = 0 then pure kernelBuf else user2SystemLoop virtAddr kernelBuf (i + 1) n

/-- `User2System` -/
def user2System (virtAddr : Word) (limit : ℕ) : KernelM (List Byte) :=
  if 2 ^ 31 ≤ limit + 1 then abort
  else user2SystemLoop virtAddr (List.replicate (limit + 1) 0) 0 limit

/-- The conversion loop of `SC_ReadInt` from index `i` with `n` rounds left. -/
def readIntLoop (buffer : List Byte) : Word → ℕ → ℕ → KernelM (Option Word)
  | result, _, 0 => pure (some result)
  | result, i, n + 1 => do
    let c ← getByte buffer i
    if isDigit c then readIntLoop buffer (result * 10 + (c.setWidth 32 - 0x30#32)) (i + 1) n
    else pure none

/-- The value of the `bytesRead` characters in the buffer. -/
def parseInt (buffer : List Byte) (bytesRead : ℕ) : KernelM (Option Word) := do
  let first ← getByte buffer 0
  let sign : Word := if first = 0x2D#8 then -1 else 1
  let i := if first = 0x2D#8 then 1 else 0
  let result ← readIntLoop buffer 0 i (bytesRead - i)
  if bytesRead = 1 ∧ sign = -1 then pure none else pure (result.map fun r => r * sign)

def scReadInt : KernelM Leave := do
  let (buffer, bytesRead) ← synchRead (List.replicate (maxBufferSize + 1) 0) maxBufferSize
  let buffer ← putByte buffer bytesRead 0
  if bytesRead > 0 then do
    let value ← parseInt buffer bytesRead.toNat
    match value with
    | some result => do
      writeRegister 2 result
      pure .brk
    | none => do
      printf .readIntInvalid
      writeRegister 2 0
      pure .brk
  else do
    printf .readIntEmpty
    pure .brk

def scReadChar : KernelM Leave := do
  let (input, bytes) ← synchRead (List.replicate (maxBufferSize + 1) 0) maxBufferSize
  if bytes > 1 then do
    printf .readCharMany
    writeRegister 2 0
    pure .brk
  else if bytes = 0 then do
    printf .readCharEmpty
    writeRegister 2 0
    pure .brk
  else if bytes = 1 then do
    let onechar ← getByte input 0
    writeRegister 2 (onechar.signExtend 32)
    pure .brk
  else pure .brk

def scReadString : KernelM Leave := do
  let bufferAddress ← readRegister 4
  let maxlength ← readRegister 5
  let size := (maxlength + 1).toInt
  if size < 0 then abort
  else do
    let (buffer, bytesRead) ← synchRead (List.replicate size.toNat 0) maxlength.toInt
    let buffer ← putByte buffer bytesRead 0
    if bytesRead = 0 then do
      printf .readStringEmpty
      pure .brk
    else do
      let byteCopied ← system2User bufferAddress (bytesRead + 1) buffer
      if byteCopied ≤ 0 then printf .readStringFailed else pure ()
      pure .brk

def scRead : KernelM Leave := do
  let virtAddr ← readRegister 4
  let charcount := (← readRegister 5).toInt
  let id := (← readRegister 6).toInt
  checkTransfer charcount id 3 .readSize (.readId id) (.readNotOpen id) .readStdout fun f => do
    let curPos ← getCurrentPos id.toNat
    let buffer ← user2System virtAddr charcount.toNat
    if f.type = 2 then do
      let (buffer, size) ← synchRead buffer charcount
      let _ ← system2User virtAddr size buffer
      writeRegister 2 (BitVec.ofInt 32 size)
      pure .ret
    else do
      let bytes ← onFile id.toNat fun f h => f.read h charcount.toNat
      if bytes.length > 0 then do
        let newPos ← getCurrentPos id.toNat
        let _ ← system2User virtAddr (newPos - curPos) (bytes ++ buffer.drop bytes.length)
        writeRegister 2 (BitVec.ofInt 32 (newPos - curPos))
        pure .brk
      else do
        writeRegister 2 (-2)
        pure .brk

/-! ## The handlers are the same -/

/-- A write at the end of a filled part of the buffer. -/
theorem putByte_append (front rest : List Byte) (old value : Byte) (k : Kernel) :
    (putByte (front ++ old :: rest) front.length value).run k =
      .done (front ++ value :: rest) k := by
  rw [putByte_run (by simp), List.set_append_right _ _ le_rfl, Nat.sub_self, List.set_cons_zero]

theorem putByte_out {buffer : List Byte} {i : ℤ} (hi : ¬ (0 ≤ i ∧ i < buffer.length))
    (value : Byte) : putByte buffer i value = undefined := if_neg hi

theorem length_concat (front : List Byte) (c : Byte) :
    (front ++ [c]).length = front.length + 1 := List.length_append

theorem clearLoop_run (n : ℕ) : ∀ (front rest : List Byte) (k : Kernel), n ≤ rest.length →
    (clearLoop (front ++ rest) front.length n).run k =
      .done (front ++ List.replicate n 0 ++ rest.drop n) k := by
  induction n with
  | zero =>
    intro front rest k _
    rw [List.replicate_zero, List.append_nil, List.drop_zero]
    rfl
  | succ n ih =>
    intro front rest k hn
    obtain ⟨c, rest, rfl⟩ := List.exists_cons_of_length_pos (Nat.zero_lt_of_lt hn)
    have h := ih (front ++ [0]) rest k (Nat.le_of_succ_le_succ hn)
    rw [length_concat, List.append_assoc, List.singleton_append] at h
    unfold clearLoop
    rw [run_bind, putByte_append, Res.bind_done, h, List.append_assoc front, List.singleton_append]
    rfl

theorem clearLoop_out (n : ℕ) : ∀ (into : List Byte) (loop : ℕ) (k : Kernel), 0 < n →
    into.length < loop + n → (clearLoop into loop n).run k = .stop (.down .undefined) := by
  induction n with
  | zero => exact fun _ _ _ h0 => absurd h0 (Nat.lt_irrefl 0)
  | succ n ih =>
    intro into loop k _ hlt
    unfold clearLoop
    rw [run_bind]
    by_cases hin : loop < into.length
    · rw [putByte_run hin, Res.bind_done]
      refine ih _ _ k (by omega) ?_
      rw [List.length_set]
      omega
    · rw [putByte_out (by omega)]
      rfl

/-- The loop has filled the buffer up to `front` and goes on as `readLine`. -/
theorem readLoop_run (numBytes : ℕ) (k : Kernel) (tail input : List Byte) :
    ∀ (front : List Byte) (n : ℕ), front.length + n = numBytes →
      (readLoop numBytes input (front ++ (List.replicate n 0 ++ tail)) front.length).run k =
        match readLine n input with
        | none => .stop .waits
        | some (line, e, rest) =>
          .done (front ++ (line ++ List.replicate (n - line.length) 0 ++ tail),
            front.length + line.length, e, rest) k := by
  induction input with
  | nil =>
    intro front n hn
    unfold readLoop
    rcases n with _ | n
    · rw [readLine_zero, if_neg (by omega)]
      rfl
    · rw [if_pos (by omega)]
      rfl
  | cons ch input ih =>
    intro front n hn
    unfold readLoop
    rcases n with _ | n
    · rw [readLine_zero, if_neg (by omega)]
      rfl
    · rw [if_pos (by omega), readLine]
      by_cases hff : ch = 0xFF#8
      · rw [if_pos hff, if_pos hff]
        exact ih front (n + 1) hn
      rw [if_neg hff, if_neg hff]
      by_cases hnl : ch = 0x0A#8
      · rw [if_pos hnl, if_pos hnl]
        rfl
      rw [if_neg hnl, if_neg hnl]
      by_cases ha : ch = 0x01#8
      · rw [if_pos ha, if_pos ha]
        rfl
      -- a character goes into the buffer
      have h := ih (front ++ [ch]) n (by rw [length_concat]; omega)
      rw [length_concat, List.append_assoc, List.singleton_append] at h
      rw [if_neg ha, if_neg ha, run_bind, List.replicate_succ, List.cons_append, putByte_append,
        Res.bind_done, h]
      rcases readLine n input with _ | ⟨line, e, rest⟩
      · rfl
      · have hlen : front.length + 1 + line.length = front.length + (ch :: line).length := by
          rw [List.length_cons]
          omega
        have hpad : n + 1 - (ch :: line).length = n - line.length := by
          rw [List.length_cons]
          omega
        show Res.done (_, _, e, rest) k = Res.done (_, _, e, rest) k
        rw [hlen, hpad, List.append_assoc]
        rfl

theorem synchRead_eq (into : List Byte) (numBytes : ℤ) :
    synchRead into numBytes = Nachos.synchRead into numBytes := by
  ext k
  unfold synchRead Nachos.synchRead
  by_cases hlen : (into.length : ℤ) < numBytes
  · rw [if_pos hlen, run_bind, clearLoop_out _ into 0 k (by omega) (by omega)]
    rfl
  · have hclear := clearLoop_run numBytes.toNat [] into k (by omega)
    rw [List.nil_append, List.nil_append] at hclear
    rw [if_neg hlen, run_bind]
    have hclear : (clearLoop into 0 numBytes.toNat).run k = _ := hclear
    rw [hclear, Res.bind_done]
    refine congrArg (Res.wait Call.consoleRead k) (funext fun _ => funext fun k₁ => ?_)
    by_cases hn : numBytes ≤ 0
    · have h0 : numBytes.toNat = 0 := by omega
      simp only [Res.bind_done, if_pos hn, run_bind, h0, List.replicate_zero,
        List.nil_append, List.drop_zero]
    · have hread := readLoop_run numBytes.toNat k₁ (into.drop numBytes.toNat) k₁.input []
        numBytes.toNat (Nat.zero_add _)
      rw [List.nil_append] at hread
      simp only [Res.bind_done, if_neg hn, run_bind, run_look]
      have hread : (readLoop numBytes.toNat k₁.input _ 0).run k₁ = _ := hread
      rw [hread]
      rcases readLine numBytes.toNat k₁.input with _ | ⟨line, e, rest⟩
      · rfl
      · simp only [Res.bind_done, run_bind, run_change, run_pure, List.nil_append, List.length_nil,
          Nat.zero_add]

theorem user2SystemLoop_eq (virtAddr : Word) (n : ℕ) : ∀ (front : List Byte) (k : Kernel),
    (user2SystemLoop virtAddr (front ++ List.replicate (n + 1) 0) front.length n).run k =
      ((Nachos.user2SystemLoop virtAddr front.length n).run k).bind fun bytes k =>
        .done (front ++ (bytes ++ List.replicate (n + 1 - bytes.length) 0)) k := by
  induction n with
  | zero => exact fun _ _ => rfl
  | succ n ih =>
    intro front k
    unfold user2SystemLoop Nachos.user2SystemLoop
    rw [run_bind, run_bind]
    rcases readMemByte_cases (virtAddr + BitVec.ofNat 32 front.length) k with ⟨d, hr⟩ | ⟨w, pt, hr⟩
    · rw [hr]
      rfl
    · have h := ih (front ++ [w.setWidth 8]) { k with pageTable := pt }
      rw [length_concat, List.append_assoc, List.singleton_append] at h
      rw [hr, Res.bind_done, Res.bind_done, run_bind, List.replicate_succ, putByte_append,
        Res.bind_done, run_ite, run_ite]
      by_cases hw : w = 0
      · subst hw
        rw [if_pos rfl, if_pos rfl]
        rfl
      · rw [if_neg hw, if_neg hw, h, run_bind]
        rcases user2SystemLoop_cases virtAddr n (front.length + 1) { k with pageTable := pt } with
          ⟨d, hl⟩ | ⟨bytes, pt', hl⟩
        · rw [hl]
          rfl
        · have hpad : n + 1 + 1 - (w.setWidth 8 :: bytes).length = n + 1 - bytes.length := by
            rw [List.length_cons]
            omega
          rw [hl, Res.bind_done, Res.bind_done, run_pure, Res.bind_done, hpad,
            List.append_assoc]
          rfl

theorem user2System_eq (virtAddr : Word) (limit : ℕ) :
    user2System virtAddr limit = Nachos.user2System virtAddr limit := by
  ext k
  unfold user2System Nachos.user2System
  split_ifs
  · rfl
  · exact user2SystemLoop_eq virtAddr limit [] k

theorem getByte_run {buffer : List Byte} {i : ℕ} {c : Byte} (hc : buffer[i]? = some c) :
    getByte buffer i = pure c := by
  unfold getByte
  rw [if_pos (Int.natCast_nonneg i), Int.toNat_natCast, hc]

theorem readIntLoop_eq (buffer : List Byte) (n : ℕ) : ∀ (result : Word) (i : ℕ) (k : Kernel),
    i + n ≤ buffer.length → (readIntLoop buffer result i n).run k =
      .done (Nachos.readIntLoop result ((buffer.drop i).take n)) k := by
  induction n with
  | zero =>
    intro result i k _
    rw [List.take_zero]
    rfl
  | succ n ih =>
    intro result i k hn
    have hlt : i < buffer.length := by omega
    unfold readIntLoop
    rw [getByte_run (List.getElem?_eq_getElem hlt), List.drop_eq_getElem_cons hlt,
      List.take_succ_cons, run_bind, run_pure, Res.bind_done, run_ite, Nachos.readIntLoop]
    split_ifs
    · exact ih _ (i + 1) k (by omega)
    · rfl

theorem parseInt_eq {buffer : List Byte} {n : ℕ} (h0 : 0 < n) (hn : n ≤ buffer.length)
    (k : Kernel) :
    (parseInt buffer n).run k = .done (Nachos.parseInt (buffer.take n)) k := by
  obtain ⟨n, rfl⟩ := Nat.exists_eq_add_one.mpr h0
  obtain ⟨c, rest, rfl⟩ := List.exists_cons_of_length_pos (Nat.lt_of_lt_of_le h0 hn)
  have hrest : n ≤ rest.length := Nat.le_of_succ_le_succ hn
  have hfirst : getByte (c :: rest) 0 = pure c := getByte_run (i := 0) rfl
  unfold parseInt
  rw [hfirst, run_bind, run_pure, Res.bind_done, List.take_succ_cons, Nachos.parseInt]
  by_cases hc : c = 0x2D#8
  · have hloop := readIntLoop_eq (c :: rest) (n + 1 - 1) 0 1 k (by rw [List.length_cons]; omega)
    rw [List.drop_one, List.tail_cons, Nat.add_sub_cancel] at hloop
    simp only [if_pos hc, Nat.add_sub_cancel]
    rw [run_bind, hloop, Res.bind_done, run_ite]
    rcases n with _ | n
    · rw [if_pos ⟨rfl, trivial⟩, List.take_zero, if_pos rfl]
      rfl
    · rw [if_neg (by omega), if_neg (by cases rest <;> simp at hrest ⊢)]
      rfl
  · have hloop := readIntLoop_eq (c :: rest) (n + 1) 0 0 k (by rw [List.length_cons]; omega)
    rw [List.drop_zero, List.take_succ_cons] at hloop
    have hone : (fun r : Word => r * 1) = id := funext fun r => BitVec.mul_one r
    simp only [if_neg hc, Nat.sub_zero]
    rw [run_bind, hloop, Res.bind_done, run_ite, if_neg fun h => absurd h.2 (by decide), hone,
      Option.map_id]
    rfl

theorem scReadInt_eq : scReadInt = Nachos.scReadInt := by
  unfold scReadInt Nachos.scReadInt
  rw [synchRead_eq]
  refine congrArg _ (funext fun ⟨buffer, bytesRead⟩ => ?_)
  ext k
  rw [run_bind, run_bind]
  unfold putByte
  by_cases hin : 0 ≤ bytesRead ∧ bytesRead < buffer.length
  · rw [if_pos hin, run_pure, Res.bind_done, Res.bind_done, run_ite, run_ite]
    by_cases hpos : bytesRead > 0
    · have hlen : bytesRead.toNat ≤ (buffer.set bytesRead.toNat 0).length := by
        rw [List.length_set]
        omega
      rw [if_pos hpos, if_pos hpos, run_bind, parseInt_eq (by omega) hlen]
      rfl
    · rw [if_neg hpos, if_neg hpos]
  · rw [if_neg hin]
    rfl

theorem scReadString_eq : scReadString = Nachos.scReadString := by
  unfold scReadString Nachos.scReadString
  simp only [synchRead_eq]

theorem scRead_eq : scRead = Nachos.scRead := by
  unfold scRead Nachos.scRead
  simp only [synchRead_eq, user2System_eq]

/-- `SynchConsole::Read` leaves the length of the buffer as it is. -/
theorem length_synchRead (into : List Byte) (n : ℤ) (k : Kernel) :
    All (fun _ _ _ _ => True) (fun r _ => r.1.length = into.length)
      ((Nachos.synchRead into n).run k) := by
  unfold Nachos.synchRead
  rw [run_ite]
  split_ifs with hlt hn
  · trivial
  · exact fun _ _ _ _ _ _ => rfl
  · intro _ k₁ _
    simp only [run_bind, run_look, Res.bind_done]
    rcases hl : readLine n.toNat k₁.input with _ | ⟨line, e, rest⟩
    · trivial
    · have hle := readLine_length_le _ _ hl
      show (line ++ List.replicate (n.toNat - line.length) 0 ++ into.drop n.toNat).length = _
      rw [List.length_append, List.length_append, List.length_replicate, List.length_drop]
      omega

theorem scReadChar_eq : scReadChar = Nachos.scReadChar := by
  unfold scReadChar Nachos.scReadChar
  rw [synchRead_eq]
  have hpos : 0 < (List.replicate (maxBufferSize + 1) (0 : Byte)).length := by
    rw [List.length_replicate]
    exact Nat.succ_pos _
  generalize List.replicate (maxBufferSize + 1) (0 : Byte) = into at hpos
  generalize (maxBufferSize : ℤ) = n
  ext k
  rw [run_bind, run_bind]
  refine Res.bind_congr (length_synchRead into n k) fun ⟨input, bytes⟩ k₁ hlen => ?_
  obtain ⟨c, input, rfl⟩ := List.exists_cons_of_length_pos (hlen.trans_gt hpos)
  have hfirst : getByte (c :: input) 0 = pure c := getByte_run (i := 0) rfl
  dsimp only
  rw [hfirst]
  rfl

end Indexed

/-! ## Inside of the buffers -/

/-- An access outside of a buffer is what stops with this. -/
abbrev outside : End := .down .undefined

section Avoids

variable {k : Kernel} {α : Type}

/-- The rule for what runs after `SynchConsole::Read` into a buffer that is long enough. -/
theorem avoids_synchRead_bind {into : List Byte} {n : ℤ} (hn : n ≤ into.length)
    {f : List Byte × ℤ → KernelM α} :
    Avoids Serves outside ((synchRead into n >>= f).run k) ↔
      ∀ k₁, k.Mine k₁ →
        (n ≤ 0 → ∀ ch : ℤ, Avoids Serves outside ((f (into, if ch = 1 then -1 else 0)).run k₁)) ∧
        (0 < n → ∀ line e rest, readLine n.toNat k.input = some (line, e, rest) →
          Avoids Serves outside ((f (line ++ List.replicate (n.toNat - line.length) 0 ++
            into.drop n.toNat, if e = .ctrlA then -1 else (line.length : ℤ))).run
              { k₁ with input := rest })) := by
  unfold synchRead
  rw [if_neg (by omega)]
  constructor
  · intro h k₁ hk₁
    have h := h () k₁ hk₁
    refine ⟨fun h0 ch => ?_, fun h0 line e rest hline => ?_⟩
    · simp only [Res.bind_done, if_pos h0] at h
      exact h ch k₁ rfl
    · simp only [Res.bind_done, if_neg (not_le.mpr h0), run_bind, run_look, hk₁.input, hline] at h
      exact h
  · intro h _ k₁ hk₁
    obtain ⟨hnone, hline⟩ := h k₁ hk₁
    simp only [Res.bind_done]
    by_cases h0 : n ≤ 0
    · rw [if_pos h0]
      rintro ch k₂ rfl
      exact hnone h0 ch
    · simp only [if_neg h0, run_bind, run_look, Res.bind_done, hk₁.input]
      rcases hl : readLine n.toNat k.input with _ | ⟨line, e, rest⟩
      · exact nofun
      · exact hline (not_le.mp h0) line e rest hl

theorem avoids_access {f : Kernel → Access (α × Kernel)} :
    Avoids Serves outside ((access f).run k) := by
  unfold access
  dsimp only
  split
  · trivial
  · exact nofun
  · exact nofun

theorem avoids_fileOp {f : FileSystem → Option (α × FileSystem)} :
    Avoids Serves outside ((fileOp f).run k) := by
  unfold fileOp
  dsimp only
  split
  · exact nofun
  · trivial

theorem avoids_getCurrentPos {id : ℕ} : Avoids Serves outside ((getCurrentPos id).run k) := by
  unfold getCurrentPos onFile
  exact avoids_fileOp

theorem avoids_user2System {virtAddr : Word} {limit : ℕ} :
    Avoids Serves outside ((user2System virtAddr limit).run k) := by
  have hloop : ∀ (n i : ℕ) (k : Kernel),
      Avoids Serves outside ((user2SystemLoop virtAddr i n).run k) := by
    intro n
    induction n with
    | zero => exact fun _ _ => trivial
    | succ n ih =>
      intro i k
      unfold user2SystemLoop
      rw [run_bind, avoids_bind]
      refine ⟨avoids_access, ?_⟩
      rcases readMemByte_cases (virtAddr + BitVec.ofNat 32 i) k with ⟨d, hr⟩ | ⟨w, pt, hr⟩
      · rw [hr]
        trivial
      · rw [hr, all_done, run_ite]
        split_ifs
        · trivial
        · rw [run_bind, avoids_bind]
          exact ⟨ih _ _, all_iff_returns.mpr fun _ _ _ => trivial⟩
  unfold user2System
  split_ifs
  · rintro ⟨⟩
  · rw [run_bind, avoids_bind]
    exact ⟨hloop limit 0 k, all_iff_returns.mpr fun _ _ _ => trivial⟩

theorem avoids_system2User {virtAddr : Word} {len : ℤ} {buffer : List Byte}
    (hlen : len ≤ buffer.length) :
    Avoids Serves outside ((system2User virtAddr len buffer).run k) := by
  have hloop : ∀ (n i : ℕ) (k : Kernel), i + n ≤ buffer.length →
      Avoids Serves outside ((system2UserLoop virtAddr buffer i n).run k) := by
    intro n
    induction n with
    | zero => exact fun _ _ _ => trivial
    | succ n ih =>
      intro i k hi
      unfold system2UserLoop
      rw [List.getElem?_eq_getElem (show i < buffer.length by omega)]
      dsimp only
      rw [run_bind, avoids_bind]
      refine ⟨avoids_access, ?_⟩
      rcases writeMemByte_cases (virtAddr + BitVec.ofNat 32 i) (buffer[i].signExtend 32) k with
        ⟨d, hr⟩ | ⟨m, pt, hr⟩
      · rw [hr]
        trivial
      · rw [hr, all_done, run_ite]
        split_ifs
        · trivial
        · exact ih (i + 1) _ (by omega)
  unfold system2User
  rw [run_ite, run_ite]
  split_ifs
  · trivial
  · trivial
  · exact hloop len.toNat 0 k (by omega)

end Avoids

/-! ## The condition -/

/-- The line that `SynchConsole::Read` gets for `n` characters ends with Ctrl-A. -/
def Kernel.EndsInCtrlA (k : Kernel) (n : ℕ) : Prop :=
  ∃ line rest, readLine n k.input = some (line, .ctrlA, rest)

/-- The calls that read from the console. -/
def Syscall.ReadsConsole (k : Kernel) : Syscall → Prop
  | .readInt | .readChar | .readString => True
  | .read => ∃ f, k.fileArg 6 = some f ∧ f.type = 2
  | _ => False

/-- The handlers with the indices of their buffers. -/
def Syscall.indexed : Syscall → KernelM Leave
  | .readInt => Indexed.scReadInt
  | .readChar => Indexed.scReadChar
  | .readString => Indexed.scReadString
  | .read => Indexed.scRead
  | c => c.handler

theorem Syscall.indexed_eq (c : Syscall) : c.indexed = c.handler := by
  cases c with
  | readInt => exact Indexed.scReadInt_eq
  | readChar => exact Indexed.scReadChar_eq
  | readString => exact Indexed.scReadString_eq
  | read => exact Indexed.scRead_eq
  | _ => rfl

/-- Every access of the call to a kernel buffer is inside of it, whatever the other threads do. -/
structure Syscall.InBounds (k : Kernel) (c : Syscall) : Prop where
  avoids : Avoids Serves outside (c.indexed.run k)

theorem Syscall.inBounds_iff_avoids {k : Kernel} {c : Syscall} :
    c.InBounds k ↔ Avoids Serves outside (c.handler.run k) := by
  rw [← c.indexed_eq]
  exact ⟨fun h => h.avoids, fun h => ⟨h⟩⟩

/-- `SC_ReadInt` and `SC_ReadString` write a zero at the index that `SynchConsole::Read` returns,
which is -1 for a line that ends with Ctrl-A. `SC_ReadString` takes any length: for 0 and -1 nothing
is read, and the index is what a variable that was not set makes of it; below -1 and for the largest
length the allocation fails. -/
def Syscall.KeepsToBuffer (k : Kernel) : Syscall → Prop
  | .readInt => ¬ k.EndsInCtrlA maxBufferSize
  | .readString => (k.registers 5).toInt < -1 ∨ (k.registers 5).toInt = 2 ^ 31 - 1 ∨
      1 ≤ (k.registers 5).toInt ∧ ¬ k.EndsInCtrlA (k.registers 5).toInt.toNat
  | _ => True

section Handlers

variable {k : Kernel}

/-- A zero at the index -1. -/
theorem not_avoids_putByte {α : Type} {buffer : List Byte} {i : ℤ}
    (hi : ¬ (0 ≤ i ∧ i < buffer.length)) {value : Byte} {f : List Byte → KernelM α} :
    ¬ Avoids Serves outside ((putByte buffer i value >>= f).run k) := by
  rw [Indexed.putByte_out hi]
  exact fun h => h rfl

theorem length_inputBuffer :
    ((maxBufferSize : ℕ) : ℤ) ≤ (List.replicate (maxBufferSize + 1) (0 : Byte)).length := by
  rw [List.length_replicate]
  omega

theorem inBounds_readInt_iff :
    Syscall.readInt.InBounds k ↔ ¬ k.EndsInCtrlA maxBufferSize := by
  rw [Syscall.inBounds_iff_avoids]
  show Avoids Serves outside (scReadInt.run k) ↔ _
  unfold scReadInt
  rw [avoids_synchRead_bind length_inputBuffer]
  constructor
  · rintro h ⟨line, rest, hline⟩
    have h := (h k k.mine_refl).2 (by decide) line .ctrlA rest hline
    exact not_avoids_putByte (by rw [if_pos rfl]; omega) h
  · intro h k₁ _
    refine ⟨fun h0 => absurd h0 (by decide), fun _ line e rest hline => ?_⟩
    have he : e ≠ .ctrlA := fun he => h ⟨line, rest, he ▸ hline⟩
    rw [if_neg he]
    dsimp only
    rw [run_bind, putByte_run (by simp), Res.bind_done, run_ite]
    split_ifs
    · generalize parseInt _ = value
      rcases value with _ | result
      · exact trivial
      · exact trivial
    · exact trivial

theorem inBounds_readChar : Syscall.readChar.InBounds k := by
  rw [Syscall.inBounds_iff_avoids]
  show Avoids Serves outside (scReadChar.run k)
  unfold scReadChar
  rw [avoids_synchRead_bind length_inputBuffer]
  intro k₁ _
  refine ⟨fun h0 => absurd h0 (by decide), fun _ line e rest _ => ?_⟩
  generalize line ++ _ ++ _ = input
  generalize (if e = .ctrlA then -1 else (line.length : ℤ)) = bytes
  simp only [run_ite]
  split_ifs
  · exact trivial
  · exact trivial
  · exact trivial
  · exact trivial

theorem inBounds_read (hf : ∃ f, k.fileArg 6 = some f ∧ f.type = 2) :
    Syscall.read.InBounds k := by
  obtain ⟨f, hf, ht⟩ := hf
  obtain ⟨hr, hf⟩ := fileArg_eq_some hf
  rw [Syscall.inBounds_iff_avoids]
  show Avoids Serves outside (scRead.run k)
  unfold scRead
  simp only [run_bind, readRegister, run_look, Res.bind_done]
  by_cases hn : (k.registers 5).toInt < 0
  · unfold checkTransfer
    rw [if_pos hn]
    exact trivial
  · rw [checkTransfer_run hn hr hf (by omega), run_bind, avoids_bind]
    refine ⟨avoids_getCurrentPos, all_getCurrentPos hf ?_⟩
    rw [run_bind, avoids_bind]
    refine ⟨avoids_user2System, all_user2System fun buffer pt hb => ?_⟩
    have hlen := user2System_length hb
    rw [if_pos ht]
    rw [avoids_synchRead_bind (by omega)]
    refine fun k₁ _ => ⟨fun h0 ch => ?_, fun h0 line e rest hline => ?_⟩
    · rw [run_bind, avoids_bind]
      refine ⟨avoids_system2User ?_, all_iff_returns.mpr fun _ _ _ => trivial⟩
      split_ifs <;> omega
    · rw [run_bind, avoids_bind]
      refine ⟨avoids_system2User ?_, all_iff_returns.mpr fun _ _ _ => trivial⟩
      have := readLine_length_le _ _ hline
      split_ifs
      · omega
      · rw [List.length_append, List.length_append]
        omega

theorem toInt_add_one (w : Word) :
    (w + 1).toInt = if w.toInt = 2 ^ 31 - 1 then -2 ^ 31 else w.toInt + 1 := by
  have hlow := w.le_toInt
  have hhigh := w.toInt_lt
  rw [BitVec.toInt_add, show (1 : Word).toInt = 1 from rfl]
  split_ifs with h
  · rw [h]
    rfl
  · exact Int.bmod_eq_of_le (by omega) (by omega)

theorem inBounds_readString_iff :
    Syscall.readString.InBounds k ↔ Syscall.readString.KeepsToBuffer k := by
  unfold Syscall.KeepsToBuffer
  rw [Syscall.inBounds_iff_avoids]
  show Avoids Serves outside (scReadString.run k) ↔ _
  unfold scReadString
  simp only [run_bind, readRegister, run_look, Res.bind_done]
  have hsize := toInt_add_one (k.registers 5)
  have hhigh := (k.registers 5).toInt_lt
  generalize (k.registers 5 + 1).toInt = size at hsize
  generalize (k.registers 5).toInt = n at hsize hhigh
  by_cases hneg : size < 0
  · -- the allocation fails
    rw [if_pos hneg]
    refine iff_of_true (by rintro ⟨⟩) ?_
    split_ifs at hsize <;> omega
  have hn : n ≠ 2 ^ 31 - 1 := by
    intro hn
    rw [if_pos hn] at hsize
    omega
  rw [if_neg hn] at hsize
  have hlen : (List.replicate size.toNat (0 : Byte)).length = size.toNat := List.length_replicate
  rw [if_neg hneg, avoids_synchRead_bind (by omega)]
  constructor
  · intro h
    have hpos : 1 ≤ n := by
      by_contra hle
      -- the variable holds the code of Ctrl-A
      have h := (h k k.mine_refl).1 (by omega) 1
      rw [if_pos rfl] at h
      exact not_avoids_putByte (by omega) h
    refine Or.inr (Or.inr ⟨hpos, ?_⟩)
    rintro ⟨line, rest, hline⟩
    have h := (h k k.mine_refl).2 (by omega) line .ctrlA rest hline
    exact not_avoids_putByte (by rw [if_pos rfl]; omega) h
  · rintro (h | h | ⟨hpos, hno⟩) k₁ hk₁
    · omega
    · exact absurd h hn
    · refine ⟨fun h0 => absurd h0 (by omega), fun _ line e rest hline => ?_⟩
      have he : e ≠ .ctrlA := fun he => hno ⟨line, rest, he ▸ hline⟩
      have hle := readLine_length_le _ _ hline
      rw [if_neg he]
      dsimp only
      rw [run_bind, putByte_run (by simp; omega), Res.bind_done, run_ite]
      split_ifs
      · trivial
      · rw [run_bind, avoids_bind]
        refine ⟨avoids_system2User ?_, all_iff_returns.mpr fun byteCopied k₂ _ => ?_⟩
        · simp
          omega
        · by_cases hc : byteCopied ≤ 0
          · simp only [if_pos hc]
            trivial
          · simp only [if_neg hc]
            trivial

/-- The accesses to a kernel buffer are inside of it exactly for these inputs and lengths. -/
theorem inBounds_iff {c : Syscall} (hc : c.ReadsConsole k) : c.InBounds k ↔ c.KeepsToBuffer k := by
  cases c with
  | readInt => exact inBounds_readInt_iff
  | readString => exact inBounds_readString_iff
  | readChar => exact iff_of_true inBounds_readChar trivial
  | read => exact iff_of_true (inBounds_read hc) trivial
  | _ => exact hc.elim

end Handlers

/-- `5` and a newline. -/
theorem inBounds_readInt_five : Syscall.readInt.InBounds (typist ([0x35#8] ++ [0x0A#8])) := by
  have hfive : ∀ c ∈ [0x35#8], IsTyped c := by decide
  have hread : Syscall.readInt.ReadsConsole (typist ([0x35#8] ++ [0x0A#8])) := trivial
  refine (inBounds_iff hread).mpr ?_
  rintro ⟨line, rest, h⟩
  rw [typist_readLine hfive (by decide)] at h
  cases h

/-- Ctrl-A: `SC_ReadInt` writes a zero before the start of its buffer. -/
theorem readInt_before_buffer :
    ¬ ∀ (k : Kernel) (c : Syscall), c.ReadsConsole k → c.InBounds k := by
  intro hall
  refine inBounds_readInt_iff.mp (hall (typist [0x01]) .readInt trivial) ⟨[], [], ?_⟩
  show readLine (254 + 1) [0x01#8] = _
  rw [readLine, if_neg (by decide), if_neg (by decide), if_pos rfl]

end Nachos
