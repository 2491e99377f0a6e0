import Nachos.Userprog.Transfer

/-!
# Writing to the console

`SC_Write` on the console has `while (buffer[i] = '\n')`, an assignment where a comparison was
meant: each round overwrites a byte of the buffer and sends a newline, until the loop has left the
buffer. No call returns.
-/

namespace Nachos

open Prog

/-- Whatever the thread finds after its waits, it has sent `bytes` to the console, has waited for
nothing else, and ends as `ends` says: in a state, or with `none` for a stop. -/
def Sends (ends : Option Kernel → Prop) :
    Res Kernel Call.Reply End Leave → List Byte → Prop
  | .done _ k, bytes => bytes = [] ∧ ends (some k)
  | .stop _, bytes => bytes = [] ∧ ends none
  | .wait c k resume, bytes => ∃ sent rest, c = .consoleWrite sent ∧ bytes = sent ++ rest ∧
      ∀ r k', Serves c k r k' → Sends ends (resume r k') rest

/-- `SC_Write` of the user's `bytes` to the console: it returns, and has sent those before the first
zero and put their number into register 2. -/
def WritesToConsole (k : Kernel) (bytes : List Byte) : Prop :=
  Sends (fun o => ∃ k', o = some k' ∧ k'.registers 2 = BitVec.ofNat 32 (cstring bytes).length)
    (scWrite.run k) (cstring bytes)

/-- The console takes what it is sent. -/
theorem serves_consoleWrite (k : Kernel) (bytes : List Byte) :
    ∃ k', Serves (.consoleWrite bytes) k () k' :=
  ⟨{ k with output := k.output ++ bytes }, ⟨rfl, rfl, rfl, rfl, fun _ _ _ => rfl⟩, [], [], by simp⟩

/-- A thread that never returns does not end in a state. -/
theorem not_sends_of_all {ends : Option Kernel → Prop} (hends : ¬ ends none)
    {r : Res Kernel Call.Reply End Leave} (h : All Serves (fun _ _ => False) r)
    (bytes : List Byte) : ¬ Sends ends r bytes := by
  induction r generalizing bytes with
  | done leave k => exact h.elim
  | stop d => exact fun hs => hends hs.2
  | wait c k resume ih =>
    rintro ⟨sent, rest, rfl, -, hrest⟩
    obtain ⟨k', hk'⟩ := serves_consoleWrite k sent
    exact ih () k' (h () k' hk') rest (hrest () k' hk')

/-- The loop sends newlines up to the end of the buffer and goes on past it. -/
theorem sends_writeStdoutLoop (n : ℕ) : ∀ k : Kernel,
    Sends (fun o => o = none) ((writeStdoutLoop n).run k) (List.replicate n 0x0A#8) := by
  induction n with
  | zero => exact fun _ => ⟨rfl, rfl⟩
  | succ n ih => exact fun k => ⟨[0x0A#8], List.replicate n 0x0A#8, rfl, rfl, fun _ k' _ => ih k'⟩

section Handler

variable {k : Kernel} {f : OpenFile}

/-- `SC_Write` on the console, whatever the user's memory. -/
theorem never_returns (hf : k.fileArg 6 = some f) (ht : f.type = 3)
    (hn : 0 ≤ (k.registers 5).toInt) : All Serves (fun _ _ => False) (scWrite.run k) := by
  obtain ⟨hr, hf⟩ := fileArg_eq_some hf
  unfold scWrite
  simp only [run_bind, readRegister, run_look, Res.bind_done]
  rw [checkTransfer_run (by omega) hr hf (by omega), run_bind, all_bind]
  refine all_getCurrentPos hf ?_
  rw [run_bind, all_bind]
  refine all_user2System fun buffer pt _ => ?_
  rw [if_pos ht]
  exact all_writeStdoutLoop buffer.length _

/-- With the user's `bytes` in reach: a newline for each byte of the kernel's buffer, which is one
longer, and then the loop is outside of it. -/
theorem scWrite_console (hf : k.fileArg 6 = some f) (ht : f.type = 3) {bytes : List Byte}
    (hn : (k.registers 5).toInt = bytes.length) (hb : k.HasBytes (k.registers 4) bytes)
    (hlen : bytes.length + 1 < 2 ^ 31) :
    Sends (fun o => o = none) (scWrite.run k) (List.replicate (bytes.length + 1) 0x0A#8) := by
  obtain ⟨hr, hf⟩ := fileArg_eq_some hf
  unfold scWrite
  simp only [run_bind, readRegister, run_look, Res.bind_done]
  rw [checkTransfer_run (by omega) hr hf (by omega), run_bind, getCurrentPos_run hf, Res.bind_done,
    hn, Int.toNat_natCast]
  obtain ⟨pt, -, hu⟩ := user2System_run (k := { k with
    fileSystem := k.fileSystem.setSlot (k.registers 6).toInt.toNat
      (some { f with currentOffset := k.fileSystem.host.tell f.file }) }) hb hlen
  rw [run_bind, hu, Res.bind_done, if_pos ht]
  have := sends_writeStdoutLoop (zeroFilled bytes ++ [0]).length
  rw [List.length_append, length_zeroFilled] at this ⊢
  exact this _

/-- On the console `SC_Write` meets its purpose for no buffer. -/
theorem not_writesToConsole (hf : k.fileArg 6 = some f) (ht : f.type = 3)
    (hn : 0 ≤ (k.registers 5).toInt) (bytes : List Byte) : ¬ WritesToConsole k bytes :=
  not_sends_of_all (fun ⟨_, h, _⟩ => nomatch h) (never_returns hf ht hn) (cstring bytes)

end Handler

/-- A process that writes `bytes` to the console. -/
def consoleWriter (bytes : List Byte) : Kernel :=
  { writer bytes with
    registers := (writer bytes).registers.write 6 1
    fileSystem :=
      { openState := fun i =>
          if i = 1 then some { type := 3, file := 0, currentOffset := 0 } else none
        host := (writer bytes).fileSystem.host } }

theorem not_writesToConsole_one : ¬ WritesToConsole (consoleWriter [0x61]) [0x61] :=
  not_writesToConsole rfl rfl (by decide) [0x61]

/-- For one byte two newlines are sent, and the call does not return. -/
theorem console_gets_newlines :
    (consoleWriter [0x61]).HasBytes ((consoleWriter [0x61]).registers 4) [0x61] ∧
      Sends (fun o => o = none) (scWrite.run (consoleWriter [0x61])) [0x0A, 0x0A] ∧
      ¬ WritesToConsole (consoleWriter [0x61]) [0x61] := by
  have hb : (consoleWriter [0x61]).HasBytes ((consoleWriter [0x61]).registers 4) [0x61] :=
    writer_hasBytes (by decide)
  refine ⟨hb, scWrite_console rfl rfl (by decide) hb (by decide), ?_⟩
  exact not_sends_of_all (fun ⟨_, h, _⟩ => nomatch h) (never_returns rfl rfl (by decide)) _

end Nachos
