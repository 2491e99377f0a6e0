import Mathlib.Algebra.Order.Ring.Int
import Nachos.Lib.Places
import Nachos.Lib.Run
import Nachos.Machine.Basic
import Nachos.Threads.Synch

/-!
# The synchronous console, `synchcons.cc` and `console.cc`

Any number of threads call `Write` and `Read` on one console. The two have nothing in common but the
threads, so the model has two halves: the display with its busy flag and the interrupt that says
that a character is out, and the keyboard with its buffer for one character and the interrupt that
polls for the next one. A thread is at one point of one of the two calls; it can lose the processor
and interrupts can come between any two of its steps. A thread on the queue of a semaphore sleeps; a
thread in `P` that is not on the queue tests the value when it runs.
-/

namespace Nachos

/-! ## The display -/

/-- Where a thread is in `Write`; `from` are the bytes to write. -/
inductive WritePoint where
  /-- In `WLineBlock->P()`. -/
  | lineBlock (buf : List Byte)
  /-- At the test of the loop. -/
  | loop (buf : List Byte) (loop : ℕ)
  /-- In `synchWriteAvail->P()`. -/
  | writeAvail (buf : List Byte) (loop : ℕ)
  deriving DecidableEq, Repr

structure Display where
  wLineBlock : Semaphore
  synchWriteAvail : Semaphore
  putBusy : Bool
  /-- The interrupts `ConsoleWriteDone` that are scheduled. -/
  scheduled : ℕ
  output : List Byte
  point : ℕ → Option WritePoint
  /-- The buffers of the calls that got `WLineBlock`, in this order. -/
  acquired : List (List Byte)
  /-- The `ASSERT` of `PutChar` failed. -/
  failed : Bool

namespace Display

def start : Display where
  wLineBlock := Semaphore.new 1
  synchWriteAvail := Semaphore.new 0
  putBusy := false
  scheduled := 0
  output := []
  point := fun _ => none
  acquired := []
  failed := false

def moveTo (d : Display) (t : ℕ) (p : Option WritePoint) : Display :=
  { d with point := Function.update d.point t p }

/-- `Console::PutChar`. -/
def putChar (d : Display) (ch : Byte) : Display :=
  if d.putBusy then { d with failed := true }
  else { d with output := d.output ++ [ch], putBusy := true, scheduled := d.scheduled + 1 }

/-- `Console::WriteDone` with `SynchWriteFunct`. -/
def writeDone (d : Display) : Display :=
  { d with
    putBusy := false
    scheduled := d.scheduled - 1
    synchWriteAvail := d.synchWriteAvail.V }

/-- The next step of `Write` by thread `t`. -/
def run (d : Display) (t : ℕ) : WritePoint → Option Display
  | .lineBlock buf =>
    if t ∈ d.wLineBlock.queue then none
    else if (d.wLineBlock.P t).2 then
      some ({ d with
              wLineBlock := (d.wLineBlock.P t).1
              acquired := d.acquired ++ [buf] }.moveTo t (some (.loop buf 0)))
    else some { d with wLineBlock := (d.wLineBlock.P t).1 }
  | .loop buf loop =>
    match buf[loop]? with
    | some ch => some ((d.putChar ch).moveTo t (some (.writeAvail buf loop)))
    | none => some ({ d with wLineBlock := d.wLineBlock.V }.moveTo t none)
  | .writeAvail buf loop =>
    if t ∈ d.synchWriteAvail.queue then none
    else if (d.synchWriteAvail.P t).2 then
      some ({ d with synchWriteAvail := (d.synchWriteAvail.P t).1 }.moveTo t
        (some (.loop buf (loop + 1))))
    else some { d with synchWriteAvail := (d.synchWriteAvail.P t).1 }

end Display

/-- The points at which a thread has `WLineBlock`. -/
def WritePoint.Holds : WritePoint → Prop
  | .lineBlock _ => False
  | _ => True

namespace Display

/-- No character is on its way. -/
def Quiet (d : Display) : Prop :=
  d.putBusy = false ∧ d.scheduled = 0 ∧ d.synchWriteAvail.value = 0

/-- A character is on its way, or the interrupt has come and nobody has seen it. -/
def Waits (d : Display) : Prop :=
  d.putBusy = true ∧ d.scheduled = 1 ∧ d.synchWriteAvail.value = 0 ∨
    d.putBusy = false ∧ d.scheduled = 0 ∧ d.synchWriteAvail.value = 1

/-- What holds of the display while `w` has `WLineBlock`. -/
inductive Held (d : Display) : Option ℕ → Prop
  | free (hv : d.wLineBlock.value = 1) (hq : d.Quiet) (ho : d.output = d.acquired.flatten) :
      Held d none
  | loop {t loop : ℕ} {buf : List Byte} {done : List (List Byte)} (hv : d.wLineBlock.value = 0)
      (hp : d.point t = some (.loop buf loop)) (hl : loop ≤ buf.length) (hq : d.Quiet)
      (ha : d.acquired = done ++ [buf]) (ho : d.output = done.flatten ++ buf.take loop) :
      Held d (some t)
  | wait {t loop : ℕ} {buf : List Byte} {done : List (List Byte)} (hv : d.wLineBlock.value = 0)
      (hp : d.point t = some (.writeAvail buf loop)) (hl : loop < buf.length) (hw : d.Waits)
      (ha : d.acquired = done ++ [buf]) (ho : d.output = done.flatten ++ buf.take (loop + 1)) :
      Held d (some t)

structure Inv (d : Display) : Prop where
  sound : d.failed = false
  held : ∃ w, Places.Holder WritePoint.Holds d.point w ∧ d.Held w

theorem inv_start : start.Inv :=
  ⟨rfl, none, fun _ => ⟨nofun, nofun⟩, .free rfl ⟨rfl, rfl, rfl⟩ rfl⟩

variable {d d' : Display}

/-- A thread that has not `WLineBlock` moves, and nothing else changes. -/
theorem Inv.call (h : d.Inv) {t : ℕ} (hp : d.point t = none) (buf : List Byte) :
    (d.moveTo t (some (.lineBlock buf))).Inv := by
  obtain ⟨hf, w, hw, hh⟩ := h
  have hne : w ≠ some t := by
    intro e
    obtain ⟨p, hp', -⟩ := (hw t).mpr e
    rw [hp] at hp'
    cases hp'
  refine ⟨hf, w, hw.pass hne fun q hq => ?_, ?_⟩
  · cases hq
    exact id
  · cases hh with
    | free hv hq ho => exact .free hv hq ho
    | loop hv hp' hl hq ha ho =>
      refine .loop hv ?_ hl hq ha ho
      exact (Function.update_of_ne (fun e => hne (congrArg some e)) _ _).trans hp'
    | wait hv hp' hl hq ha ho =>
      refine .wait hv ?_ hl hq ha ho
      exact (Function.update_of_ne (fun e => hne (congrArg some e)) _ _).trans hp'

/-- `P` on `WLineBlock`. -/
theorem Inv.runLineBlock (h : d.Inv) {t : ℕ} {buf : List Byte} (hr : d.run t (.lineBlock buf) = some d') : d'.Inv := by
  obtain ⟨hf, w, hw, hh⟩ := h
  simp only [run] at hr
  split at hr
  · cases hr
  · by_cases hv : d.wLineBlock.value = 0
    · rw [Semaphore.P_zero hv, if_neg Bool.false_ne_true] at hr
      cases hr
      refine ⟨hf, w, hw, ?_⟩
      cases hh with
      | free hv' hq ho => exact .free hv' hq ho
      | loop hv' hp' hl hq ha ho => exact .loop hv' hp' hl hq ha ho
      | wait hv' hp' hl hq ha ho => exact .wait hv' hp' hl hq ha ho
    · rw [Semaphore.P_pos hv, if_pos rfl] at hr
      cases hr
      cases hh with
      | free hv' hq ho =>
        refine ⟨hf, some t, hw.take (Or.inl rfl) trivial, ?_⟩
        refine .loop ?_ (Function.update_self t _ _) (Nat.zero_le _) hq rfl ?_
        · show intPred d.wLineBlock.value = 0
          rw [hv']
          rfl
        · show d.output = d.acquired.flatten ++ []
          rw [List.append_nil, ho]
      | loop hv' => exact absurd hv' hv
      | wait hv' => exact absurd hv' hv

/-- The test of the loop: a character is put out, or `WLineBlock` is given back. -/
theorem Inv.runLoop (h : d.Inv) {t loop : ℕ} {buf : List Byte}
    (hp : d.point t = some (.loop buf loop)) (hr : d.run t (.loop buf loop) = some d') : d'.Inv := by
  obtain ⟨hf, w, hw, hh⟩ := h
  obtain rfl := hw.eq_some hp trivial
  cases hh with
  | wait _ hp' =>
    rw [hp] at hp'
    cases hp'
  | @loop _ _ _ done hv hp' hl hq ha ho =>
    rw [hp] at hp'
    cases hp'
    simp only [run] at hr
    cases hch : buf[loop]? with
    | some ch =>
      obtain ⟨hlt, hget⟩ := List.getElem?_eq_some_iff.mp hch
      rw [hch] at hr
      cases hr
      have hput : d.putChar ch =
          { d with output := d.output ++ [ch], putBusy := true, scheduled := d.scheduled + 1 } := by
        rw [putChar, hq.1]
        rfl
      rw [hput]
      refine ⟨hf, some t, hw.take (Or.inr rfl) trivial, ?_⟩
      refine .wait hv (Function.update_self t _ _) hlt (Or.inl ⟨rfl, ?_, hq.2.2⟩) ha ?_
      · show d.scheduled + 1 = 1
        rw [hq.2.1]
      · show d.output ++ [ch] = done.flatten ++ buf.take (loop + 1)
        rw [ho, List.append_assoc, List.take_add_one, hch]
        rfl
    | none =>
      rw [hch] at hr
      cases hr
      refine ⟨hf, none, hw.leave nofun, .free ?_ hq ?_⟩
      · exact Semaphore.V_zero hv
      · show d.output = d.acquired.flatten
        rw [ho, ha, List.flatten_append, List.flatten_singleton,
          List.take_of_length_le (List.getElem?_eq_none_iff.mp hch)]

/-- `P` on `synchWriteAvail`. -/
theorem Inv.runWriteAvail (h : d.Inv) {t loop : ℕ} {buf : List Byte}
    (hp : d.point t = some (.writeAvail buf loop)) (hr : d.run t (.writeAvail buf loop) = some d') :
    d'.Inv := by
  obtain ⟨hf, w, hw, hh⟩ := h
  obtain rfl := hw.eq_some hp trivial
  cases hh with
  | loop _ hp' =>
    rw [hp] at hp'
    cases hp'
  | wait hv hp' hl hq ha ho =>
    rw [hp] at hp'
    cases hp'
    simp only [run] at hr
    split at hr
    · cases hr
    · by_cases hz : d.synchWriteAvail.value = 0
      · rw [Semaphore.P_zero hz, if_neg Bool.false_ne_true] at hr
        cases hr
        exact ⟨hf, some t, hw, .wait hv hp hl hq ha ho⟩
      · rw [Semaphore.P_pos hz, if_pos rfl] at hr
        cases hr
        rcases hq with ⟨_, _, hzero⟩ | ⟨hb, hs, hone⟩
        · exact absurd hzero hz
        · refine ⟨hf, some t, hw.take (Or.inr rfl) trivial, ?_⟩
          refine .loop hv (Function.update_self t _ _) hl ⟨hb, hs, ?_⟩ ha ho
          show intPred d.synchWriteAvail.value = 0
          rw [hone]
          rfl

theorem Inv.run (h : d.Inv) {t : ℕ} {p : WritePoint} (hp : d.point t = some p)
    (hr : d.run t p = some d') : d'.Inv := by
  cases p with
  | lineBlock buf => exact h.runLineBlock hr
  | loop buf loop => exact h.runLoop hp hr
  | writeAvail buf loop => exact h.runWriteAvail hp hr

theorem Inv.writeDone (h : d.Inv) (hs : 0 < d.scheduled) : d.writeDone.Inv := by
  obtain ⟨hf, w, hw, hh⟩ := h
  refine ⟨hf, w, hw, ?_⟩
  cases hh with
  | free hv hq ho => exact absurd hq.2.1 (Nat.pos_iff_ne_zero.mp hs)
  | loop hv hp hl hq ha ho => exact absurd hq.2.1 (Nat.pos_iff_ne_zero.mp hs)
  | wait hv hp hl hq ha ho =>
    rcases hq with ⟨hb, h1, hzero⟩ | ⟨_, h0, _⟩
    · refine .wait hv hp hl (Or.inr ⟨rfl, ?_, ?_⟩) ha ho
      · show d.scheduled - 1 = 0
        rw [h1]
      · exact Semaphore.V_zero hzero
    · exact absurd h0 (Nat.pos_iff_ne_zero.mp hs)

/-- The output is the buffers in the order of `WLineBlock`, the last of them possibly in part, and
in whole when nobody has `WLineBlock`. -/
theorem Inv.output (h : d.Inv) :
    (∃ done buf k, d.acquired = done ++ buf ∧ buf.length ≤ 1 ∧
      d.output = done.flatten ++ buf.flatten.take k) ∧
    ((∀ t buf k, d.point t ≠ some (.loop buf k) ∧ d.point t ≠ some (.writeAvail buf k)) →
      d.output = d.acquired.flatten) := by
  obtain ⟨-, w, -, hh⟩ := h
  cases hh with
  | free _ _ ho =>
    refine ⟨⟨d.acquired, [], 0, (List.append_nil _).symm, Nat.zero_le 1, ?_⟩, fun _ => ho⟩
    rw [ho]
    exact (List.append_nil _).symm
  | @loop t loop buf done _ hp _ _ ha ho =>
    refine ⟨⟨done, [buf], loop, ha, le_rfl, ?_⟩, fun hno => absurd hp (hno t buf loop).1⟩
    rw [ho, List.flatten_singleton]
  | @wait t loop buf done _ hp _ _ ha ho =>
    refine ⟨⟨done, [buf], loop + 1, ha, le_rfl, ?_⟩, fun hno => absurd hp (hno t buf loop).2⟩
    rw [ho, List.flatten_singleton]

end Display

/-! ## The keyboard -/

/-- Where a thread is in `Read` of `numBytes` bytes, with the characters it has put into the
buffer. -/
inductive ReadPoint where
  /-- In `RLineBlock->P()`. -/
  | lineBlock (numBytes : ℕ)
  /-- At the test of the loop. -/
  | loop (numBytes : ℕ) (into : List Byte)
  /-- In `synchReadAvail->P()`. -/
  | readAvail (numBytes : ℕ) (into : List Byte)
  /-- Before `GetChar`. -/
  | getChar (numBytes : ℕ) (into : List Byte)
  /-- After the loop, with the character that ended the line. -/
  | eoln (numBytes : ℕ) (into : List Byte) (ch : Byte)
  deriving DecidableEq, Repr

/-- A call of `Read` that has given `RLineBlock` back. -/
structure ReadCall where
  thread : ℕ
  numBytes : ℕ
  into : List Byte
  /-- The newline or Ctrl-A that ended the line. -/
  last : Option Byte
  deriving DecidableEq, Repr

/-- The bytes the call took from the input. -/
def ReadCall.bytes (r : ReadCall) : List Byte := r.into ++ r.last.toList

/-- `EOF` as a `char`. -/
abbrev eof : Byte := 0xFF#8

/-- The characters that end a line: newline and Ctrl-A. -/
def IsEoln (ch : Byte) : Prop := ch = 0x0A#8 ∨ ch = 0x01#8

instance (ch : Byte) : Decidable (IsEoln ch) := inferInstanceAs (Decidable (_ ∨ _))

structure Keyboard where
  rLineBlock : Semaphore
  synchReadAvail : Semaphore
  incoming : Byte
  /-- What has not been read from the host yet. -/
  input : List Byte
  point : ℕ → Option ReadPoint
  calls : List ReadCall

namespace Keyboard

def start (input : List Byte) : Keyboard where
  rLineBlock := Semaphore.new 1
  synchReadAvail := Semaphore.new 0
  incoming := eof
  input := input
  point := fun _ => none
  calls := []

def moveTo (k : Keyboard) (t : ℕ) (p : Option ReadPoint) : Keyboard :=
  { k with point := Function.update k.point t p }

/-- `Console::CheckCharAvail` with `SynchReadFunct`. -/
def checkCharAvail (k : Keyboard) : Keyboard :=
  if k.incoming ≠ eof then k
  else
    match k.input with
    | [] => k
    | c :: rest =>
      { k with incoming := c, input := rest, synchReadAvail := k.synchReadAvail.V }

/-- `RLineBlock->V()` and the return from `Read`. -/
def finish (k : Keyboard) (r : ReadCall) : Keyboard :=
  { k with rLineBlock := k.rLineBlock.V, calls := k.calls ++ [r] }.moveTo r.thread none

/-- The next step of `Read` by thread `t`. -/
def run (k : Keyboard) (t : ℕ) : ReadPoint → Option Keyboard
  | .lineBlock numBytes =>
    if t ∈ k.rLineBlock.queue then none
    else if (k.rLineBlock.P t).2 then
      some ({ k with rLineBlock := (k.rLineBlock.P t).1 }.moveTo t (some (.loop numBytes [])))
    else some { k with rLineBlock := (k.rLineBlock.P t).1 }
  | .loop numBytes into =>
    if into.length < numBytes then some (k.moveTo t (some (.readAvail numBytes into)))
    else some (k.finish { thread := t, numBytes := numBytes, into := into, last := none })
  | .readAvail numBytes into =>
    if t ∈ k.synchReadAvail.queue then none
    else if (k.synchReadAvail.P t).2 then
      some ({ k with synchReadAvail := (k.synchReadAvail.P t).1 }.moveTo t
        (some (.getChar numBytes into)))
    else some { k with synchReadAvail := (k.synchReadAvail.P t).1 }
  | .getChar numBytes into =>
    some ({ k with incoming := eof }.moveTo t (some (
      if k.incoming = eof then .readAvail numBytes into
      else if IsEoln k.incoming then .eoln numBytes into k.incoming
      else .loop numBytes (into ++ [k.incoming]))))
  | .eoln numBytes into ch =>
    some (k.finish { thread := t, numBytes := numBytes, into := into, last := some ch })

end Keyboard

/-- The points at which a thread has `RLineBlock`. -/
def ReadPoint.Holds : ReadPoint → Prop
  | .lineBlock _ => False
  | _ => True

/-- The bytes a thread has taken from the input. -/
def ReadPoint.bytes : ReadPoint → List Byte
  | .lineBlock _ => []
  | .loop _ into | .readAvail _ into | .getChar _ into => into
  | .eoln _ into ch => into ++ [ch]

/-- The characters so far are a beginning of a line. -/
def ReadPoint.Fits : ReadPoint → Prop
  | .lineBlock _ => True
  | .loop numBytes into => (∀ ch ∈ into, ¬ IsEoln ch) ∧ into.length ≤ numBytes
  | .readAvail numBytes into | .getChar numBytes into =>
    (∀ ch ∈ into, ¬ IsEoln ch) ∧ into.length < numBytes
  | .eoln numBytes into ch => (∀ ch ∈ into, ¬ IsEoln ch) ∧ into.length < numBytes ∧ IsEoln ch

/-- A line of at most `numBytes` characters: it ends after `numBytes` of them, or just after the
first newline or Ctrl-A. -/
def ReadCall.IsLine (r : ReadCall) : Prop :=
  (∀ ch ∈ r.into, ¬ IsEoln ch) ∧
    match r.last with
    | none => r.into.length = r.numBytes
    | some ch => r.into.length < r.numBytes ∧ IsEoln ch

namespace Keyboard

/-- The character in the buffer of the device. -/
def buffered (k : Keyboard) : List Byte := if k.incoming = eof then [] else [k.incoming]

/-- The value of `synchReadAvail` counts the character in the buffer. -/
def Counted (k : Keyboard) : Prop :=
  k.incoming = eof ∧ k.synchReadAvail.value = 0 ∨ k.incoming ≠ eof ∧ k.synchReadAvail.value = 1

/-- The same for a thread with `RLineBlock` at a point: before `GetChar` it has taken the unit. -/
def CountedAt (k : Keyboard) : ReadPoint → Prop
  | .getChar _ _ => k.incoming ≠ eof ∧ k.synchReadAvail.value = 0
  | _ => k.Counted

/-- What holds of the keyboard while `w` has `RLineBlock` and has taken the bytes `taken`. -/
inductive Held (k : Keyboard) : Option ℕ → List Byte → Prop
  | free (hv : k.rLineBlock.value = 1) (hc : k.Counted) : Held k none []
  | held {t : ℕ} {p : ReadPoint} (hv : k.rLineBlock.value = 0) (hp : k.point t = some p)
      (hh : p.Holds) (hf : p.Fits) (hc : k.CountedAt p) : Held k (some t) p.bytes

/-- The invariant of the keyboard with the input `whole`. -/
structure Inv (whole : List Byte) (k : Keyboard) : Prop where
  held : ∃ w taken, Places.Holder ReadPoint.Holds k.point w ∧ k.Held w taken ∧
    whole = (k.calls.map ReadCall.bytes).flatten ++ taken ++ k.buffered ++ k.input
  lines : ∀ r ∈ k.calls, r.IsLine

theorem inv_start (whole : List Byte) : (start whole).Inv whole where
  held := ⟨none, [], fun _ => ⟨nofun, nofun⟩, .free rfl (Or.inl ⟨rfl, rfl⟩), rfl⟩
  lines := nofun

variable {k k' : Keyboard} {whole : List Byte}

theorem Inv.call (h : k.Inv whole) {t : ℕ} (hp : k.point t = none) (numBytes : ℕ) :
    (k.moveTo t (some (.lineBlock numBytes))).Inv whole := by
  obtain ⟨⟨w, taken, hw, hh, hall⟩, hl⟩ := h
  have hne : w ≠ some t := by
    intro e
    obtain ⟨p, hp', -⟩ := (hw t).mpr e
    rw [hp] at hp'
    cases hp'
  refine ⟨⟨w, taken, hw.pass hne fun q hq => ?_, ?_, hall⟩, hl⟩
  · cases hq
    exact id
  · cases hh with
    | free hv hc => exact .free hv hc
    | @held u p hv hp' hh hf hc =>
      refine .held hv ?_ hh hf ?_
      · exact (Function.update_of_ne (fun e => hne (congrArg some e)) _ _).trans hp'
      · cases p <;> exact hc

/-- What holds while thread `t` has `RLineBlock`, at the point `p`. -/
structure Reads (whole : List Byte) (k : Keyboard) (t : ℕ) (p : ReadPoint) : Prop where
  holder : Places.Holder ReadPoint.Holds k.point (some t)
  value : k.rLineBlock.value = 0
  fits : p.Fits
  counted : k.CountedAt p
  all : whole = (k.calls.map ReadCall.bytes).flatten ++ p.bytes ++ k.buffered ++ k.input
  lines : ∀ r ∈ k.calls, r.IsLine

theorem Inv.reads (h : k.Inv whole) {t : ℕ} {p : ReadPoint} (hp : k.point t = some p)
    (hh : p.Holds) : k.Reads whole t p := by
  obtain ⟨⟨w, taken, hw, hheld, hall⟩, hl⟩ := h
  obtain rfl := hw.eq_some hp hh
  cases hheld with
  | held hv hp' _ hf hc =>
    rw [hp] at hp'
    cases hp'
    exact ⟨hw, hv, hf, hc, hall, hl⟩

/-- The thread goes on to a point at which it still has `RLineBlock`. -/
theorem Reads.inv {t : ℕ} {p : ReadPoint} (h : k.Reads whole t p) (hh : p.Holds) :
    (k.moveTo t (some p)).Inv whole := by
  refine ⟨⟨some t, p.bytes, h.holder.take (Or.inr rfl) hh, ?_, h.all⟩, h.lines⟩
  refine .held h.value (Function.update_self t _ _) hh h.fits ?_
  cases p <;> exact h.counted

/-- The thread gives `RLineBlock` back. -/
theorem Reads.finish {t : ℕ} {p : ReadPoint} (h : k.Reads whole t p) {r : ReadCall}
    (ht : r.thread = t) (hl : r.IsLine) (hb : r.bytes = p.bytes) (hc : k.Counted) :
    (k.finish r).Inv whole := by
  subst ht
  refine ⟨⟨none, [], h.holder.leave nofun, .free ?_ hc, ?_⟩, ?_⟩
  · exact Semaphore.V_zero h.value
  · show whole = ((k.calls ++ [r]).map ReadCall.bytes).flatten ++ [] ++ k.buffered ++ k.input
    rw [List.append_nil, List.map_append, List.flatten_append, List.map_singleton,
      List.flatten_singleton, hb]
    exact h.all
  · intro r' hr'
    rcases List.mem_append.mp hr' with hr' | hr'
    · exact h.lines r' hr'
    · rw [List.mem_singleton.mp hr']
      exact hl

/-- `P` on `RLineBlock`. -/
theorem Inv.runLineBlock (h : k.Inv whole) {t numBytes : ℕ}
    (hr : k.run t (.lineBlock numBytes) = some k') : k'.Inv whole := by
  obtain ⟨⟨w, taken, hw, hh, hall⟩, hl⟩ := h
  simp only [run] at hr
  split at hr
  · cases hr
  · by_cases hv : k.rLineBlock.value = 0
    · rw [Semaphore.P_zero hv, if_neg Bool.false_ne_true] at hr
      cases hr
      refine ⟨⟨w, taken, hw, ?_, hall⟩, hl⟩
      cases hh with
      | free hv' hc => exact .free hv' hc
      | @held u p hv' hp' hh hf hc =>
        refine .held hv' hp' hh hf ?_
        cases p <;> exact hc
    · rw [Semaphore.P_pos hv, if_pos rfl] at hr
      cases hr
      cases hh with
      | free hv' hc =>
        refine ⟨⟨some t, [], hw.take (Or.inl rfl) trivial, ?_, hall⟩, hl⟩
        refine .held (p := .loop numBytes []) ?_ (Function.update_self t _ _) trivial
          ⟨nofun, Nat.zero_le _⟩ hc
        show intPred k.rLineBlock.value = 0
        rw [hv']
        rfl
      | held hv' => exact absurd hv' hv

/-- `P` on `synchReadAvail`. -/
theorem Inv.runReadAvail (h : k.Inv whole) {t numBytes : ℕ} {into : List Byte}
    (hp : k.point t = some (.readAvail numBytes into))
    (hr : k.run t (.readAvail numBytes into) = some k') : k'.Inv whole := by
  have hreads := h.reads hp trivial
  simp only [run] at hr
  split at hr
  · cases hr
  · by_cases hz : k.synchReadAvail.value = 0
    · rw [Semaphore.P_zero hz, if_neg Bool.false_ne_true] at hr
      cases hr
      refine ⟨⟨some t, into, hreads.holder, ?_, hreads.all⟩, hreads.lines⟩
      exact .held (p := .readAvail numBytes into) hreads.value hp trivial hreads.fits hreads.counted
    · rw [Semaphore.P_pos hz, if_pos rfl] at hr
      cases hr
      rcases hreads.counted with ⟨_, hzero⟩ | ⟨hin, hone⟩
      · exact absurd hzero hz
      · refine Reads.inv (p := .getChar numBytes into) ⟨hreads.holder, hreads.value, hreads.fits, ⟨hin, ?_⟩,
          hreads.all, hreads.lines⟩ trivial
        show intPred k.synchReadAvail.value = 0
        rw [hone]
        rfl

/-- `GetChar` and the tests of the character. -/
theorem Inv.runGetChar (h : k.Inv whole) {t numBytes : ℕ} {into : List Byte}
    (hp : k.point t = some (.getChar numBytes into))
    (hr : k.run t (.getChar numBytes into) = some k') : k'.Inv whole := by
  obtain ⟨hw, hv, ⟨hno, hlt⟩, ⟨hin, hzero⟩, hall, hl⟩ := h.reads hp trivial
  have hbuf : k.buffered = [k.incoming] := if_neg hin
  rw [hbuf] at hall
  simp only [run] at hr
  rw [if_neg hin] at hr
  cases hr
  have hmoved : whole = (k.calls.map ReadCall.bytes).flatten ++ (into ++ [k.incoming]) ++ [] ++
      k.input := by
    rw [hall]
    simp [ReadPoint.bytes]
  by_cases he : IsEoln k.incoming
  · rw [if_pos he]
    exact Reads.inv (p := .eoln numBytes into k.incoming)
      ⟨hw, hv, ⟨hno, hlt, he⟩, Or.inl ⟨rfl, hzero⟩, hmoved, hl⟩ trivial
  · rw [if_neg he]
    refine Reads.inv (p := .loop numBytes (into ++ [k.incoming]))
      ⟨hw, hv, ⟨fun ch hch => ?_, ?_⟩, Or.inl ⟨rfl, hzero⟩, hmoved, hl⟩ trivial
    · rcases List.mem_append.mp hch with hch | hch
      · exact hno ch hch
      · rw [List.mem_singleton.mp hch]
        exact he
    · rw [List.length_append, List.length_singleton]
      exact hlt

theorem Inv.run (h : k.Inv whole) {t : ℕ} {p : ReadPoint} (hp : k.point t = some p)
    (hr : k.run t p = some k') : k'.Inv whole := by
  cases p with
  | lineBlock numBytes => exact h.runLineBlock hr
  | loop numBytes into =>
    have hreads := h.reads hp trivial
    obtain ⟨hno, hle⟩ := hreads.fits
    simp only [Keyboard.run] at hr
    split at hr
    · cases hr
      exact Reads.inv (p := .readAvail numBytes into)
        ⟨hreads.holder, hreads.value, ⟨hno, ‹_›⟩, hreads.counted, hreads.all, hreads.lines⟩ trivial
    · cases hr
      refine hreads.finish rfl ⟨hno, ?_⟩ (List.append_nil into) hreads.counted
      show into.length = numBytes
      omega
  | readAvail numBytes into => exact h.runReadAvail hp hr
  | getChar numBytes into => exact h.runGetChar hp hr
  | eoln numBytes into ch =>
    have hreads := h.reads hp trivial
    cases hr
    exact hreads.finish rfl hreads.fits rfl hreads.counted

theorem Inv.checkCharAvail (h : k.Inv whole) (hwhole : eof ∉ whole) :
    k.checkCharAvail.Inv whole := by
  unfold Keyboard.checkCharAvail
  split
  · exact h
  · rename_i hin
    have hin : k.incoming = eof := not_not.mp hin
    cases hi : k.input with
    | nil => exact h
    | cons c rest =>
      obtain ⟨⟨w, taken, hw, hh, hall⟩, hl⟩ := h
      rw [buffered, if_pos hin, List.append_nil, hi] at hall
      have hc : c ≠ eof := by
        rintro rfl
        exact hwhole (hall ▸ List.mem_append_right _ List.mem_cons_self)
      have hfull : ∀ s : Semaphore, s.value = 0 →
          c = eof ∧ s.V.value = 0 ∨ c ≠ eof ∧ s.V.value = 1 :=
        fun s hz => Or.inr ⟨hc, Semaphore.V_zero hz⟩
      refine ⟨⟨w, taken, hw, ?_, ?_⟩, hl⟩
      · cases hh with
        | free hv hcnt =>
          rcases hcnt with ⟨_, hz⟩ | ⟨hne, _⟩
          · exact .free hv (hfull _ hz)
          · exact absurd hin hne
        | @held t p hv hp hh hf hcnt =>
          refine .held hv hp hh hf ?_
          have hcounted : k.Counted → k.incoming = eof ∧ k.synchReadAvail.value = 0 :=
            fun h => h.resolve_right fun hne => hne.1 hin
          cases p with
          | getChar => exact absurd hin hcnt.1
          | lineBlock | loop | readAvail | eoln => exact hfull _ (hcounted hcnt).2
      · show whole = _ ++ taken ++ (if c = eof then [] else [c]) ++ rest
        rw [if_neg hc, hall]
        simp

end Keyboard

/-! ## The console -/

structure SynchConsole where
  display : Display
  keyboard : Keyboard

inductive ConsoleOp where
  | write (t : ℕ) (buf : List Byte)
  | read (t numBytes : ℕ)
  /-- A thread in one of the calls goes on. -/
  | run (t : ℕ)
  /-- The interrupt `ConsoleWriteDone`. -/
  | writeDone
  /-- The interrupt `ConsoleReadPoll`. -/
  | readPoll
  deriving DecidableEq, Repr

namespace SynchConsole

def start (input : List Byte) : SynchConsole where
  display := Display.start
  keyboard := Keyboard.start input

def step (s : SynchConsole) : ConsoleOp → Option SynchConsole
  | .write t buf =>
    if s.display.point t = none ∧ s.keyboard.point t = none then
      some { s with display := s.display.moveTo t (some (.lineBlock buf)) }
    else none
  | .read t numBytes =>
    if s.display.point t = none ∧ s.keyboard.point t = none then
      some { s with keyboard := s.keyboard.moveTo t (some (.lineBlock numBytes)) }
    else none
  | .run t =>
    match s.display.point t, s.keyboard.point t with
    | some p, _ => (s.display.run t p).map fun d => { s with display := d }
    | none, some p => (s.keyboard.run t p).map fun k => { s with keyboard := k }
    | none, none => none
  | .writeDone =>
    if 0 < s.display.scheduled then some { s with display := s.display.writeDone } else none
  | .readPoll => some { s with keyboard := s.keyboard.checkCharAvail }

variable {s s' : SynchConsole} {input : List Byte}

theorem display_step (h : s.display.Inv) {op : ConsoleOp} (hs : s.step op = some s') :
    s'.display.Inv := by
  cases op with
  | write t buf =>
    obtain ⟨hp, ⟨⟩⟩ := Option.ite_none_right_eq_some.mp hs
    exact h.call hp.1 buf
  | read t numBytes =>
    obtain ⟨-, ⟨⟩⟩ := Option.ite_none_right_eq_some.mp hs
    exact h
  | run t =>
    simp only [step] at hs
    split at hs
    · rename_i hp
      obtain ⟨d, hd, rfl⟩ := Option.map_eq_some_iff.mp hs
      exact h.run hp hd
    · obtain ⟨k, -, rfl⟩ := Option.map_eq_some_iff.mp hs
      exact h
    · cases hs
  | writeDone =>
    obtain ⟨hp, ⟨⟩⟩ := Option.ite_none_right_eq_some.mp hs
    exact h.writeDone hp
  | readPoll =>
    cases hs
    exact h

theorem keyboard_step (hin : eof ∉ input) (h : s.keyboard.Inv input) {op : ConsoleOp}
    (hs : s.step op = some s') : s'.keyboard.Inv input := by
  cases op with
  | write t buf =>
    obtain ⟨-, ⟨⟩⟩ := Option.ite_none_right_eq_some.mp hs
    exact h
  | read t numBytes =>
    obtain ⟨hp, ⟨⟩⟩ := Option.ite_none_right_eq_some.mp hs
    exact h.call hp.2 numBytes
  | run t =>
    simp only [step] at hs
    split at hs
    · obtain ⟨d, -, rfl⟩ := Option.map_eq_some_iff.mp hs
      exact h
    · rename_i p _ hp
      obtain ⟨k, hk, rfl⟩ := Option.map_eq_some_iff.mp hs
      exact h.run hp hk
    · cases hs
  | writeDone =>
    obtain ⟨-, ⟨⟩⟩ := Option.ite_none_right_eq_some.mp hs
    exact h
  | readPoll =>
    cases hs
    exact h.checkCharAvail hin

theorem keyboard_inv (h : Run.Reach step (· = start input) s) (hin : eof ∉ input) :
    s.keyboard.Inv input := by
  apply h.inv fun s => s.keyboard.Inv input
  · rintro _ rfl
    exact Keyboard.inv_start input
  · exact fun _ _ _ hi hs => keyboard_step hin hi hs

/-- A call of `Read` has `RLineBlock` and has taken the bytes `taken`. -/
def TakesNow (s : SynchConsole) (taken : List Byte) : Prop :=
  ∃ t p, s.keyboard.point t = some p ∧ p.Holds ∧ p.Fits ∧ p.bytes = taken

/-- In every interleaving of calls and interrupts the `ASSERT` of `PutChar` holds, the output is the
buffers of the `Write` calls in the order in which they got `WLineBlock`, whole but for the one that
has it now, and an input without the byte `0xFF` is cut into lines: one for each finished `Read`, in
order, then what the current one has taken, the character in the device, and the rest. -/
theorem console_serves_in_order (h : Run.Reach step (· = start input) s) :
    s.display.failed = false ∧
    (∃ done buf k, s.display.acquired = done ++ buf ∧ buf.length ≤ 1 ∧
      s.display.output = done.flatten ++ buf.flatten.take k) ∧
    ((∀ t buf k, s.display.point t ≠ some (.loop buf k) ∧
        s.display.point t ≠ some (.writeAvail buf k)) →
      s.display.output = s.display.acquired.flatten) ∧
    (eof ∉ input →
      (∀ r ∈ s.keyboard.calls, r.IsLine) ∧
      ∃ taken, (taken = [] ∨ s.TakesNow taken) ∧
        input = (s.keyboard.calls.map ReadCall.bytes).flatten ++ taken ++ s.keyboard.buffered ++
          s.keyboard.input) := by
  have hd : s.display.Inv := by
    apply h.inv fun s => s.display.Inv
    · rintro _ rfl
      exact Display.inv_start
    · exact fun _ _ _ hi hs => display_step hi hs
  refine ⟨hd.sound, hd.output.1, hd.output.2, fun hin => ?_⟩
  obtain ⟨⟨w, taken, -, hheld, hall⟩, hl⟩ := keyboard_inv h hin
  refine ⟨hl, taken, ?_, hall⟩
  cases hheld with
  | free => exact Or.inl rfl
  | held _ hp hh hf _ => exact Or.inr ⟨_, _, hp, hh, hf, rfl⟩

/-- Thread 1 writes `hi` while thread 2 reads the line `a`. -/
theorem console_serves_in_order_both :
    ∃ s, Run.exec step (start [0x61, 0x0A, 0x62])
        [.write 1 [0x68, 0x69], .read 2 8, .run 1, .run 2, .run 1, .run 2, .readPoll, .writeDone,
          .run 2, .run 2, .run 1, .run 1, .run 2, .readPoll, .run 2, .run 2, .readPoll, .run 2,
          .writeDone] = some s ∧
      s.display.output = [0x68, 0x69] ∧
      s.keyboard.calls = [{ thread := 2, numBytes := 8, into := [0x61], last := some 0x0A }] ∧
      s.display.failed = false ∧ ∀ r ∈ s.keyboard.calls, r.IsLine := by
  refine ⟨_, rfl, by decide, by decide, ?_⟩
  have h := @console_serves_in_order _ [0x61, 0x0A, 0x62] ⟨_,
    [.write 1 [0x68, 0x69], .read 2 8, .run 1, .run 2, .run 1, .run 2, .readPoll, .writeDone,
      .run 2, .run 2, .run 1, .run 1, .run 2, .readPoll, .run 2, .run 2, .readPoll, .run 2,
      .writeDone], rfl, rfl⟩
  exact ⟨h.1, (h.2.2.2 (by decide)).1⟩

end SynchConsole

end Nachos
