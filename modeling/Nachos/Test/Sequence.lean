import Nachos.Lib.Follow
import Nachos.Test.FileStack
import Nachos.Test.Texts
import Nachos.Test.TurnTaking

/-!
# The water-tap programs one after the other

Only one program has the turn, so their steps come in one order: `next` is the step of the program
that has it, with the open files as a stack. It is undefined where the stack is.
-/

namespace Nachos.Test

open Run

/-- The value in register 2 after a call that is not on a file. `Exec` gives the slots of the process
table in order, `PrintString` leaves its own number there. -/
def UserCall.plainReply : UserCall → Reply
  | .exec q => { value := q.thread, ch := none }
  | .printString _ => { value := 16, ch := none }
  | _ => { value := 0, ch := none }

/-- The programs, and whose turn it is; with `unit` it is still to take the unit of its semaphore. -/
structure Core where
  main : Main
  sinhvien : Option Sinhvien
  voinuoc : Option Voinuoc
  turn : Program
  unit : Bool
  files : FileStack
  halted : Bool

namespace Core

def locals (c : Core) : Program → Option Local
  | .main => some (.main c.main)
  | .sinhvien => c.sinhvien.map .sinhvien
  | .voinuoc => c.voinuoc.map .voinuoc

def put (c : Core) : Local → Core
  | .main m => { c with main := m }
  | .sinhvien v => { c with sinhvien := some v }
  | .voinuoc v => { c with voinuoc := some v }

/-- The next step of a program with the state `l`. -/
def nextOf (c : Core) (l : Local) : Option Core :=
  match l.call with
  | .down x =>
    if c.unit = true ∧ x = c.turn then
      some { c.put (l.resume (UserCall.plainReply (.down x))) with unit := false }
    else none
  | .up x => some { c.put (l.resume (UserCall.plainReply (.up x))) with turn := x, unit := true }
  | .exec q => some ((c.put (l.resume (UserCall.plainReply (.exec q)))).put (.start q))
  | .createSemaphore s semval =>
    some (c.put (l.resume (UserCall.plainReply (.createSemaphore s semval))))
  | .printString text => some (c.put (l.resume (UserCall.plainReply (.printString text))))
  | .halt => some { c with halted := true }
  | .exit => none
  | call => (c.files.serve call).map fun (r, files) => { c.put (l.resume r) with files := files }

def next (c : Core) : Option Core :=
  if c.halted then none else (c.locals c.turn).bind c.nextOf

theorem nextOf_file {c : Core} {l : Local} {r : Reply} {files : FileStack}
    (h : c.files.serve l.call = some (r, files)) :
    c.nextOf l = some { c.put (l.resume r) with files := files } := by
  unfold nextOf
  cases hc : l.call
  case create => rw [hc] at h; dsimp only; rw [h]; rfl
  case openFile => rw [hc] at h; dsimp only; rw [h]; rfl
  case close => rw [hc] at h; dsimp only; rw [h]; rfl
  case read => rw [hc] at h; dsimp only; rw [h]; rfl
  case write => rw [hc] at h; dsimp only; rw [h]; rfl
  case seek => rw [hc] at h; dsimp only; rw [h]; rfl
  all_goals
    have h := (FileStack.serve_eq_some h).2
    rw [hc] at h
    cases h

section Steps

variable {m k : Main} {v u : Sinhvien} {w x : Voinuoc} {ov : Option Sinhvien} {ow : Option Voinuoc}
  {y z : FileStack} {r : Reply}

theorem next_main (h : y.serve m.call = some (r, z)) (hr : m.resume r = k) :
    next ⟨m, ov, ow, .main, false, y, false⟩ = some ⟨k, ov, ow, .main, false, z, false⟩ :=
  hr ▸ nextOf_file (c := ⟨m, ov, ow, .main, false, y, false⟩) (l := .main m) h

theorem next_sinhvien (h : y.serve v.call = some (r, z)) (hr : v.resume r = u) :
    next ⟨m, some v, ow, .sinhvien, false, y, false⟩ =
      some ⟨m, some u, ow, .sinhvien, false, z, false⟩ :=
  hr ▸ nextOf_file (c := ⟨m, some v, ow, .sinhvien, false, y, false⟩) (l := .sinhvien v) h

theorem next_voinuoc (h : y.serve w.call = some (r, z)) (hr : w.resume r = x) :
    next ⟨m, ov, some w, .voinuoc, false, y, false⟩ =
      some ⟨m, ov, some x, .voinuoc, false, z, false⟩ :=
  hr ▸ nextOf_file (c := ⟨m, ov, some w, .voinuoc, false, y, false⟩) (l := .voinuoc w) h

end Steps

/-! ## Files above a stack -/

section Above

variable {base t : List (DataFile × ℕ)} {n j pos : ℕ} {d : Data} {f : DataFile} {bytes : List Byte}

theorem getElem?_above (hn : base.length = n) : (base ++ t)[n + j]? = t[j]? := by
  rw [List.getElem?_append_right (by omega), hn, Nat.add_sub_cancel_left]

theorem set_above (hn : base.length = n) (e : DataFile × ℕ) :
    (base ++ t).set (n + j) e = base ++ t.set j e := by
  rw [List.set_append_right _ _ (by omega), hn, Nat.add_sub_cancel_left]

theorem read_above {ch : Byte} (hn : base.length = n) (he : t[j]? = some (f, pos))
    (hd : d.get f = some bytes) (hb : bytes[pos]? = some ch) :
    FileStack.serve ⟨base ++ t, d, false⟩ (.read ((n + j : ℕ) + 2)) =
      some ({ value := 1, ch := some ch }, ⟨base ++ t.set j (f, pos + 1), d, false⟩) := by
  rw [FileStack.serve_read ((getElem?_above hn).trans he) hd hb, set_above hn]

theorem read_end_above (hn : base.length = n) (he : t[j]? = some (f, pos))
    (hd : d.get f = some bytes) (hb : bytes[pos]? = none) :
    FileStack.serve ⟨base ++ t, d, false⟩ (.read ((n + j : ℕ) + 2)) =
      some ({ value := -2, ch := none }, ⟨base ++ t, d, false⟩) :=
  FileStack.serve_read_end ((getElem?_above hn).trans he) hd hb

theorem write_above {new : List Byte} (hn : base.length = n) (he : t[j]? = some (f, bytes.length))
    (hd : d.get f = some bytes) (h0 : new ≠ []) (hz : 0 ∉ new) :
    FileStack.serve ⟨base ++ t, d, false⟩ (.write new ((n + j : ℕ) + 2)) =
      some ({ value := new.length, ch := none },
        ⟨base ++ t.set j (f, (bytes ++ new).length), d.set (bytes ++ new) f, false⟩) := by
  rw [FileStack.serve_write ((getElem?_above hn).trans he) hd h0 hz, set_above hn,
    List.length_append]

theorem seek_end_above (hn : base.length = n) (he : t[j]? = some (f, pos))
    (hd : d.get f = some bytes) : FileStack.serve ⟨base ++ t, d, false⟩ (.seek (-1) ((n + j : ℕ) + 2)) =
      some ({ value := (BitVec.ofNat 32 bytes.length).toInt, ch := none },
        ⟨base ++ t.set j (f, bytes.length), d, false⟩) := by
  rw [FileStack.serve_seek_end ((getElem?_above hn).trans he) hd, set_above hn]

theorem seek_start_above (hn : base.length = n) (he : t[j]? = some (f, pos))
    (hd : d.get f = some bytes) : FileStack.serve ⟨base ++ t, d, false⟩ (.seek 0 ((n + j : ℕ) + 2)) =
      some ({ value := 0, ch := none }, ⟨base ++ t.set j (f, 0), d, false⟩) := by
  rw [FileStack.serve_seek_start ((getElem?_above hn).trans he) hd, set_above hn]

theorem open_above (hn : base.length = n) (ht : t.length = j) (h8 : n + j < 8)
    (hd : d.get f = some bytes) (type : ℤ) :
    FileStack.serve ⟨base ++ t, d, false⟩ (.openFile f type) =
      some ({ value := (n + j : ℕ) + 2, ch := none }, ⟨base ++ (t ++ [(f, 0)]), d, false⟩) := by
  rw [FileStack.serve_open (by rw [List.length_append, hn, ht]) h8 hd, List.append_assoc]

theorem close_above (hn : base.length = n) (ht : t.length = j) (h0 : 0 < n) (e : DataFile × ℕ) :
    FileStack.serve ⟨base ++ (t ++ [e]), d, false⟩ (.close ((n + j : ℕ) + 2)) =
      some ({ value := 0, ch := none }, ⟨base ++ t, d, false⟩) := by
  rw [← List.append_assoc]
  exact FileStack.serve_close (by rw [List.length_append, hn, ht]) (by omega) e

end Above

/-! ## `sinhvien` in a line -/

theorem getElem?_of_drop {bytes rest : List Byte} {pos : ℕ} {ch : Byte}
    (h : bytes.drop pos = ch :: rest) : bytes[pos]? = some ch ∧ bytes.drop (pos + 1) = rest := by
  constructor
  · rw [← List.head?_drop, h]
    rfl
  · rw [← List.drop_drop, h]
    rfl

theorem length_of_drop {bytes rest : List Byte} {pos : ℕ} {ch : Byte}
    (h : bytes.drop pos = ch :: rest) : bytes.length = pos + 1 + rest.length := by
  have hlen := congrArg List.length h
  rw [List.length_drop, List.length_cons] at hlen
  omega

/-- `sinhvien` with its two files open, before a character of the line. -/
def reading (v : Sinhvien) (n size p : ℕ) : Sinhvien :=
  { v with point := .readCh, fSinhvien := n + 2, fVoinuoc := (n + 1 : ℕ) + 2, size := size,
           fPointer := p, VN_FLAG := 0 }

/-- An id is not the error. -/
theorem id_ne (i : ℕ) : (i : ℤ) + 2 ≠ -1 := by omega

section Line

variable {base : List (DataFile × ℕ)} {n : ℕ} {m : Main} {w : Voinuoc} {i : Option (List Byte)}
  {s : List Byte}

/-- The state while `sinhvien` reads the line `s`: where it is, and what it has passed on. -/
def inLine (base : List (DataFile × ℕ)) (n : ℕ) (m : Main) (w : Voinuoc) (i : Option (List Byte))
    (s : List Byte) (v : Sinhvien) (p : ℕ) (out b : List Byte) : Core :=
  ⟨m, some (reading v n s.length p), some w, .sinhvien, false,
    ⟨base ++ [(.sinhvien, p), (.voinuoc, b.length)], ⟨i, some out, some s, some b⟩, false⟩, false⟩

/-- The state after a character was copied to both files, with the rest of the loop's body to come. -/
def copied (base : List (DataFile × ℕ)) (n : ℕ) (m : Main) (w : Voinuoc) (i : Option (List Byte))
    (s : List Byte) (v : Sinhvien) (p : ℕ) (out b : List Byte) : Core :=
  ⟨m, some (reading v n s.length p).afterCh, some w, .sinhvien, false,
    ⟨base ++ [(.sinhvien, p + 1), (.voinuoc, b.length)], ⟨i, some out, some s, some b⟩, false⟩,
    false⟩

theorem goes_copied (hn : base.length = n) (h0 : 0 < n) (h8 : n + 2 < 8) {p : ℕ} {ch : Byte}
    {rest : List Byte} (hch : s.drop p = ch :: rest) (hsp : ch ≠ 0x20#8) (hz : ch ≠ 0)
    (v : Sinhvien) (out b : List Byte) : ∃ v', Goes next (inLine base n m w i s v p out b)
      (copied base n m w i s v' p (out ++ [ch]) (b ++ [ch])) := by
  obtain ⟨hget, -⟩ := getElem?_of_drop hch
  have hmem : (0 : Byte) ∉ [ch] := fun h => hz (List.mem_singleton.mp h).symm
  refine ⟨{ v with ch := ch, fOutput := (n + 2 : ℕ) + 2 }, ?_⟩
  apply Goes.head (next_sinhvien (u := { reading v n s.length p with ch := ch, point := .writeVoinuoc })
    (read_above (j := 0) hn rfl rfl hget) (by exact if_neg hsp))
  apply Goes.head (next_sinhvien (write_above (j := 1) hn rfl rfl (List.cons_ne_nil _ _) hmem) rfl)
  apply Goes.head (next_sinhvien
    (u := { reading v n s.length p with ch := ch, fOutput := (n + 2 : ℕ) + 2, point := .seekOutput })
    (open_above (j := 2) hn rfl h8 rfl 0) (by simp only [Sinhvien.resume, if_neg (id_ne _)]))
  apply Goes.head (next_sinhvien (seek_end_above (j := 2) hn rfl rfl) rfl)
  apply Goes.head (next_sinhvien (write_above (j := 2) hn rfl rfl (List.cons_ne_nil _ _) hmem) rfl)
  exact Goes.single (next_sinhvien (close_above (j := 2) (t := [_, _]) hn rfl h0 _) rfl)

theorem afterCh_reading (v : Sinhvien) {n size p : ℕ} (h : p + 1 < size) :
    (reading v n size p).afterCh = reading v n size (p + 1) := by
  have hlast : ¬ (p : ℤ) = size - 1 := by omega
  have hloop : (p : ℤ) + 1 < size := by omega
  show (if (p : ℤ) = size - 1 then _ else Sinhvien.afterStar (reading v n size p)) = _
  rw [if_neg hlast]
  show (if (p : ℤ) + 1 < size then _ else _) = _
  rw [if_pos hloop]
  rfl

/-- All digits but the last one of the line. -/
theorem goes_digits (hn : base.length = n) (h0 : 0 < n) (h8 : n + 2 < 8) {rest : List Byte}
    (hr : rest ≠ []) (ds : List Byte) (hds : ∀ ch ∈ ds, IsDigit ch) :
    ∀ (v : Sinhvien) (p : ℕ) (out b : List Byte), s.drop p = ds ++ rest →
      ∃ v', s.drop (p + ds.length) = rest ∧ Goes next (inLine base n m w i s v p out b)
        (inLine base n m w i s v' (p + ds.length) (out ++ ds) (b ++ ds)) := by
  induction ds with
  | nil =>
    intro v p out b hdrop
    rw [List.append_nil, List.append_nil]
    exact ⟨v, hdrop, Goes.refl _⟩
  | cons ch ds ih =>
    intro v p out b hdrop
    have hch := hds ch List.mem_cons_self
    have hlen : s.length = p + 1 + (ds ++ rest).length := length_of_drop hdrop
    have hpos := List.length_pos_iff.mpr hr
    obtain ⟨v₁, h₁⟩ := goes_copied (m := m) (w := w) (i := i) hn h0 h8 hdrop (hch.ne (by decide))
      (hch.ne (by decide)) v out b
    have hstep : copied base n m w i s v₁ p (out ++ [ch]) (b ++ [ch]) =
        inLine base n m w i s v₁ (p + 1) (out ++ [ch]) (b ++ [ch]) := by
      unfold copied inLine
      rw [afterCh_reading v₁ (by rw [List.length_append] at hlen; omega)]
    rw [hstep] at h₁
    obtain ⟨v₂, hdrop₂, h₂⟩ := ih (fun c hc => hds c (List.mem_cons_of_mem ch hc)) v₁ (p + 1)
      (out ++ [ch]) (b ++ [ch]) (getElem?_of_drop hdrop).2
    rw [Nat.add_assoc, Nat.add_comm 1] at hdrop₂ h₂
    rw [List.append_assoc, List.append_assoc] at h₂
    exact ⟨v₂, hdrop₂, h₁.trans h₂⟩

end Line

/-! ## A turn of `voinuoc` -/

section Turn

variable {base : List (DataFile × ℕ)} {n : ℕ} {m : Main} {v : Option Sinhvien}
  {i s : Option (List Byte)} {b : List Byte}

/-- `voinuoc` while it reads a number, of which it has `l`. -/
def tapReading (base : List (DataFile × ℕ)) (n : ℕ) (m : Main) (v : Option Sinhvien)
    (i s : Option (List Byte)) (b out : List Byte) (w : Voinuoc) (l pos : ℕ) : Core :=
  ⟨m, v, some { w with point := .readCh, fVoinuoc := (n : ℕ) + 2, l := BitVec.ofNat 32 l, done := 0 },
    .voinuoc, false, ⟨base ++ [(.voinuoc, pos)], ⟨i, some out, s, some b⟩, false⟩, false⟩

theorem goes_tapDigits (hn : base.length = n) (out : List Byte) (ds rest : List Byte)
    (hds : ∀ ch ∈ ds, IsDigit ch) : ∀ (w : Voinuoc) (l pos : ℕ), b.drop pos = ds ++ rest →
      ∃ c, b.drop (pos + ds.length) = rest ∧ Goes next (tapReading base n m v i s b out w l pos)
        (tapReading base n m v i s b out { w with ch := c } (digitsValue l ds)
          (pos + ds.length)) := by
  induction ds with
  | nil =>
    intro w l pos hdrop
    exact ⟨w.ch, hdrop, Goes.refl _⟩
  | cons ch ds ih =>
    intro w l pos hdrop
    have hch := hds ch List.mem_cons_self
    obtain ⟨hget, hdrop⟩ := getElem?_of_drop hdrop
    obtain ⟨c, hdrop₂, h₂⟩ := ih (fun c hc => hds c (List.mem_cons_of_mem ch hc)) { w with ch := ch }
      (l * 10 + (ch.toNat - 48)) (pos + 1) hdrop
    rw [Nat.add_assoc, Nat.add_comm 1] at hdrop₂ h₂
    refine ⟨c, hdrop₂, Goes.head ?_ h₂⟩
    apply next_voinuoc (read_above (j := 0) (t := [(.voinuoc, pos)]) hn rfl rfl hget)
    -- neither the end of the file nor the star
    have hstar : ch ≠ 0x2A#8 := hch.ne (by decide)
    simp [Voinuoc.resume, hstar, addDigit_ofNat hch]

/-- `voinuoc` between two turns. -/
def ready (w : Voinuoc) (v1 v2 : ℕ) : Voinuoc :=
  { w with point := .down, v1 := BitVec.ofNat 32 v1, v2 := BitVec.ofNat 32 v2 }

/-- What follows the tap, after the last number of a line or another one. -/
def afterNumber (last : Bool) : List Byte :=
  if last then [0x0D#8, 0x0A#8] else [0x20#8, 0x20#8, 0x20#8]

/-- What the taps were given when the next number comes. -/
def givenNext (v1 v2 l : ℕ) (last : Bool) : ℕ × ℕ := if last then (0, 0) else given v1 v2 l

/-- `voinuoc` when it knows the number. -/
def hasNumber (w : Voinuoc) (n v1 v2 l : ℕ) (last : Bool) (point : VoinuocPoint) : Voinuoc :=
  { w with point := point, fVoinuoc := n + 2, v1 := BitVec.ofNat 32 v1, v2 := BitVec.ofNat 32 v2
           l := BitVec.ofNat 32 l, done := if last then 1 else 0 }

theorem pour_hasNumber (w : Voinuoc) {n v1 v2 l : ℕ} {last : Bool} (hl : 0 < l) (hl' : l < 2 ^ 31)
    (h1 : v1 < 2 ^ 31) (h2 : v2 < 2 ^ 31) (point : VoinuocPoint) :
    (hasNumber w n v1 v2 l last point).pour = hasNumber w n (given v1 v2 l).1 (given v1 v2 l).2 l last
      (.writeTap (tapOf v1 v2)) := by
  have hne : BitVec.ofNat 32 l ≠ 0 := by
    intro h
    have := congrArg BitVec.toInt h
    rw [toInt_ofNat hl'] at this
    have h0 : (0 : Word).toInt = 0 := rfl
    omega
  show (if BitVec.ofNat 32 l = 0 then _ else if (BitVec.ofNat 32 v1).toInt ≤ (BitVec.ofNat 32 v2).toInt
    then _ else _) = _
  rw [if_neg hne, toInt_ofNat h1, toInt_ofNat h2]
  unfold given tapOf
  by_cases h : v1 ≤ v2
  · rw [if_pos (by omega), if_pos h, if_pos h]
    simp only [hasNumber, BitVec.ofNat_add]
  · rw [if_neg (by omega), if_neg h, if_neg h]
    simp only [hasNumber, BitVec.ofNat_add]

theorem tapOf_ne_zero (v1 v2 : ℕ) : (0 : Byte) ∉ [0x5F#8, tapOf v1 v2] := by
  unfold tapOf
  split_ifs <;> decide

/-- From the end of the number on: its tap is chosen. -/
theorem goes_chosen (hn : base.length = n) (h0 : 0 < n) (h8 : n < 8) {v1 v2 l p : ℕ} (last : Bool)
    (hl : 0 < l) (hl' : l < 2 ^ 31) (h1 : v1 < 2 ^ 31) (h2 : v2 < 2 ^ 31) (w : Voinuoc)
    (out : List Byte) : ∃ w', Goes next
      ⟨m, v, some (hasNumber w n v1 v2 l last .closeVoinuoc), .voinuoc, false,
        ⟨base ++ [(DataFile.voinuoc, p)], ⟨i, some out, s, some b⟩, false⟩, false⟩
      ⟨m, v, some (ready w' (givenNext v1 v2 l last).1 (givenNext v1 v2 l last).2), .sinhvien, true,
        ⟨base, ⟨i, some (out ++ [0x5F#8, tapOf v1 v2] ++ afterNumber last), s, some b⟩, false⟩,
        false⟩ := by
  refine ⟨{ hasNumber w n v1 v2 l last .down with fOutput := n + 2 }, ?_⟩
  apply Goes.head (next_voinuoc (close_above (j := 0) (t := []) hn rfl h0 _) rfl)
  apply Goes.head (next_voinuoc
    (x := hasNumber { w with fOutput := n + 2 } n v1 v2 l last .seekOutput)
    (open_above (j := 0) hn rfl h8 rfl 0) (by simp only [Voinuoc.resume, if_neg (id_ne _)]; rfl))
  apply Goes.head (next_voinuoc (x := hasNumber { w with fOutput := n + 2 } n (given v1 v2 l).1
    (given v1 v2 l).2 l last (.writeTap (tapOf v1 v2)))
    (seek_end_above (j := 0) hn rfl rfl) (by exact pour_hasNumber _ hl hl' h1 h2 _))
  apply Goes.head (next_voinuoc
    (write_above (j := 0) hn rfl rfl (List.cons_ne_nil _ _) (tapOf_ne_zero v1 v2)) rfl)
  cases last
  all_goals
    apply Goes.head (next_voinuoc
      (write_above (j := 0) hn rfl rfl (List.cons_ne_nil _ _) (by decide)) rfl)
    apply Goes.head (next_voinuoc (close_above (j := 0) (t := []) hn rfl h0 _) rfl)
    rw [List.append_nil]
    exact Goes.single rfl

/-- The file of a number; a star after it says that it is the last one. -/
def numberFile (l : Numeral) (last : Bool) : List Byte := l.digits ++ if last then [0x2A#8] else []

theorem goes_turn (hn : base.length = n) (h0 : 0 < n) (h8 : n < 8) {v1 v2 : ℕ} {l : Numeral}
    (last : Bool) (hl : 0 < l.value) (hl' : l.value < 2 ^ 31) (h1 : v1 < 2 ^ 31) (h2 : v2 < 2 ^ 31)
    (w : Voinuoc) (out : List Byte) : ∃ w', Goes next
      ⟨m, v, some (ready w v1 v2), .voinuoc, true,
        ⟨base, ⟨i, some out, s, some (numberFile l last)⟩, false⟩, false⟩
      ⟨m, v, some (ready w' (givenNext v1 v2 l.value last).1 (givenNext v1 v2 l.value last).2),
        .sinhvien, true, ⟨base, ⟨i, some (out ++ [0x5F#8, tapOf v1 v2] ++ afterNumber last), s,
          some (numberFile l last)⟩, false⟩, false⟩ := by
  obtain ⟨c, hend, hdigits⟩ := goes_tapDigits (m := m) (v := v) (i := i) (s := s)
    (b := numberFile l last) hn out l.digits (if last then [0x2A#8] else []) l.isDigit
    { w with ch := 0, v1 := BitVec.ofNat 32 v1, v2 := BitVec.ofNat 32 v2 } 0 0 rfl
  rw [Nat.zero_add] at hend hdigits
  -- the character after the digits
  have hread : ∃ ch p, next (tapReading base n m v i s (numberFile l last) out
      { w with ch := c, v1 := BitVec.ofNat 32 v1, v2 := BitVec.ofNat 32 v2 } l.value l.digits.length) =
        some ⟨m, v, some (hasNumber { w with ch := ch } n v1 v2 l.value last .closeVoinuoc), .voinuoc,
          false, ⟨base ++ [(DataFile.voinuoc, p)], ⟨i, some out, s, some (numberFile l last)⟩, false⟩,
          false⟩ := by
    cases last with
    | false =>
      have hnone : (numberFile l false)[l.digits.length]? = none := by
        rw [← List.head?_drop, hend]
        rfl
      exact ⟨_, _, next_voinuoc (read_end_above (j := 0) (t := [(.voinuoc, _)]) hn rfl rfl hnone) rfl⟩
    | true =>
      obtain ⟨hget, -⟩ := getElem?_of_drop hend
      exact ⟨_, _, next_voinuoc (read_above (j := 0) (t := [(.voinuoc, _)]) hn rfl rfl hget) rfl⟩
  obtain ⟨ch, p, hread⟩ := hread
  obtain ⟨w', hchosen⟩ := goes_chosen (m := m) (v := v) (i := i) (s := s)
    (b := numberFile l last) (p := p) hn h0 h8 last hl hl' h1 h2 { w with ch := ch } out
  refine ⟨w', ?_⟩
  apply Goes.head (b := ⟨m, v, some { ready w v1 v2 with ch := 0, point := .openVoinuoc }, .voinuoc,
    false, ⟨base, ⟨i, some out, s, some (numberFile l last)⟩, false⟩, false⟩) (by rfl)
  apply Goes.head (next_voinuoc
    (x := { w with ch := 0, v1 := BitVec.ofNat 32 v1, v2 := BitVec.ofNat 32 v2, point := .readCh,
                    fVoinuoc := n + 2, l := BitVec.ofNat 32 0, done := 0 })
    (FileStack.serve_open hn h8 rfl 1) (by simp only [Voinuoc.resume, if_neg (id_ne _)]; rfl))
  exact hdigits.trans (Goes.head hread hchosen)

end Turn

/-! ## A line -/

section Line

variable {base : List (DataFile × ℕ)} {n : ℕ} {m : Main} {i : Option (List Byte)} {s : List Byte}

/-- `sinhvien` passes the number on and waits for the tap. -/
theorem goes_passed (hn : base.length = n) (h8 : n + 2 < 8) {v1 v2 p : ℕ} {l : Numeral}
    (last : Bool) (hl : 0 < l.value) (hl' : l.value < 2 ^ 31) (h1 : v1 < 2 ^ 31) (h2 : v2 < 2 ^ 31)
    (v : Sinhvien) (w : Voinuoc) (out : List Byte) : ∃ w', Goes next
      ⟨m, some { reading v n s.length p with VN_FLAG := 1, point := .closeVoinuoc },
        some (ready w v1 v2), .sinhvien, false,
        ⟨base ++ [(DataFile.sinhvien, p + 1), (.voinuoc, (numberFile l last).length)],
          ⟨i, some out, some s, some (numberFile l last)⟩, false⟩, false⟩
      ⟨m, some (Sinhvien.loop { reading v n s.length p with
          VN_FLAG := 1, point := .openAgain, fPointer := (p + 1 : ℕ) }),
        some (ready w' (givenNext v1 v2 l.value last).1 (givenNext v1 v2 l.value last).2),
        .sinhvien, false, ⟨base ++ [(DataFile.sinhvien, p + 1), (.voinuoc, 0)],
          ⟨i, some (out ++ [0x5F#8, tapOf v1 v2] ++ afterNumber last), some s, some []⟩, false⟩,
        false⟩ := by
  have hn' : (base ++ [(DataFile.sinhvien, p + 1)]).length = n + 1 := by
    rw [List.length_append, hn, List.length_singleton]
  obtain ⟨w', hturn⟩ := goes_turn (m := m) (v := some { reading v n s.length p with
      VN_FLAG := 1, point := .downAgain }) (i := i) (s := some s) hn' (by omega) (by omega) last
    hl hl' h1 h2 w out
  refine ⟨w', ?_⟩
  apply Goes.head (next_sinhvien (z := ⟨base ++ [(DataFile.sinhvien, p + 1)], ⟨i, some out, some s,
    some (numberFile l last)⟩, false⟩) (by
      rw [List.append_cons]
      exact FileStack.serve_close hn' (Nat.succ_pos n) _) rfl)
  apply Goes.head (b := ⟨m, some { reading v n s.length p with VN_FLAG := 1, point := .downAgain },
    some (ready w v1 v2), .voinuoc, true, ⟨base ++ [(DataFile.sinhvien, p + 1)], ⟨i, some out, some s,
    some (numberFile l last)⟩, false⟩, false⟩) (by rfl)
  apply hturn.trans
  apply Goes.head (b := ⟨m, some { reading v n s.length p with VN_FLAG := 1, point := .createAgain },
    _, .sinhvien, false, _, false⟩) (by rfl)
  apply Goes.head (next_sinhvien (u := { reading v n s.length p with VN_FLAG := 1, point := .openAgain })
    (by rfl) (by rfl))
  apply Goes.single (next_sinhvien (open_above (j := 1) (t := [_]) hn rfl (by omega) rfl 0) _)
  simp only [Sinhvien.resume, if_neg (id_ne _)]
  rfl

theorem given_sum (v1 v2 l : ℕ) : (given v1 v2 l).1 + (given v1 v2 l).2 = v1 + v2 + l := by
  unfold given
  split_ifs
  · show v1 + l + v2 = _
    omega
  · show v1 + (v2 + l) = _
    omega

/-- A number and the space after it. -/
theorem goes_number (hn : base.length = n) (h0 : 0 < n) (h8 : n + 2 < 8) {v1 v2 p : ℕ} {l : Numeral}
    {rest : List Byte} (hl : 0 < l.value) (hsum : v1 + v2 + l.value < 2 ^ 31) (hr : rest ≠ [])
    (hdrop : s.drop p = l.digits ++ 0x20#8 :: rest) (v : Sinhvien) (w : Voinuoc) (out : List Byte) :
    ∃ v' w' p', s.drop p' = rest ∧ Goes next (inLine base n m (ready w v1 v2) i s v p out [])
      (inLine base n m (ready w' (given v1 v2 l.value).1 (given v1 v2 l.value).2) i s v' p'
        (out ++ l.digits ++ [0x5F#8, tapOf v1 v2] ++ [0x20#8, 0x20#8, 0x20#8]) []) := by
  obtain ⟨v₁, hdrop₁, h₁⟩ := goes_digits (m := m) (w := ready w v1 v2) (i := i) hn h0 h8
    (List.cons_ne_nil _ _) l.digits l.isDigit v p out [] hdrop
  generalize p + l.digits.length = p₁ at hdrop₁ h₁
  have hlen := length_of_drop hdrop₁
  have hpos := List.length_pos_iff.mpr hr
  obtain ⟨hget, hdrop₂⟩ := getElem?_of_drop hdrop₁
  obtain ⟨w', h₂⟩ := goes_passed (m := m) (i := i) (s := s) (p := p₁) hn h8 false hl (by omega)
    (by omega : v1 < 2 ^ 31) (by omega : v2 < 2 ^ 31) { v₁ with ch := 0x20#8 } w (out ++ l.digits)
  refine ⟨{ v₁ with ch := 0x20#8 }, w', p₁ + 1, hdrop₂, h₁.trans ?_⟩
  have hnum : numberFile l false = [] ++ l.digits := by
    unfold numberFile
    rw [List.nil_append]
    exact List.append_nil _
  rw [hnum] at h₂
  have hloop : Sinhvien.loop { reading { v₁ with ch := 0x20#8 } n s.length p₁ with
      VN_FLAG := 1, point := .openAgain, fPointer := (p₁ + 1 : ℕ) } =
        reading { v₁ with ch := 0x20#8 } n s.length (p₁ + 1) := if_pos (by
    show ((p₁ + 1 : ℕ) : ℤ) < (s.length : ℤ)
    omega)
  rw [hloop] at h₂
  refine Goes.head ?_ h₂
  apply next_sinhvien (read_above (j := 0) (t := [(.sinhvien, p₁), _]) hn rfl rfl hget)
  -- not the last character of the line
  have hlast : ¬ (p₁ : ℤ) = s.length - 1 := by omega
  exact if_neg hlast

/-- The last number of a line: `main` gets the turn. -/
theorem goes_lastNumber (hn : base.length = n) (h0 : 0 < n) (h8 : n + 2 < 8) {v1 v2 p : ℕ}
    {l : Numeral} (hl : 0 < l.value) (hsum : v1 + v2 + l.value < 2 ^ 31)
    (hdrop : s.drop p = l.digits) (v : Sinhvien) (w : Voinuoc) (out : List Byte) :
    ∃ v' w' p', v'.point = .downStart ∧ Goes next (inLine base n m (ready w v1 v2) i s v p out [])
      ⟨m, some v', some (ready w' 0 0), .main, true, ⟨base ++ [(DataFile.sinhvien, p'), (.voinuoc, 0)],
        ⟨i, some (out ++ l.digits ++ [0x5F#8, tapOf v1 v2] ++ [0x0D#8, 0x0A#8]), some s, some []⟩,
        false⟩, false⟩ := by
  obtain ⟨ds, ch, hds⟩ : ∃ ds ch, l.digits = ds ++ [ch] :=
    ⟨_, _, (List.dropLast_append_getLast l.nonempty).symm⟩
  have hdigit : ∀ c ∈ ds, IsDigit c := fun c hc => l.isDigit c (hds ▸ List.mem_append_left _ hc)
  have hch : IsDigit ch := l.isDigit ch (hds ▸ List.mem_append_right _ List.mem_cons_self)
  obtain ⟨v₁, hdrop₁, h₁⟩ := goes_digits (m := m) (w := ready w v1 v2) (i := i) hn h0 h8
    (List.cons_ne_nil ch []) ds hdigit v p out [] (hdrop.trans hds)
  generalize p + ds.length = p₁ at hdrop₁ h₁
  have hlen : s.length = p₁ + 1 + 0 := length_of_drop hdrop₁
  obtain ⟨v₂, h₂⟩ := goes_copied (m := m) (w := ready w v1 v2) (i := i) hn h0 h8 hdrop₁
    (hch.ne (by decide)) (hch.ne (by decide)) v₁ (out ++ ds) ([] ++ ds)
  rw [List.append_assoc, List.append_assoc, ← hds] at h₂
  obtain ⟨w', h₃⟩ := goes_passed (m := m) (i := i) (s := s) (p := p₁) hn h8 true hl (by omega)
    (by omega : v1 < 2 ^ 31) (by omega : v2 < 2 ^ 31) v₂ w (out ++ l.digits)
  -- the loop of `sinhvien` ends
  have hloop : Sinhvien.loop { reading v₂ n s.length p₁ with
      VN_FLAG := 1, point := .openAgain, fPointer := (p₁ + 1 : ℕ) } =
        { reading v₂ n s.length p₁ with VN_FLAG := 1, point := .upMain, fPointer := (p₁ + 1 : ℕ) } :=
    if_neg (by
      show ¬ ((p₁ + 1 : ℕ) : ℤ) < (s.length : ℤ)
      omega)
  rw [hloop] at h₃
  have hlast : (p₁ : ℤ) = s.length - 1 := by omega
  have hafter : (reading v₂ n s.length p₁).afterCh =
      { reading v₂ n s.length p₁ with VN_FLAG := 1, point := .writeStar } := if_pos hlast
  refine ⟨{ reading v₂ n s.length p₁ with
    VN_FLAG := 1, point := .downStart, fPointer := (p₁ + 1 : ℕ), size := 0 }, w', p₁ + 1, rfl,
    h₁.trans (h₂.trans ?_)⟩
  unfold copied
  rw [hafter]
  apply Goes.head (next_sinhvien (write_above (j := 1) hn rfl rfl (List.cons_ne_nil _ _) (by decide)) rfl)
  exact h₃.trans (Goes.single rfl)

theorem goes_line (hn : base.length = n) (h0 : 0 < n) (h8 : n + 2 < 8) (ls : List Numeral)
    (hne : ls ≠ []) (hpos : ∀ l ∈ ls, 0 < l.value) : ∀ (v : Sinhvien) (w : Voinuoc) (v1 v2 p : ℕ)
      (out : List Byte), v1 + v2 + (ls.map Numeral.value).sum < 2 ^ 31 → s.drop p = spaced ls →
        ∃ v' w' p', v'.point = .downStart ∧
          Goes next (inLine base n m (ready w v1 v2) i s v p out [])
            ⟨m, some v', some (ready w' 0 0), .main, true, ⟨base ++ [(DataFile.sinhvien, p'), (.voinuoc, 0)],
              ⟨i, some (out ++ poured v1 v2 ls), some s, some []⟩, false⟩, false⟩ := by
  induction ls with
  | nil => exact absurd rfl hne
  | cons l ls ih =>
    intro v w v1 v2 p out hsum hdrop
    have hl := hpos l List.mem_cons_self
    rw [List.map_cons, List.sum_cons] at hsum
    cases ls with
    | nil =>
      obtain ⟨v', w', p', hpt, h⟩ := goes_lastNumber (m := m) (i := i) hn h0 h8 hl
        (by rw [List.map_nil, List.sum_nil] at hsum; omega) hdrop v w out
      rw [List.append_assoc, List.append_assoc] at h
      refine ⟨v', w', p', hpt, ?_⟩
      rw [poured, List.append_assoc]
      exact h
    | cons l' ls =>
      obtain ⟨v₁, w₁, p₁, hdrop₁, h₁⟩ := goes_number (m := m) (i := i) hn h0 h8 hl
        (by omega : v1 + v2 + l.value < 2 ^ 31) (spaced_ne_nil (List.cons_ne_nil _ _)) hdrop v w out
      have hgiven := given_sum v1 v2 l.value
      obtain ⟨v₂, w₂, p₂, hpt, h₂⟩ := ih (List.cons_ne_nil _ _)
        (fun k hk => hpos k (List.mem_cons_of_mem l hk)) v₁ w₁ (given v1 v2 l.value).1
        (given v1 v2 l.value).2 p₁ (out ++ l.digits ++ [0x5F#8, tapOf v1 v2] ++ [0x20#8, 0x20#8, 0x20#8])
        (by omega) hdrop₁
      refine ⟨v₂, w₂, p₂, hpt, ?_⟩
      simp only [poured, List.append_assoc] at h₁ h₂ ⊢
      exact h₁.trans h₂

end Line

end Core

end Nachos.Test
