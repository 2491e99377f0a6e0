import Nachos.Test.Programs

/-!
# The open files as a stack

What the water-tap programs need of the file system while all goes well. Opening takes the lowest free
id and the programs close in the opposite order, so the open files are a stack: the entry at index `i`
has the id `i + 2`. All writes are at the end of a file. `serve` is undefined where a program does
something else, or where the table is full. The file with the id 2 is closed last; then the stack is
not used any more.
-/

namespace Nachos.Test

/-- The contents of the files that exist. -/
structure Data where
  input : Option (List Byte)
  output : Option (List Byte)
  sinhvien : Option (List Byte)
  voinuoc : Option (List Byte)

namespace Data

def get (d : Data) : DataFile → Option (List Byte)
  | .input => d.input
  | .output => d.output
  | .sinhvien => d.sinhvien
  | .voinuoc => d.voinuoc

def set (d : Data) (bytes : List Byte) : DataFile → Data
  | .input => { d with input := some bytes }
  | .output => { d with output := some bytes }
  | .sinhvien => { d with sinhvien := some bytes }
  | .voinuoc => { d with voinuoc := some bytes }

end Data

/-- Open files with their positions, the contents of all files, and whether the file with the id 2 was
closed. -/
structure FileStack where
  stack : List (DataFile × ℕ)
  data : Data
  closed : Bool

namespace FileStack

/-- The open file with this id, and its contents. -/
def file (a : FileStack) (id : ℤ) : Option ((DataFile × ℕ) × List Byte) :=
  if 2 ≤ id then do
    let e ← a.stack[(id - 2).toNat]?
    let bytes ← a.data.get e.1
    pure (e, bytes)
  else none

def moveTo (a : FileStack) (id : ℤ) (e : DataFile × ℕ) : FileStack :=
  { a with stack := a.stack.set (id - 2).toNat e }

/-- The reply to a call and the files after it. -/
def serveOpen (a : FileStack) : UserCall → Option (Reply × FileStack)
  | .create f => some ({ value := 0, ch := none }, { a with data := a.data.set [] f })
  | .openFile f _ =>
    if a.stack.length < 8 ∧ (a.data.get f).isSome then
      some ({ value := a.stack.length + 2, ch := none }, { a with stack := a.stack ++ [(f, 0)] })
    else none
  | .close id =>
    if 0 < a.stack.length ∧ id = 2 then
      some ({ value := 0, ch := none }, { a with closed := true })
    else if 0 < a.stack.length ∧ id = a.stack.length + 1 then
      some ({ value := 0, ch := none }, { a with stack := a.stack.dropLast })
    else none
  | .read id => (a.file id).map fun ((f, pos), bytes) =>
    match bytes[pos]? with
    | none => ({ value := -2, ch := none }, a)
    | some ch => ({ value := 1, ch := some ch }, a.moveTo id (f, pos + 1))
  | .write new id => (a.file id).bind fun ((f, pos), bytes) =>
    if pos = bytes.length ∧ new ≠ [] ∧ 0 ∉ new then
      some ({ value := new.length, ch := none },
        { a.moveTo id (f, pos + new.length) with data := a.data.set (bytes ++ new) f })
    else none
  | .seek pos id => (a.file id).bind fun ((f, _), bytes) =>
    -- the length is returned as an `int`
    if pos = -1 then
      some ({ value := (BitVec.ofNat 32 bytes.length).toInt, ch := none }, a.moveTo id (f, bytes.length))
    else if pos = 0 then some ({ value := 0, ch := none }, a.moveTo id (f, 0))
    else none
  | _ => none

/-- The same, while the stack is used. -/
def serve (a : FileStack) (c : UserCall) : Option (Reply × FileStack) :=
  if a.closed then none else a.serveOpen c

theorem serve_eq_some {a : FileStack} {c : UserCall} {x : Reply × FileStack} (h : a.serve c = some x) :
    a.closed = false ∧ a.serveOpen c = some x := by
  obtain ⟨ha, h⟩ := Option.ite_none_left_eq_some.mp h
  exact ⟨Bool.eq_false_iff.mpr ha, h⟩

section Serve

variable {st : List (DataFile × ℕ)} {d : Data} {f : DataFile} {i pos : ℕ} {bytes : List Byte}

theorem file_eq (he : st[i]? = some (f, pos)) (hd : d.get f = some bytes) :
    FileStack.file ⟨st, d, false⟩ ((i : ℤ) + 2) = some ((f, pos), bytes) := by
  have hi : ((i : ℤ) + 2 - 2).toNat = i := by omega
  unfold FileStack.file
  rw [if_pos (by omega), hi]
  dsimp only
  rw [he]
  show (d.get f).bind _ = _
  rw [hd]
  rfl

theorem moveTo_eq (e : DataFile × ℕ) :
    FileStack.moveTo ⟨st, d, false⟩ ((i : ℤ) + 2) e = ⟨st.set i e, d, false⟩ := by
  have hi : ((i : ℤ) + 2 - 2).toNat = i := by omega
  unfold FileStack.moveTo
  rw [hi]

theorem serve_open {n : ℕ} (hn : st.length = n) (h8 : n < 8) (hd : d.get f = some bytes) (type : ℤ) :
    serve ⟨st, d, false⟩ (.openFile f type) =
      some ({ value := n + 2, ch := none }, ⟨st ++ [(f, 0)], d, false⟩) := by
  subst hn
  unfold serve serveOpen
  dsimp only
  rw [if_neg Bool.false_ne_true]
  rw [if_pos ⟨h8, by rw [hd]; rfl⟩]

theorem serve_close {n : ℕ} (hn : st.length = n) (h0 : 0 < n) (e : DataFile × ℕ) :
    serve ⟨st ++ [e], d, false⟩ (.close (n + 2)) = some ({ value := 0, ch := none }, ⟨st, d, false⟩) := by
  subst hn
  unfold serve serveOpen
  dsimp only
  rw [if_neg Bool.false_ne_true]
  rw [List.length_append, List.length_singleton, if_neg (by omega),
    if_pos ⟨by omega, by push_cast; omega⟩, List.dropLast_concat]

theorem serve_close_last (h0 : st ≠ []) :
    serve ⟨st, d, false⟩ (.close 2) = some ({ value := 0, ch := none }, ⟨st, d, true⟩) := by
  unfold serve serveOpen
  dsimp only
  rw [if_neg Bool.false_ne_true]
  rw [if_pos ⟨List.length_pos_iff.mpr h0, rfl⟩]

theorem serve_read {ch : Byte} (he : st[i]? = some (f, pos)) (hd : d.get f = some bytes)
    (hb : bytes[pos]? = some ch) : serve ⟨st, d, false⟩ (.read (i + 2)) =
      some ({ value := 1, ch := some ch }, ⟨st.set i (f, pos + 1), d, false⟩) := by
  unfold serve serveOpen
  dsimp only
  rw [if_neg Bool.false_ne_true]
  rw [file_eq he hd, Option.map_some]
  dsimp only
  rw [hb, moveTo_eq]

theorem serve_read_end (he : st[i]? = some (f, pos)) (hd : d.get f = some bytes)
    (hb : bytes[pos]? = none) : serve ⟨st, d, false⟩ (.read (i + 2)) =
      some ({ value := -2, ch := none }, ⟨st, d, false⟩) := by
  unfold serve serveOpen
  dsimp only
  rw [if_neg Bool.false_ne_true]
  rw [file_eq he hd, Option.map_some]
  dsimp only
  rw [hb]

theorem serve_write {new : List Byte} (he : st[i]? = some (f, bytes.length))
    (hd : d.get f = some bytes) (h0 : new ≠ []) (hz : 0 ∉ new) :
    serve ⟨st, d, false⟩ (.write new (i + 2)) = some ({ value := new.length, ch := none },
      ⟨st.set i (f, bytes.length + new.length), d.set (bytes ++ new) f, false⟩) := by
  unfold serve serveOpen
  dsimp only
  rw [if_neg Bool.false_ne_true]
  rw [file_eq he hd, Option.bind_some]
  dsimp only
  rw [if_pos ⟨rfl, h0, hz⟩, moveTo_eq]

theorem serve_seek_end (he : st[i]? = some (f, pos)) (hd : d.get f = some bytes) :
    serve ⟨st, d, false⟩ (.seek (-1) (i + 2)) =
      some ({ value := (BitVec.ofNat 32 bytes.length).toInt, ch := none },
        ⟨st.set i (f, bytes.length), d, false⟩) := by
  unfold serve serveOpen
  dsimp only
  rw [if_neg Bool.false_ne_true]
  rw [file_eq he hd, Option.bind_some]
  dsimp only
  rw [if_pos rfl, moveTo_eq]

theorem serve_seek_start (he : st[i]? = some (f, pos)) (hd : d.get f = some bytes) :
    serve ⟨st, d, false⟩ (.seek 0 (i + 2)) = some ({ value := 0, ch := none }, ⟨st.set i (f, 0), d, false⟩) := by
  unfold serve serveOpen
  dsimp only
  rw [if_neg Bool.false_ne_true]
  rw [file_eq he hd, Option.bind_some]
  dsimp only
  rw [if_neg (by decide), if_pos rfl, moveTo_eq]

end Serve

end FileStack

end Nachos.Test
