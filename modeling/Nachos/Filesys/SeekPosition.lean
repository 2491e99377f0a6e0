import Nachos.Filesys.ByteTransfer
import Nachos.Lib.Run

/-!
# `seekPosition`

In the FILESYS build `OpenFile::Seek` stores any `int`, and `Read` and `Write` take it for the
position of their request. `SeekTable` is the table of open files with the calls that use a
position; `SeekTable.Inv` holds as long as nothing negative is stored and no request ends beyond
an `int`.
-/

namespace Nachos.Filesys

/-- An open file at an offset. -/
structure OpenFile.Valid (f : OpenFile) : Prop where
  header : ∃ length blocks, f.hdr.Describes length blocks ∧ Extent length blocks
  nonneg : 0 ≤ f.seekPosition
  int : f.seekPosition < 2 ^ 31

/-- The position behind a request is an offset again. -/
theorem OpenFile.Valid.moved {f : OpenFile} (hv : f.Valid) {length : ℕ} {blocks : List ℕ}
    (he : Extent length blocks) (numBytes : ℤ) :
    (f.seek (asInt (f.seekPosition +
      (clip length numBytes f.seekPosition.toNat : ℕ)))).Valid := by
  have hlen : length ≤ 524288 := he.length_le
  have hnonneg := hv.nonneg
  have hint := hv.int
  have hclip : clip length numBytes f.seekPosition.toNat ≤ length - f.seekPosition.toNat :=
    Nat.min_le_right _ _
  rw [asInt_moved he hnonneg hint]
  refine ⟨hv.header, ?_, ?_⟩ <;> rw [OpenFile.seek] <;> dsimp only <;> omega

structure SeekTable where
  openState : ℕ → Option OpenFile
  disk : Disk

namespace SeekTable

def setSlot (s : SeekTable) (i : ℕ) (f : Option OpenFile) : SeekTable :=
  { s with openState := Function.update s.openState i f }

/-- `SC_Seek`: what it puts into register 2, and the table it leaves. -/
def scSeek (s : SeekTable) (pos id : Word) : ℤ × SeekTable :=
  if id.toInt < 0 ∨ id.toInt > 9 then (-1, s)
  else
    match s.openState id.toInt.toNat with
    | none => (-1, s)
    | some f =>
      if id.toInt = 0 ∨ id.toInt = 1 then (-1, s)
      else
        let pos := if pos.toInt = -1 then f.hdr.numBytes else pos.toInt
        (pos, s.setSlot id.toInt.toNat (some (f.seek pos)))

/-- The id is that of an open file which is not a console. -/
def SeeksFile (s : SeekTable) (id : Word) : Prop :=
  2 ≤ id.toInt ∧ id.toInt ≤ 9 ∧ s.openState id.toInt.toNat ≠ none

inductive Action where
  /-- The `OpenFile` of a header is put into a slot. -/
  | openFile (i : ℕ) (hdr : FileHeader) (type : Option ℤ)
  | close (i : ℕ)
  | seek (pos id : Word)
  | read (i : ℕ) (junk : ℕ → Byte) (numBytes : ℤ)
  | write (i : ℕ) (junk source : ℕ → Byte) (numBytes : ℤ)
  /-- The disk is used in any other way. -/
  | setDisk (d : Disk)

def step (s : SeekTable) : Action → Option SeekTable
  | .openFile i hdr type => some (s.setSlot i (some { hdr, seekPosition := 0, type }))
  | .close i => some (s.setSlot i none)
  | .seek pos id => some (s.scSeek pos id).2
  | .read i junk numBytes => do
    let f ← s.openState i
    let (_, f) ← f.read s.disk junk numBytes
    some (s.setSlot i (some f))
  | .write i junk source numBytes => do
    let f ← s.openState i
    let (_, f, d) ← f.write s.disk junk source numBytes
    some ({ s with disk := d }.setSlot i (some f))
  | .setDisk d => some { s with disk := d }

def Init (s : SeekTable) : Prop := s.openState = fun _ => none

/-- A request on an open file ends below `2 ^ 31`. -/
def Short (s : SeekTable) (i : ℕ) (numBytes : ℤ) : Prop :=
  ∀ f, s.openState i = some f → f.seekPosition + numBytes < 2 ^ 31

/-- Files have proper headers, no open file is sought with less than -1, and requests are short. -/
def Regular (s : SeekTable) : Action → Prop
  | .openFile _ hdr _ => ∃ length blocks, hdr.Describes length blocks ∧ Extent length blocks
  | .seek pos id => -1 ≤ pos.toInt ∨ ¬ s.SeeksFile id
  | .read i _ numBytes | .write i _ _ numBytes => s.Short i numBytes
  | .close _ | .setDisk _ => True

def Inv (s : SeekTable) : Prop := ∀ i f, s.openState i = some f → f.Valid

section Steps

variable {s s' : SeekTable}

theorem Inv.setSlot (h : s.Inv) (i : ℕ) {f : Option OpenFile}
    (hf : ∀ g, f = some g → g.Valid) : (s.setSlot i f).Inv := by
  intro j g hg
  have hg : Function.update s.openState i f j = some g := hg
  rw [Function.update_apply] at hg
  split_ifs at hg
  · exact hf g hg
  · exact h j g hg

/-- What `SC_Seek` does: it refuses the id, or stores the position. -/
theorem scSeek_cases (s : SeekTable) (pos id : Word) :
    ¬ s.SeeksFile id ∧ s.scSeek pos id = (-1, s) ∨
      ∃ f, s.SeeksFile id ∧ s.openState id.toInt.toNat = some f ∧
        s.scSeek pos id = (if pos.toInt = -1 then f.hdr.numBytes else pos.toInt,
          s.setSlot id.toInt.toNat
            (some (f.seek (if pos.toInt = -1 then f.hdr.numBytes else pos.toInt)))) := by
  unfold scSeek SeeksFile
  by_cases hid : id.toInt < 0 ∨ id.toInt > 9
  · rw [if_pos hid]
    exact Or.inl ⟨fun h => by omega, rfl⟩
  rw [if_neg hid]
  rcases hf : s.openState id.toInt.toNat with _ | f
  · exact Or.inl ⟨fun h => h.2.2 rfl, rfl⟩
  dsimp only
  by_cases hconsole : id.toInt = 0 ∨ id.toInt = 1
  · rw [if_pos hconsole]
    exact Or.inl ⟨fun h => by omega, rfl⟩
  · rw [if_neg hconsole]
    exact Or.inr ⟨f, ⟨by omega, by omega, Option.some_ne_none f⟩, rfl, rfl⟩

/-- `SC_Seek` with less than -1 refuses exactly what it refuses for every position. -/
theorem scSeek_refuses_iff {pos : Word} (hpos : pos.toInt < -1) (id : Word) :
    s.scSeek pos id = (-1, s) ↔ ¬ s.SeeksFile id := by
  rcases scSeek_cases s pos id with ⟨hno, hrefused⟩ | ⟨f, hseeks, -, hstored⟩
  · exact iff_of_true hrefused hno
  · refine iff_of_false (fun h => ?_) fun hno => hno hseeks
    rw [h] at hstored
    have hvalue := congrArg Prod.fst hstored
    dsimp only at hvalue
    rw [if_neg (by omega)] at hvalue
    omega

theorem Inv.step (h : s.Inv) {a : Action} (hr : s.Regular a) (hs : s.step a = some s') :
    s'.Inv := by
  cases a with
  | openFile i hdr type =>
    cases hs
    refine h.setSlot i fun g hg => ?_
    cases hg
    exact ⟨hr, le_rfl, Int.pow_pos (by decide)⟩
  | close i =>
    cases hs
    exact h.setSlot i fun g hg => nomatch hg
  | seek pos id =>
    cases hs
    rcases scSeek_cases s pos id with ⟨-, hrefused⟩ | ⟨f, hseeks, hf, hstored⟩
    · rw [hrefused]
      exact h
    · rw [hstored]
      refine h.setSlot _ fun g hg => ?_
      cases hg
      have hv := h _ f hf
      obtain ⟨length, blocks, hd, he⟩ := hv.header
      have hlen : length ≤ 524288 := he.length_le
      have hlow := hr.resolve_right fun hno => hno hseeks
      have hhigh := pos.toInt_lt
      refine ⟨hv.header, ?_, ?_⟩ <;> rw [OpenFile.seek, hd.numBytes] <;> dsimp only <;>
        split_ifs <;> omega
  | read i junk numBytes =>
    simp only [SeekTable.step, Option.bind_eq_bind, Option.bind_eq_some_iff] at hs
    obtain ⟨f, hf, ⟨bytes, f'⟩, hread, hs⟩ := hs
    cases hs
    have hv := h i f hf
    obtain ⟨length, blocks, hd, he⟩ := hv.header
    have hfits : f.hdr.Fits numBytes f.seekPosition := .inr (.inr ⟨hv.nonneg, hr f hf⟩)
    rw [OpenFile.read, Indexed.readAt_spec hd he s.disk junk hfits] at hread
    cases hread
    rw [List.length_map, List.length_range]
    refine h.setSlot i fun g hg => ?_
    cases hg
    exact hv.moved he numBytes
  | write i junk source numBytes =>
    simp only [SeekTable.step, Option.bind_eq_bind, Option.bind_eq_some_iff] at hs
    obtain ⟨f, hf, ⟨n, f', d⟩, hwrite, hs⟩ := hs
    cases hs
    have hv := h i f hf
    obtain ⟨length, blocks, hd, he⟩ := hv.header
    have hfits : f.hdr.Fits numBytes f.seekPosition := .inr (.inr ⟨hv.nonneg, hr f hf⟩)
    obtain ⟨d', hspec, -⟩ := Indexed.writeAt_spec hd he s.disk junk source hfits
    rw [OpenFile.write, hspec] at hwrite
    cases hwrite
    have hdisk : SeekTable.Inv { s with disk := d } := h
    refine hdisk.setSlot i fun g hg => ?_
    cases hg
    exact hv.moved he numBytes
  | setDisk d =>
    cases hs
    exact h

theorem inv_of_reach (h : Run.ReachBy step Regular Init s) : s.Inv :=
  h.inv Inv (fun s₀ h₀ i f hf => by rw [h₀] at hf; cases hf) fun _ _ _ hi hr hs => hi.step hr hs

/-- The indices of a short request on a file at an offset. -/
theorem Inv.inRange (h : s.Inv) {i : ℕ} {f : OpenFile} (hf : s.openState i = some f)
    {numBytes : ℤ} (hshort : f.seekPosition + numBytes < 2 ^ 31) {sp : Span}
    (hspan : span f.hdr.numBytes numBytes f.seekPosition = some sp) :
    sp.InRange f.hdr.numSectors f.seekPosition := by
  have hv := h i f hf
  obtain ⟨length, blocks, hd, he⟩ := hv.header
  obtain ⟨position, hposition⟩ := Int.eq_ofNat_of_zero_le hv.nonneg
  rw [hposition] at hshort hspan ⊢
  rw [hd.numBytes] at hspan
  rw [hd.numSectors]
  by_cases hc : numBytes ≤ 0 ∨ (length : ℤ) ≤ position
  · rw [span_eq_none hc] at hspan
    cases hspan
  · obtain ⟨-, hpos, hle⟩ := clip_eq.2 hc
    rw [span_eq_some he hshort hc] at hspan
    cases hspan
    exact spanOf_inRange he hpos hle

end Steps

end SeekTable

end Nachos.Filesys
