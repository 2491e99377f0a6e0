import Nachos.Test.Sequence

/-!
# The rounds of `main`

Each round leaves two files open, so the stack grows by two; a round needs three places above it.
`goes_rounds` is by induction on the lines, as long as there is room.
-/

namespace Nachos.Test.Core

open Run

variable {k : List (DataFile × ℕ)} {n : ℕ} {i : List Byte}

/-! ## A line of the input -/

/-- `main` in a round, with `sinhvien.txt` open. -/
def inRound (m : Main) (n : ℕ) (point : MainPoint) : Main :=
  { m with point := point, fInput := 2, fSinhvien := n + 2 }

/-- What is left of the input after a line: the character that ended it is gone. -/
def afterLine : List Byte → List Byte
  | [] => []
  | _ :: rest => rest

/-- The line goes to `sinhvien.txt`. -/
theorem goes_readLine (hn : k.length + 1 = n) {v : Option Sinhvien} {w : Option Voinuoc}
    {o b : Option (List Byte)} {rest : List Byte} (hrest : rest = [] ∨ ∃ r, rest = 0x0A#8 :: r)
    (line : List Byte) (hline : ∀ ch ∈ line, ch ≠ 0x0A#8 ∧ ch ≠ 0) :
    ∀ (m : Main) (p : ℕ) (s : List Byte), i.drop p = line ++ rest →
      ∃ ch p', i.drop p' = afterLine rest ∧ Goes next
        ⟨inRound m n .readLine, v, w, .main, false,
          ⟨((.input, p) :: k) ++ [(DataFile.sinhvien, s.length)], ⟨some i, o, some s, b⟩, false⟩, false⟩
        ⟨inRound { m with ch := ch } n .closeFile, v, w, .main, false,
          ⟨((.input, p') :: k) ++ [(DataFile.sinhvien, (s ++ line).length)],
            ⟨some i, o, some (s ++ line), b⟩, false⟩, false⟩ := by
  induction line with
  | nil =>
    intro m p s hdrop
    rw [List.append_nil]
    rcases hrest with rfl | ⟨r, rfl⟩
    · -- the end of the file
      have hnone : i[p]? = none := by
        rw [← List.head?_drop, hdrop]
        rfl
      refine ⟨m.ch, p, hdrop, Goes.single ?_⟩
      exact next_main (FileStack.serve_read_end (i := 0) rfl rfl hnone) rfl
    · obtain ⟨hget, hdrop⟩ := getElem?_of_drop hdrop
      refine ⟨0x0A#8, p + 1, hdrop, Goes.single ?_⟩
      exact next_main (FileStack.serve_read (i := 0) rfl rfl hget) rfl
  | cons ch line ih =>
    intro m p s hdrop
    obtain ⟨hget, hdrop⟩ := getElem?_of_drop hdrop
    obtain ⟨hlf, hz⟩ := hline ch List.mem_cons_self
    have hmem : (0 : Byte) ∉ [ch] := fun h => hz (List.mem_singleton.mp h).symm
    obtain ⟨c, p', hdrop', h⟩ := ih (fun c hc => hline c (List.mem_cons_of_mem ch hc))
      { m with ch := ch } (p + 1) (s ++ [ch]) hdrop
    rw [List.append_assoc] at h
    refine ⟨c, p', hdrop', ?_⟩
    apply Goes.head (next_main (k := inRound { m with ch := ch } n .writeLine)
      (FileStack.serve_read (i := 0) rfl rfl hget) (by simp [Main.resume, inRound, hlf]))
    have hn' : ((DataFile.input, p + 1) :: k).length = n := hn
    apply Goes.head (next_main (write_above (j := 0) hn' rfl rfl (List.cons_ne_nil _ _) hmem) rfl)
    exact h

/-! ## A round -/

/-- `sinhvien` gets the turn and opens its files. -/
theorem goes_opened {base : List (DataFile × ℕ)} (hn : base.length = n) (h8 : n + 2 < 8) {m : Main}
    {w : Voinuoc} {i b : Option (List Byte)} {s : List Byte} (hs : s ≠ []) (hs' : s.length < 2 ^ 31)
    (v : Sinhvien) (hv : v.point = .downStart) (out : List Byte) : ∃ v', Goes next
      ⟨m, some v, some w, .sinhvien, true, ⟨base, ⟨i, some out, some s, b⟩, false⟩, false⟩
      (inLine base n m w i s v' 0 out []) := by
  have hsize : (0 : ℤ) < s.length := by exact_mod_cast List.length_pos_iff.mpr hs
  obtain ⟨point, fSinhvien, fVoinuoc, fOutput, check, ch, size, fPointer, flag⟩ := v
  obtain rfl : point = .downStart := hv
  refine ⟨⟨.readCh, n + 2, (n + 1 : ℕ) + 2, fOutput, 0, ch, s.length, 0, 0⟩, ?_⟩
  apply Goes.head (b := ⟨m, some ⟨.openSinhvien, fSinhvien, fVoinuoc, fOutput, check, ch, size,
    fPointer, flag⟩, some w, .sinhvien, false, ⟨base, ⟨i, some out, some s, b⟩, false⟩, false⟩) (by rfl)
  apply Goes.head (next_sinhvien (u := ⟨.seekEnd, n + 2, fVoinuoc, fOutput, check, ch, size,
    fPointer, flag⟩) (FileStack.serve_open hn (by omega) rfl 1) (by
      simp only [Sinhvien.resume, if_neg (id_ne _)]))
  apply Goes.head (next_sinhvien (u := ⟨.seekStart, n + 2, fVoinuoc, fOutput, check, ch, s.length,
    fPointer, flag⟩) (seek_end_above (j := 0) hn rfl rfl) (by
      simp only [Sinhvien.resume, toInt_ofNat hs']))
  apply Goes.head (next_sinhvien (seek_start_above (j := 0) hn rfl rfl) rfl)
  apply Goes.head (next_sinhvien (u := ⟨.openVoinuoc, n + 2, fVoinuoc, fOutput, 0, ch, s.length,
    0, flag⟩) (by rfl) (by rfl))
  apply Goes.single (next_sinhvien (open_above (j := 1) (t := [_]) hn rfl (by omega) rfl 0) _)
  simp only [Sinhvien.resume, if_neg (id_ne _)]
  exact if_pos hsize

/-- A round of `main`: the line is read, passed on and poured. -/
theorem goes_round (hn : k.length + 1 = n) (h8 : n + 2 < 8) (ln : Line)
    (hshort : (spaced ln.numbers).length < 2 ^ 31) {rest : List Byte} (hrest : rest = [] ∨ ∃ r, rest = 0x0A#8 :: r) {s b : Option (List Byte)} {p : ℕ}
    (hdrop : i.drop p = spaced ln.numbers ++ rest) (m : Main) (v : Sinhvien)
    (hv : v.point = .downStart) (w : Voinuoc) (out : List Byte) :
    ∃ (m' : Main) (v' : Sinhvien) (w' : Voinuoc) (p' q : ℕ) (s' b' : Option (List Byte)),
      m'.N = m.N ∧ v'.point = .downStart ∧ i.drop p' = afterLine rest ∧ Goes next
        ⟨{ m with point := .createFile, fInput := 2 }, some v, some (ready w 0 0), .main, false,
          ⟨(.input, p) :: k, ⟨some i, some out, s, b⟩, false⟩, false⟩
        ⟨Main.loop { m' with fInput := 2 }, some v', some (ready w' 0 0), .main, false,
          ⟨(.input, p') :: (k ++ [(DataFile.sinhvien, q), (.voinuoc, 0)]),
            ⟨some i, some (out ++ poured 0 0 ln.numbers), s', b'⟩, false⟩, false⟩ := by
  obtain ⟨ch, p', hdrop', hread⟩ := goes_readLine (v := some v) (w := some (ready w 0 0))
    (o := some out) (b := b) hn hrest (spaced ln.numbers) (spaced_chars _)
    { m with check := 0 } p [] hdrop
  rw [List.nil_append] at hread
  have hn' : ((DataFile.input, p') :: k).length = n := hn
  obtain ⟨v₁, hopen⟩ := goes_opened (m := inRound { m with check := 0, ch := ch } n .downMain)
    (w := ready w 0 0) (i := some i) (b := b) hn' h8 (spaced_ne_nil ln.nonempty)
    hshort v hv out
  obtain ⟨v₂, w₂, q, hv₂, hline⟩ := goes_line (m := inRound { m with check := 0, ch := ch } n .downMain)
    (i := some i) hn' (by omega) h8 ln.numbers ln.nonempty ln.positive v₁ w 0 0 0 out
    (by have := ln.fits; omega) rfl
  refine ⟨inRound { m with check := 0, ch := ch } n .downMain, v₂, w₂, p', q,
    some (spaced ln.numbers), some [], rfl, hv₂, hdrop', ?_⟩
  apply Goes.head (next_main (k := { m with point := .openFile, fInput := 2, check := 0 })
    (by rfl) (by rfl))
  have hn₀ : ((DataFile.input, p) :: k).length = n := hn
  apply Goes.head (next_main (k := inRound { m with check := 0 } n .readLine)
    (FileStack.serve_open hn₀ (by omega) rfl 0) (by simp only [Main.resume, if_neg (id_ne _)]; rfl))
  apply hread.trans
  apply Goes.head (next_main (FileStack.serve_close hn' (by omega) _) rfl)
  apply Goes.head (b := ⟨inRound { m with check := 0, ch := ch } n .downMain, some v,
    some (ready w 0 0), .sinhvien, true, ⟨(.input, p') :: k, ⟨some i, some out,
      some (spaced ln.numbers), b⟩, false⟩, false⟩) (by rfl)
  exact hopen.trans (hline.trans (Goes.single rfl))

/-! ## All rounds -/

theorem linesText_cons (ended : Bool) (ln : Line) (lns : List Line) :
    ∃ rest, linesText ended (ln :: lns) = spaced ln.numbers ++ rest ∧
      (rest = [] ∨ ∃ r, rest = 0x0A#8 :: r) ∧ afterLine rest = linesText ended lns := by
  cases lns with
  | nil =>
    cases ended with
    | false => exact ⟨[], rfl, Or.inl rfl, rfl⟩
    | true => exact ⟨[0x0A#8], rfl, Or.inr ⟨[], rfl⟩, rfl⟩
  | cons ln' lns => exact ⟨_, rfl, Or.inr ⟨_, rfl⟩, rfl⟩

theorem goes_rounds (ended : Bool) (lns : List Line) : ∀ (k : List (DataFile × ℕ)),
    k.length + 1 + 2 * lns.length < 8 → (∀ ln ∈ lns, (spaced ln.numbers).length < 2 ^ 31) → ∀ (m : Main) (v : Sinhvien) (w : Voinuoc) (p : ℕ)
      (out : List Byte) (s b : Option (List Byte)), m.N = BitVec.ofNat 32 lns.length →
        v.point = .downStart → i.drop p = linesText ended lns →
          ∃ c : Core, c.halted = true ∧ c.files.data.output = some (out ++ outputText lns) ∧ Goes next
            ⟨Main.loop { m with fInput := 2 }, some v, some (ready w 0 0), .main, false,
              ⟨(.input, p) :: k, ⟨some i, some out, s, b⟩, false⟩, false⟩ c := by
  induction lns with
  | nil =>
    intro k h8 hshort m v w p out s b hN hv hdrop
    have hloop : Main.loop { m with fInput := 2 } =
        { m with fInput := 2, N := m.N - 1, point := .closeInput } := by
      unfold Main.loop
      dsimp only
      rw [hN]
      rfl
    refine ⟨⟨{ m with fInput := 2, N := m.N - 1, point := .halt }, some v, some (ready w 0 0), .main,
      false, ⟨(.input, p) :: k, ⟨some i, some out, s, b⟩, true⟩, true⟩, rfl,
      congrArg some (List.append_nil out).symm, ?_⟩
    rw [hloop]
    apply Goes.head (next_main (FileStack.serve_close_last (List.cons_ne_nil _ _)) rfl)
    apply Goes.head (b := ⟨{ m with fInput := 2, N := m.N - 1, point := .halt }, _, _, .main, false, _,
      false⟩) (by rfl)
    exact Goes.single rfl
  | cons ln lns ih =>
    intro k h8 hshort m v w p out s b hN hv hdrop
    rw [List.length_cons] at h8 hN
    have hne : BitVec.ofNat 32 (lns.length + 1) ≠ 0 := by
      intro h
      have h := congrArg BitVec.toNat h
      rw [BitVec.toNat_ofNat, Nat.mod_eq_of_lt (by omega)] at h
      exact Nat.succ_ne_zero _ h
    have hloop : Main.loop { m with fInput := 2 } =
        { m with N := m.N - 1, point := .createFile, fInput := 2 } := by
      unfold Main.loop
      dsimp only
      rw [hN, if_neg hne]
    obtain ⟨rest, htext, hrest, hafter⟩ := linesText_cons ended ln lns
    rw [htext] at hdrop
    obtain ⟨m', v', w', p', q, s', b', hN', hv', hdrop', hround⟩ := goes_round (i := i) (s := s)
      (b := b) (k := k) rfl (by omega) ln (hshort ln List.mem_cons_self) hrest hdrop
      { m with N := m.N - 1 } v hv w out
    have hN' : m'.N = BitVec.ofNat 32 lns.length := by
      rw [hN']
      show m.N - 1 = _
      rw [hN, BitVec.ofNat_add]
      exact BitVec.add_sub_cancel _ _
    obtain ⟨c, hc, hout, hgoes⟩ := ih (k ++ [(DataFile.sinhvien, q), (.voinuoc, 0)])
      (by rw [List.length_append]; show k.length + 2 + 1 + _ < 8; omega)
      (fun ln' h => hshort ln' (List.mem_cons_of_mem ln h)) m' v' w' p'
      (out ++ poured 0 0 ln.numbers) s' b' hN' hv' (hdrop'.trans hafter)
    rw [List.append_assoc] at hout
    refine ⟨c, hc, hout, ?_⟩
    rw [hloop]
    exact hround.trans hgoes

/-! ## From the start -/

/-- `main` is about to make its first call. -/
def start (d : Data) : Core := ⟨.start, none, none, .main, false, ⟨[], d, false⟩, false⟩

/-- `main` reads the number of lines. -/
theorem goes_readN {o s b : Option (List Byte)} {rest : List Byte} (ds : List Byte)
    (hds : ∀ ch ∈ ds, IsDigit ch) : ∀ (m : Main) (p l : ℕ), i.drop p = ds ++ 0x0A#8 :: rest →
      ∃ p', i.drop p' = rest ∧ Goes next
        ⟨{ m with point := .readN, fInput := 2, N := BitVec.ofNat 32 l }, none, none, .main, false,
          ⟨[(.input, p)], ⟨some i, o, s, b⟩, false⟩, false⟩
        ⟨{ m with point := .execSinhvien, fInput := 2, N := BitVec.ofNat 32 (digitsValue l ds),
                  ch := 0x0A#8 }, none, none, .main, false,
          ⟨[(.input, p')], ⟨some i, o, s, b⟩, false⟩, false⟩ := by
  induction ds with
  | nil =>
    intro m p l hdrop
    obtain ⟨hget, hdrop⟩ := getElem?_of_drop hdrop
    exact ⟨p + 1, hdrop, Goes.single (next_main (FileStack.serve_read (i := 0) rfl rfl hget) rfl)⟩
  | cons ch ds ih =>
    intro m p l hdrop
    have hch := hds ch List.mem_cons_self
    have hlf : ch ≠ 0x0A#8 := hch.ne (by decide)
    obtain ⟨hget, hdrop⟩ := getElem?_of_drop hdrop
    obtain ⟨p', hdrop', h⟩ := ih (fun c hc => hds c (List.mem_cons_of_mem ch hc)) { m with ch := ch }
      (p + 1) (l * 10 + (ch.toNat - 48)) hdrop
    refine ⟨p', hdrop', Goes.head ?_ h⟩
    apply next_main (FileStack.serve_read (i := 0) rfl rfl hget)
    rw [← addDigit_ofNat hch]
    exact (if_neg hlf).trans (if_pos hch)

/-- The course of the whole application, for at most three lines whose lengths are not negative as an
`int`. -/
theorem goes_start (N : Numeral) (ended : Bool) (lines : List Line) (hN : N.value = lines.length)
    (h3 : lines.length ≤ 3) (hshort : ∀ ln ∈ lines, (spaced ln.numbers).length < 2 ^ 31) (d : Data)
    (hd : d.input = some (inputText N ended lines)) :
    ∃ c : Core, c.halted = true ∧ c.files.data.output = some (outputText lines) ∧
      Goes next (start d) c := by
  obtain ⟨i, out, s, b⟩ := d
  obtain rfl : i = some (inputText N ended lines) := hd
  obtain ⟨p, hdrop, hread⟩ := goes_readN (i := inputText N ended lines) (o := some []) (s := s)
    (b := b) N.digits N.isDigit Main.start 0 0 rfl
  obtain ⟨c, hc, hout, hgoes⟩ := goes_rounds (i := inputText N ended lines) ended lines [] (by
    show 0 + 1 + _ < 8
    omega) hshort { Main.start with N := BitVec.ofNat 32 N.value, ch := 0x0A#8, check := 2 } .start .start p []
    s b (by rw [hN]) rfl hdrop
  refine ⟨c, hc, hout, ?_⟩
  apply Goes.head (b := ⟨{ Main.start with point := .createSinhvien }, _, _, _, _, _, _⟩) (by rfl)
  apply Goes.head (b := ⟨{ Main.start with point := .createVoinuoc }, _, _, _, _, _, _⟩) (by rfl)
  apply Goes.head (b := ⟨{ Main.start with point := .openInput }, _, _, _, _, _, _⟩) (by rfl)
  apply Goes.head (next_main (k := { Main.start with point := .createOutput, fInput := 2 })
    (FileStack.serve_open rfl (by decide) rfl 1) rfl)
  apply Goes.head (next_main (k := { Main.start with point := .readN, fInput := 2 }) (by rfl) (by rfl))
  apply hread.trans
  apply Goes.head (b := ⟨{ Main.start with
    point := .execVoinuoc, fInput := 2, N := BitVec.ofNat 32 N.value, ch := 0x0A#8, check := 1 },
    some .start, none, .main, false, _, _⟩) (by rfl)
  exact Goes.head rfl hgoes

end Nachos.Test.Core
