import Mathlib.Data.List.TakeWhile
import Nachos.Filesys.FileHdr

/-!
# The directory, `directory.cc`

A table of entries, each with the name of a file and the sector of its header. Names are compared by
`strncmp` and copied by `strncpy`, on `FileNameMaxLen` characters. `DirectoryEntry.view` is what an
entry stands for; the lookups and updates are stated in its terms.
-/

namespace Nachos

/-- `FileNameMaxLen` -/
abbrev fileNameMaxLen : ℕ := 9

/-- `NumDirEntries` of `filesys.cc`. -/
abbrev numDirEntries : ℕ := 10

/-- `sizeof(DirectoryEntry)`: a `bool`, an `int` and 10 characters, aligned. -/
abbrev directoryEntrySize : ℕ := 20

/-! ## Strings -/

/-- The characters of a string, with the NUL after its end. -/
def charAt (name : Name) (j : ℕ) : Byte := (name.takeWhile fun b => b ≠ 0).getD j 0

/-- `!strncmp(a + j, b + j, n)` -/
def sameChars (a b : ℕ → Byte) : ℕ → ℕ → Bool
  | _, 0 => true
  | j, n + 1 => a j == b j && (a j == 0 || sameChars a b (j + 1) n)

/-- `strncpy(dst, name, n)` -/
def strncpy (dst : ℕ → Byte) (name : Name) (n : ℕ) : ℕ → Byte :=
  fun j => if j < n then charAt name j else dst j

/-- The string of at most `n` characters at `a + j`. -/
def chars (a : ℕ → Byte) : ℕ → ℕ → Name
  | _, 0 => []
  | j, n + 1 => if a j = 0 then [] else a j :: chars a (j + 1) n

/-- The characters of a name that count. -/
def fileKey (name : Name) : Name := (name.takeWhile fun b => b ≠ 0).take fileNameMaxLen

theorem sameChars_iff (a b : ℕ → Byte) (j n : ℕ) :
    sameChars a b j n = true ↔ chars a j n = chars b j n := by
  induction n generalizing j with
  | zero => simp [sameChars, chars]
  | succ n ih =>
    rw [sameChars, chars, chars, Bool.and_eq_true, Bool.or_eq_true, beq_iff_eq, beq_iff_eq, ih]
    by_cases ha : a j = 0
    · by_cases hb : b j = 0
      · rw [if_pos ha, if_pos hb, ha, hb]
        exact ⟨fun _ => rfl, fun _ => ⟨rfl, .inl rfl⟩⟩
      · rw [if_pos ha, if_neg hb]
        exact ⟨fun h => absurd (h.1.symm.trans ha) hb, nofun⟩
    · by_cases hb : b j = 0
      · rw [if_neg ha, if_pos hb]
        exact ⟨fun h => absurd (h.1.trans hb) ha, nofun⟩
      · rw [if_neg ha, if_neg hb, List.cons.injEq, or_iff_right ha]

theorem chars_congr {a b : ℕ → Byte} {j n : ℕ} (h : ∀ i, j ≤ i → i < j + n → a i = b i) :
    chars a j n = chars b j n := by
  induction n generalizing j with
  | zero => rfl
  | succ n ih =>
    rw [chars, chars, h j (Nat.le_refl j) (by omega),
      ih fun i h₁ h₂ => h i (by omega) (by omega)]

/-- The characters of a string without NUL. -/
theorem chars_getD {l : List Byte} (hl : ∀ b ∈ l, b ≠ 0) (j n : ℕ) :
    chars (fun i => l.getD i 0) j n = (l.drop j).take n := by
  induction n generalizing j with
  | zero => rw [chars, List.take_zero]
  | succ n ih =>
    rw [chars]
    by_cases hj : j < l.length
    · rw [List.getD_eq_getElem _ _ hj, if_neg (hl _ (List.getElem_mem hj)), ih,
        List.drop_eq_getElem_cons hj, List.take_succ_cons]
    · rw [List.getD_eq_default _ _ (by omega), if_pos rfl, List.drop_of_length_le (by omega),
        List.take_nil]

theorem chars_charAt (name : Name) : chars (charAt name) 0 fileNameMaxLen = fileKey name := by
  have h := chars_getD (l := name.takeWhile fun b => b ≠ 0)
    (fun b hb => by simpa using List.mem_takeWhile_imp hb) 0 fileNameMaxLen
  rw [List.drop_zero] at h
  exact h

/-! ## Entries -/

structure DirectoryEntry where
  inUse : Bool
  sector : ℤ
  name : ℕ → Byte

namespace DirectoryEntry

/-- The bytes of an entry; those between the fields do not matter. -/
def byte (e : DirectoryEntry) (j : ℕ) : Byte :=
  if j = 0 then if e.inUse then 1 else 0
  else if 4 ≤ j ∧ j < 8 then (BitVec.ofInt 32 e.sector).extractLsb' (8 * (j - 4)) 8
  else if 8 ≤ j ∧ j < 8 + (fileNameMaxLen + 1) then e.name (j - 8)
  else 0

/-- The entry at byte `k`. -/
def ofBytes (b : ℕ → Byte) (k : ℕ) : DirectoryEntry where
  inUse := b k != 0
  sector := (wordAt b (k + 4)).toInt
  name := fun j => b (k + 8 + j)

/-- The name, up to `FileNameMaxLen` characters, and the header sector of the file. -/
def view (e : DirectoryEntry) : Option (Name × ℤ) :=
  if e.inUse then some (chars e.name 0 fileNameMaxLen, e.sector) else none

theorem view_ofBytes_congr {b b' : ℕ → Byte} {k k' : ℕ}
    (h : ∀ j < directoryEntrySize, b (k + j) = b' (k' + j)) :
    (ofBytes b k).view = (ofBytes b' k').view := by
  have h0 := h 0 (by decide)
  rw [Nat.add_zero, Nat.add_zero] at h0
  have hsector : wordAt b (k + 4) = wordAt b' (k' + 4) := by
    unfold wordAt
    have h4 := h 4 (by decide)
    have h5 := h 5 (by decide)
    have h6 := h 6 (by decide)
    have h7 := h 7 (by decide)
    rw [h4, show k + 4 + 1 = k + 5 from rfl, h5, show k + 4 + 2 = k + 6 from rfl, h6,
      show k + 4 + 3 = k + 7 from rfl, h7]
  have hname : chars (ofBytes b k).name 0 fileNameMaxLen =
      chars (ofBytes b' k').name 0 fileNameMaxLen := by
    refine chars_congr fun i _ hi => ?_
    have hi' : i < 0 + 9 := hi
    show b (k + 8 + i) = b' (k' + 8 + i)
    rw [Nat.add_assoc, Nat.add_assoc]
    exact h (8 + i) (show 8 + i < 20 by omega)
  unfold view
  rw [hname]
  show (if b k != 0 then some (_, (wordAt b (k + 4)).toInt) else none) = _
  rw [h0, hsector]
  rfl

/-- An entry is read back as it was written. -/
theorem view_ofBytes_byte {e : DirectoryEntry}
    (h : e.inUse = true → -2 ^ 31 ≤ e.sector ∧ e.sector < 2 ^ 31) :
    (ofBytes e.byte 0).view = e.view := by
  have huse : (ofBytes e.byte 0).inUse = e.inUse := by
    show ((if e.inUse then (1 : Byte) else 0) != 0) = e.inUse
    cases e.inUse <;> decide
  unfold view
  rw [huse]
  split_ifs with hin
  swap
  · rfl
  obtain ⟨h₁, h₂⟩ := h hin
  have hsector : (ofBytes e.byte 0).sector = e.sector := by
    show (wordAt e.byte 4).toInt = e.sector
    have hword : wordAt e.byte 4 = BitVec.ofInt 32 e.sector := append_extractLsb' _
    rw [hword]
    exact toInt_ofInt_of_lt h₁ h₂
  have hname : chars (ofBytes e.byte 0).name 0 fileNameMaxLen = chars e.name 0 fileNameMaxLen := by
    refine chars_congr fun i _ hi => ?_
    have hi' : i < 0 + 9 := hi
    show e.byte (0 + 8 + i) = e.name i
    unfold byte
    rw [if_neg (by omega), if_neg (by omega),
      if_pos (show 8 ≤ 0 + 8 + i ∧ 0 + 8 + i < 8 + (9 + 1) by omega)]
    congr 1
    omega
  rw [hsector, hname]

end DirectoryEntry

/-! ## The table -/

/-- `table`; the entries are those below `numDirEntries`. -/
abbrev Directory := ℕ → DirectoryEntry

namespace Directory

/-- The table as an array of bytes. -/
def toBytes (t : Directory) : ℕ → Byte :=
  fun k => (t (k / directoryEntrySize)).byte (k % directoryEntrySize)

def ofBytes (b : ℕ → Byte) : Directory := fun i => DirectoryEntry.ofBytes b (directoryEntrySize * i)

/-- `Directory::FindIndex`; `none` is -1. -/
def findIndex (t : Directory) (name : Name) : Option ℕ :=
  (List.range numDirEntries).find? fun i =>
    (t i).inUse && sameChars (t i).name (charAt name) 0 fileNameMaxLen

/-- `Directory::Find` -/
def find (t : Directory) (name : Name) : ℤ :=
  match t.findIndex name with
  | some i => (t i).sector
  | none => -1

/-- `Directory::Add`; `none` is `FALSE`. -/
def add (t : Directory) (name : Name) (newSector : ℤ) : Option Directory :=
  if (t.findIndex name).isSome then none
  else ((List.range numDirEntries).find? fun i => !(t i).inUse).map fun i =>
    Function.update t i
      { inUse := true, sector := newSector, name := strncpy (t i).name name fileNameMaxLen }

/-- `Directory::Remove`; `none` is `FALSE`. -/
def remove (t : Directory) (name : Name) : Option Directory :=
  (t.findIndex name).map fun i => Function.update t i { t i with inUse := false }

variable {t : Directory} {name : Name} {i : ℕ}

theorem view_ofBytes_toBytes
    (h : (t i).inUse = true → -2 ^ 31 ≤ (t i).sector ∧ (t i).sector < 2 ^ 31) :
    (ofBytes t.toBytes i).view = (t i).view := by
  rw [← DirectoryEntry.view_ofBytes_byte h]
  refine DirectoryEntry.view_ofBytes_congr fun j hj => ?_
  have hj' : j < 20 := hj
  show (t ((20 * i + j) / 20)).byte ((20 * i + j) % 20) = (t i).byte (0 + j)
  rw [show (20 * i + j) / 20 = i by omega, show (20 * i + j) % 20 = j by omega, Nat.zero_add]

/-- The test of `FindIndex`. -/
theorem matches_iff (e : DirectoryEntry) (name : Name) :
    (e.inUse && sameChars e.name (charAt name) 0 fileNameMaxLen) = true ↔
      e.view = some (fileKey name, e.sector) := by
  rw [Bool.and_eq_true, sameChars_iff, chars_charAt]
  unfold DirectoryEntry.view
  cases e.inUse
  · simp
  · simp

theorem findIndex_eq_some (h : t.findIndex name = some i) :
    i < numDirEntries ∧ (t i).view = some (fileKey name, (t i).sector) := by
  unfold findIndex at h
  have hmem := List.mem_of_find?_eq_some h
  have hmatch := List.find?_some h
  exact ⟨List.mem_range.mp hmem, (matches_iff _ _).mp hmatch⟩

theorem findIndex_eq_none (h : t.findIndex name = none) (hi : i < numDirEntries) (s : ℤ) :
    (t i).view ≠ some (fileKey name, s) := by
  intro hv
  refine List.find?_eq_none.mp h i (List.mem_range.mpr hi) ((matches_iff _ _).mpr ?_)
  have hs : (t i).sector = s := by
    unfold DirectoryEntry.view at hv
    split_ifs at hv
    exact (Prod.mk.inj (Option.some.inj hv)).2
  rw [hv, hs]

theorem view_eq_none (e : DirectoryEntry) : e.view = none ↔ e.inUse = false := by
  unfold DirectoryEntry.view
  cases e.inUse <;> simp

/-- `Add` puts a new name into the first entry that is not in use. -/
theorem add_cases (t : Directory) (name : Name) (newSector : ℤ) :
    (t.add name newSector = none ∧
      ((t.findIndex name).isSome = true ∨ ∀ i < numDirEntries, (t i).view ≠ none)) ∨
    ∃ t' i, t.add name newSector = some t' ∧ i < numDirEntries ∧ (t i).view = none ∧
      (∀ j < numDirEntries, ∀ s, (t j).view ≠ some (fileKey name, s)) ∧
      (t' i).view = some (fileKey name, newSector) ∧ (t' i).sector = newSector ∧
      ∀ j, j ≠ i → t' j = t j := by
  unfold add
  cases hf : t.findIndex name with
  | some j => exact .inl ⟨rfl, .inl rfl⟩
  | none =>
    rw [Option.isSome_none, if_neg Bool.false_ne_true]
    cases hfree : (List.range numDirEntries).find? fun i => !(t i).inUse with
    | none =>
      refine .inl ⟨rfl, .inr fun i hi hv => ?_⟩
      have hused := List.find?_eq_none.mp hfree i (List.mem_range.mpr hi)
      rw [(view_eq_none _).mp hv] at hused
      exact hused rfl
    | some i =>
      have hi := List.mem_range.mp (List.mem_of_find?_eq_some hfree)
      have hunused := List.find?_some hfree
      refine .inr ⟨_, i, rfl, hi, (view_eq_none _).mpr (by simpa using hunused),
        fun j hj s => findIndex_eq_none hf hj s, ?_, ?_, fun j hj => Function.update_of_ne hj _ _⟩
      · show (Function.update t i _ i).view = _
        rw [Function.update_self]
        show some (chars (strncpy (t i).name name fileNameMaxLen) 0 fileNameMaxLen, newSector) = _
        have hname : chars (strncpy (t i).name name fileNameMaxLen) 0 fileNameMaxLen =
            chars (charAt name) 0 fileNameMaxLen :=
          chars_congr fun j _ hj => if_pos (by simpa using hj)
        rw [hname, chars_charAt]
      · show (Function.update t i _ i).sector = _
        rw [Function.update_self]

/-- `Remove` takes the entry of the name out of use. -/
theorem remove_spec (h : t.findIndex name = some i) :
    ∃ t', t.remove name = some t' ∧ (t' i).view = none ∧ (t' i).sector = (t i).sector ∧
      ∀ j, j ≠ i → t' j = t j := by
  refine ⟨Function.update t i { t i with inUse := false }, ?_, ?_, ?_,
    fun j hj => Function.update_of_ne hj _ _⟩
  · unfold remove
    rw [h, Option.map_some]
  · rw [Function.update_self]
    exact (view_eq_none _).mpr rfl
  · rw [Function.update_self]

end Directory

end Nachos
