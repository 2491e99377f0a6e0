import Nachos.Filesys.Session

/-!
# A map from names to arrays of bytes

What the file system is for: the contents of the files by name, and the position of each open file.
Names count up to `FileNameMaxLen` characters (`fileKey`). `Create` may fail, and gives a new file
any contents of the length asked for; everything else is determined. Positions are offsets.
-/

namespace Nachos.Filesys

/-- `new` in place of the bytes from `position` on. -/
def overwrite (content : List Byte) (position : ℕ) (new : List Byte) : List Byte :=
  content.take position ++ new ++ content.drop (position + new.length)

theorem overwrite_nil (content : List Byte) (position : ℕ) :
    overwrite content position [] = content := by
  rw [overwrite, List.append_nil, List.length_nil, Nat.add_zero, List.take_append_drop]

theorem length_overwrite {content new : List Byte} {position : ℕ}
    (h : new = [] ∨ position + new.length ≤ content.length) :
    (overwrite content position new).length = content.length := by
  rcases h with rfl | h
  · rw [overwrite_nil]
  · rw [overwrite, List.length_append, List.length_append, List.length_take, List.length_drop]
    omega

/-- The bytes of the file after a write. -/
theorem getElem?_overwrite {content new : List Byte} {position : ℕ}
    (h : new = [] ∨ position + new.length ≤ content.length) (k : ℕ) :
    (overwrite content position new)[k]? =
      if position ≤ k ∧ k < position + new.length then new[k - position]? else content[k]? := by
  rcases h with rfl | h
  · rw [overwrite_nil, List.length_nil, if_neg (by omega)]
  · have hlen : (content.take position).length = position := by
      rw [List.length_take]
      omega
    have hlen' : (content.take position ++ new).length = position + new.length := by
      rw [List.length_append, hlen]
    rw [overwrite]
    rcases Nat.lt_or_ge k position with h₁ | h₁
    · rw [if_neg (by omega), List.getElem?_append_left (by omega),
        List.getElem?_append_left (by omega), List.getElem?_take_of_lt h₁]
    · rcases Nat.lt_or_ge k (position + new.length) with h₂ | h₂
      · rw [if_pos ⟨h₁, h₂⟩, List.getElem?_append_left (by omega),
          List.getElem?_append_right (by omega), hlen]
      · rw [if_neg (by omega), List.getElem?_append_right (by omega), hlen', List.getElem?_drop]
        congr 1
        omega

/-- Two writes, one after the other. -/
theorem overwrite_append {content x y : List Byte} {position : ℕ}
    (h : position ≤ content.length) :
    overwrite (overwrite content position x) (position + x.length) y =
      overwrite content position (x ++ y) := by
  have hlen : (content.take position ++ x).length = position + x.length := by
    rw [List.length_append, List.length_take, Nat.min_eq_left h]
  have htake : (overwrite content position x).take (position + x.length) =
      content.take position ++ x := by
    rw [overwrite, List.take_append_of_le_length (Nat.le_of_eq hlen.symm), ← hlen, List.take_length]
  have hdrop : (overwrite content position x).drop (position + x.length + y.length) =
      content.drop (position + (x ++ y).length) := by
    rw [overwrite, ← List.drop_drop, ← hlen, List.drop_left, List.drop_drop, hlen,
      List.length_append, Nat.add_assoc]
  rw [overwrite, htake, hdrop, overwrite, List.append_assoc (content.take position) x y]

structure FileMap where
  files : Name → Option (List Byte)
  handles : ℕ → Option (Name × ℕ)

namespace FileMap

/-- The console files exist and are empty; no file is open. -/
def initial : FileMap where
  files := fun key => if key = FileSystem.stdin ∨ key = FileSystem.stdout then some [] else none
  handles := fun _ => none

def setFile (m : FileMap) (key : Name) (content : Option (List Byte)) : FileMap :=
  { m with files := Function.update m.files key content }

def setHandle (m : FileMap) (p : ℕ) (h : Option (Name × ℕ)) : FileMap :=
  { m with handles := Function.update m.handles p h }

/-- The bytes from `position` on, at most `numBytes` of them. -/
def slice (content : List Byte) (numBytes : ℤ) (position : ℕ) : List Byte :=
  (content.drop position).take numBytes.toNat

/-- The bytes that a write transfers. -/
def data (content : List Byte) (source : ℕ → Byte) (numBytes : ℤ) (position : ℕ) : List Byte :=
  (List.range (clip content.length numBytes position)).map source

/-- A call on the map, with its result. -/
inductive Step (m : FileMap) : Call → Result → FileMap → Prop
  | createFails (name : Name) (n : ℕ) : Step m (.create name n) (.bool false) m
  | create (name : Name) (n : ℕ) (content : List Byte) (hnew : m.files (fileKey name) = none)
      (hlen : content.length = n) :
      Step m (.create name n) (.bool true) (m.setFile (fileKey name) (some content))
  | removeFails (name : Name) (hnone : m.files (fileKey name) = none) :
      Step m (.remove name) (.bool false) m
  | remove (name : Name) (hfile : m.files (fileKey name) ≠ none) :
      Step m (.remove name) (.bool true) (m.setFile (fileKey name) none)
  | openFails (name : Name) (p : ℕ) (hnone : m.files (fileKey name) = none) :
      Step m (.openFile name p) (.bool false) (m.setHandle p none)
  | openFile (name : Name) (p : ℕ) (hfile : m.files (fileKey name) ≠ none) :
      Step m (.openFile name p) (.bool true) (m.setHandle p (some (fileKey name, 0)))
  | openTypeFails (name : Name) (type : ℤ) (p : ℕ) (hnone : m.files (fileKey name) = none) :
      Step m (.openType name type p) (.bool false) (m.setHandle p none)
  | openType (name : Name) (type : ℤ) (p : ℕ) (hfile : m.files (fileKey name) ≠ none) :
      Step m (.openType name type p) (.bool true) (m.setHandle p (some (fileKey name, 0)))
  | seek {p : ℕ} {key : Name} {pos : ℕ} (position : ℤ) (hp : m.handles p = some (key, pos)) :
      Step m (.seek p position) .void (m.setHandle p (some (key, position.toNat)))
  | read {p : ℕ} {key : Name} {pos : ℕ} {content : List Byte} (numBytes : ℤ)
      (hp : m.handles p = some (key, pos)) (hfile : m.files key = some content) :
      Step m (.read p numBytes) (.bytes (slice content numBytes pos))
        (m.setHandle p (some (key, pos + (slice content numBytes pos).length)))
  | readAt {p : ℕ} {key : Name} {pos : ℕ} {content : List Byte} (numBytes position : ℤ)
      (hp : m.handles p = some (key, pos)) (hfile : m.files key = some content) :
      Step m (.readAt p numBytes position) (.bytes (slice content numBytes position.toNat)) m
  | write {p : ℕ} {key : Name} {pos : ℕ} {content : List Byte} (source : ℕ → Byte) (numBytes : ℤ)
      (hp : m.handles p = some (key, pos)) (hfile : m.files key = some content) :
      Step m (.write p source numBytes) (.count (clip content.length numBytes pos))
        ((m.setFile key (some (overwrite content pos (data content source numBytes pos)))).setHandle p
          (some (key, pos + clip content.length numBytes pos)))
  | writeAt {p : ℕ} {key : Name} {pos : ℕ} {content : List Byte} (source : ℕ → Byte)
      (numBytes position : ℤ)
      (hp : m.handles p = some (key, pos)) (hfile : m.files key = some content) :
      Step m (.writeAt p source numBytes position)
        (.count (clip content.length numBytes position.toNat))
        (m.setFile key (some (overwrite content position.toNat
          (data content source numBytes position.toNat))))
  | close {p : ℕ} (hp : m.handles p ≠ none) : Step m (.close p) .void (m.setHandle p none)
  | clearSlot (i : ℕ) : Step m (.clearSlot i) .void m

/-- The calls and results, one after the other. -/
inductive Runs : FileMap → List (Call × Result) → FileMap → Prop
  | nil (m : FileMap) : Runs m [] m
  | cons {m m₁ m' : FileMap} {call : Call} {r : Result} {rest : List (Call × Result)}
      (hstep : Step m call r m₁) (hrest : Runs m₁ rest m') : Runs m ((call, r) :: rest) m'

/-- The file that a call may change. -/
def target (m : FileMap) : Call → Option Name
  | .create name _ => some (fileKey name)
  | .remove name => some (fileKey name)
  | .write p _ _ => (m.handles p).map Prod.fst
  | .writeAt p _ _ _ => (m.handles p).map Prod.fst
  | _ => none

variable {m m₁ m' : FileMap} {call : Call} {r : Result}

@[simp] theorem setFile_files_self (m : FileMap) (key : Name) (c : Option (List Byte)) :
    (m.setFile key c).files key = c := Function.update_self ..

theorem setFile_files_of_ne {key key' : Name} (h : key' ≠ key) (c : Option (List Byte)) :
    (m.setFile key c).files key' = m.files key' := Function.update_of_ne h ..

@[simp] theorem setHandle_files (m : FileMap) (p : ℕ) (h : Option (Name × ℕ)) :
    (m.setHandle p h).files = m.files := rfl

@[simp] theorem setHandle_handles_self (m : FileMap) (p : ℕ) (h : Option (Name × ℕ)) :
    (m.setHandle p h).handles p = h := Function.update_self ..

/-! ## Laws of the map -/

theorem length_data (content : List Byte) (source : ℕ → Byte) (numBytes : ℤ) (position : ℕ) :
    (data content source numBytes position).length = clip content.length numBytes position := by
  rw [data, List.length_map, List.length_range]

/-- A write does not go past the end of the file. -/
theorem data_fits (content : List Byte) (source : ℕ → Byte) (numBytes : ℤ) (position : ℕ) :
    data content source numBytes position = [] ∨
      position + (data content source numBytes position).length ≤ content.length := by
  rw [← List.length_eq_zero_iff, length_data]
  unfold clip
  omega

/-- No other file changes. -/
theorem Step.frame (h : Step m call r m') {key : Name} (hkey : m.target call ≠ some key) :
    m'.files key = m.files key := by
  cases h with
  | create name n content hnew hlen =>
    exact setFile_files_of_ne (fun heq => hkey (congrArg some heq.symm)) _
  | remove name hfile => exact setFile_files_of_ne (fun heq => hkey (congrArg some heq.symm)) _
  | write source numBytes hp hfile =>
    rw [target, hp] at hkey
    exact setFile_files_of_ne (fun heq => hkey (congrArg some heq.symm)) _
  | writeAt source numBytes position hp hfile =>
    rw [target, hp] at hkey
    exact setFile_files_of_ne (fun heq => hkey (congrArg some heq.symm)) _
  | _ => rfl

/-- A file keeps its length. -/
theorem Step.length_eq (h : Step m call r m') {key : Name} {c c' : List Byte}
    (hc : m.files key = some c) (hc' : m'.files key = some c') : c'.length = c.length := by
  by_cases hkey : m.target call = some key
  swap
  · rw [h.frame hkey, hc] at hc'
    rw [Option.some.inj hc']
  cases h with
  | createFails name n =>
    rw [hc] at hc'
    rw [Option.some.inj hc']
  | create name n content hnew hlen =>
    obtain rfl : fileKey name = key := Option.some.inj hkey
    rw [hc] at hnew
    exact nomatch hnew
  | removeFails name hnone =>
    rw [hc] at hc'
    rw [Option.some.inj hc']
  | remove name hfile =>
    obtain rfl : fileKey name = key := Option.some.inj hkey
    rw [setFile_files_self] at hc'
    exact nomatch hc'
  | @write p key' pos content source numBytes hp hfile =>
    rw [target, hp] at hkey
    obtain rfl : key' = key := Option.some.inj hkey
    rw [setHandle_files, setFile_files_self] at hc'
    rw [hfile] at hc
    rw [← Option.some.inj hc, ← Option.some.inj hc']
    exact length_overwrite (data_fits ..)
  | @writeAt p key' pos content source numBytes position hp hfile =>
    rw [target, hp] at hkey
    obtain rfl : key' = key := Option.some.inj hkey
    rw [setFile_files_self] at hc'
    rw [hfile] at hc
    rw [← Option.some.inj hc, ← Option.some.inj hc']
    exact length_overwrite (data_fits ..)
  | _ => exact nomatch hkey

/-! ## Writing in pieces -/

/-- `Write(chunk, length of chunk)` -/
def writeChunk (p : ℕ) (chunk : List Byte) : Call :=
  .write p (fun k => chunk.getD k 0) chunk.length

theorem data_chunk (content chunk : List Byte) (position : ℕ) :
    data content (fun k => chunk.getD k 0) chunk.length position =
      chunk.take (content.length - position) := by
  refine List.ext_getElem ?_ fun i h₁ h₂ => ?_
  · rw [length_data, List.length_take]
    unfold clip
    omega
  · rw [List.length_take] at h₂
    simp only [data]
    rw [List.getElem_map, List.getElem_range, List.getElem_take,
      List.getD_eq_getElem _ _ (by omega)]

/-- The file and the position after a chunk has been written. -/
def putChunk (m : FileMap) (p : ℕ) (key : Name) (content : List Byte) (pos : ℕ)
    (chunk : List Byte) : FileMap :=
  (m.setFile key (some (overwrite content pos (chunk.take (content.length - pos))))).setHandle p
    (some (key, pos + (chunk.take (content.length - pos)).length))

theorem step_writeChunk_iff {p : ℕ} {chunk : List Byte} :
    Step m (writeChunk p chunk) r m' ↔ ∃ key pos content, m.handles p = some (key, pos) ∧
      m.files key = some content ∧ r = .count (chunk.take (content.length - pos)).length ∧
      m' = m.putChunk p key content pos chunk := by
  have hclip : ∀ (content : List Byte) (pos : ℕ), clip content.length chunk.length pos =
      (chunk.take (content.length - pos)).length := by
    intro content pos
    rw [← data_chunk, length_data]
  constructor
  · intro h
    unfold writeChunk at h
    cases h with
    | @write _ key pos content _ _ hp hfile =>
      refine ⟨key, pos, content, hp, hfile, congrArg (fun n : ℕ => Result.count n) (hclip content pos), ?_⟩
      rw [data_chunk, hclip]
      rfl
  · rintro ⟨key, pos, content, hp, hfile, rfl, rfl⟩
    have h := Step.write (fun k => chunk.getD k 0) chunk.length hp hfile
    rw [data_chunk, hclip] at h
    exact h

/-- A chunk that is written in two pieces. -/
theorem putChunk_append (m : FileMap) (p : ℕ) (key : Name) (content : List Byte) (pos : ℕ)
    (x y : List Byte) :
    (m.putChunk p key content pos x).putChunk p key
        (overwrite content pos (x.take (content.length - pos)))
        (pos + (x.take (content.length - pos)).length) y =
      m.putChunk p key content pos (x ++ y) := by
  have hlen : (overwrite content pos (x.take (content.length - pos))).length = content.length := by
    refine length_overwrite ?_
    rw [← List.length_eq_zero_iff, List.length_take]
    omega
  have htake : (x ++ y).take (content.length - pos) = x.take (content.length - pos) ++
      y.take (content.length - (pos + (x.take (content.length - pos)).length)) := by
    rw [List.take_append]
    congr 2
    rw [List.length_take]
    omega
  have hover : overwrite (overwrite content pos (x.take (content.length - pos)))
      (pos + (x.take (content.length - pos)).length)
      (y.take (content.length - (pos + (x.take (content.length - pos)).length))) =
      overwrite content pos ((x ++ y).take (content.length - pos)) := by
    rw [htake]
    rcases Nat.le_total pos content.length with hle | hge
    · exact overwrite_append hle
    · rw [Nat.sub_eq_zero_of_le hge, List.take_zero, overwrite_nil, List.length_nil, Nat.add_zero,
        Nat.sub_eq_zero_of_le hge, List.take_zero, List.append_nil]
  unfold putChunk
  rw [hlen, hover]
  have hpos : pos + (x.take (content.length - pos)).length +
      (y.take (content.length - (pos + (x.take (content.length - pos)).length))).length =
      pos + ((x ++ y).take (content.length - pos)).length := by
    rw [htake, List.length_append, Nat.add_assoc]
  rw [hpos]
  unfold setFile setHandle
  simp only [Function.update_idem]

/-- However a text is cut into chunks, writing them one after the other is writing the text. -/
theorem Runs.chunks {p : ℕ} {chunks : List (List Byte)} {events : List (Call × Result)}
    {m'' : FileMap} (hevents : events.map Prod.fst = chunks.map (writeChunk p))
    (hruns : Runs m events m') (hwhole : Step m (writeChunk p chunks.flatten) r m'') :
    m' = m'' := by
  induction chunks generalizing m events r with
  | nil =>
    rw [List.map_nil, List.map_eq_nil_iff] at hevents
    subst hevents
    cases hruns
    obtain ⟨key, pos, content, hp, hfile, -, rfl⟩ := step_writeChunk_iff.mp hwhole
    unfold putChunk
    rw [List.flatten_nil, List.take_nil, overwrite_nil, List.length_nil, Nat.add_zero, ← hfile, ← hp]
    unfold setFile setHandle
    simp only [Function.update_eq_self]
  | cons chunk chunks ih =>
    cases hruns with
    | nil => exact nomatch hevents
    | @cons _ m₁ _ call r₁ rest hstep hrest =>
      obtain ⟨rfl, hrestEvents⟩ := List.cons.inj hevents
      obtain ⟨key, pos, content, hp, hfile, -, rfl⟩ := step_writeChunk_iff.mp hstep
      obtain ⟨key', pos', content', hp', hfile', -, rfl⟩ := step_writeChunk_iff.mp hwhole
      rw [hp, Option.some.injEq, Prod.mk.injEq] at hp'
      obtain ⟨rfl, rfl⟩ := hp'
      obtain rfl : content = content' := Option.some.inj (hfile.symm.trans hfile')
      have hp₁ : (m.putChunk p key content pos chunk).handles p =
          some (key, pos + (chunk.take (content.length - pos)).length) := setHandle_handles_self ..
      have hfile₁ : (m.putChunk p key content pos chunk).files key =
          some (overwrite content pos (chunk.take (content.length - pos))) := setFile_files_self ..
      refine ih hrestEvents hrest (step_writeChunk_iff.mpr ⟨key, _, _, hp₁, hfile₁, rfl, ?_⟩)
      rw [List.flatten_cons, ← putChunk_append]

end FileMap

end Nachos.Filesys
