import Nachos.Test.FileCalls
import Nachos.Test.FileStack
import Mathlib.Tactic.IntervalCases

/-!
# The file system under the stack

`Models fs a` relates the open-file table and the host to the stack of open files. Each call that the
stack serves is served by the file system with the same reply, and the relation holds again.
-/

namespace Nachos

namespace Host

/-- What a name stands for. -/
def lookup (h : Host) (name : Name) : Option (List Byte) := (h.names name).map h.contents

/-- Every name is the only one of its file. -/
structure Plain (h : Host) : Prop where
  inode : ∀ name i, h.names name = some i → i < h.nextInode
  one : ∀ name name' i, h.names name = some i → h.names name' = some i → name = name'

end Host

namespace FileSystem

/-- What `Create` does: the file is there and empty, and nothing else changes. -/
structure Created (fs : FileSystem) (name : Name) (fs' : FileSystem) : Prop where
  openState : fs'.openState = fs.openState
  refuses : fs'.host.refuses = fs.host.refuses
  plain : fs'.host.Plain
  self : fs'.host.lookup name = some []
  others : ∀ name', name' ≠ name → fs'.host.lookup name' = fs.host.lookup name'
  names : ∀ name' i, fs.host.names name' = some i → fs'.host.names name' = some i
  fds : ∀ fd < fs.host.nextFd, fs'.host.fds fd = fs.host.fds fd
  nextFd : fs.host.nextFd ≤ fs'.host.nextFd

theorem create_eq {fs : FileSystem} {name : Name} (hr : fs.host.refuses name = false)
    (hp : fs.host.Plain) : ∃ fs', fs.create name = some fs' ∧ fs.Created name fs' := by
  -- the descriptor that was used is a new one
  have hfd : ∀ fd < fs.host.nextFd,
      Function.update fs.host.fds fs.host.nextFd none fd = fs.host.fds fd :=
    fun fd hfd => Function.update_of_ne (by omega) _ _
  cases hn : fs.host.names name with
  | some i =>
    have hcreate : fs.create name = some { fs with host := { fs.host with
        contents := Function.update fs.host.contents i []
        fds := Function.update fs.host.fds fs.host.nextFd none
        nextFd := fs.host.nextFd + 1 } } := by
      simp [create, Host.openForWrite, hr, hn, Host.newFd, Host.close, Host.setFd]
    refine ⟨_, hcreate, rfl, rfl, ⟨hp.inode, hp.one⟩, ?_, ?_, fun _ _ h => h, hfd, Nat.le_succ _⟩
    · show (fs.host.names name).map (Function.update fs.host.contents i []) = _
      rw [hn, Option.map_some, Function.update_self]
    · intro name' hne
      show (fs.host.names name').map (Function.update fs.host.contents i []) =
        (fs.host.names name').map fs.host.contents
      cases hn' : fs.host.names name' with
      | none => rfl
      | some j =>
        have hj : j ≠ i := by
          rintro rfl
          exact hne (hp.one _ _ _ hn' hn)
        rw [Option.map_some, Option.map_some, Function.update_of_ne hj]
  | none =>
    have hnew : ∀ name' j, Function.update fs.host.names name (some fs.host.nextInode) name' = some j →
        name' = name ∧ j = fs.host.nextInode ∨ name' ≠ name ∧ fs.host.names name' = some j := by
      intro name' j h
      by_cases hne : name' = name
      · rw [hne, Function.update_self, Option.some.injEq] at h
        exact Or.inl ⟨hne, h.symm⟩
      · rw [Function.update_of_ne hne] at h
        exact Or.inr ⟨hne, h⟩
    have hcreate : fs.create name = some { fs with host := { fs.host with
        names := Function.update fs.host.names name (some fs.host.nextInode)
        contents := Function.update fs.host.contents fs.host.nextInode []
        nextInode := fs.host.nextInode + 1
        fds := Function.update fs.host.fds fs.host.nextFd none
        nextFd := fs.host.nextFd + 1 } } := by
      simp [create, Host.openForWrite, hr, hn, Host.newFd, Host.close, Host.setFd]
    refine ⟨_, hcreate, rfl, rfl, ⟨?_, ?_⟩, ?_, ?_, ?_, hfd, Nat.le_succ _⟩
    · intro name' j h
      show j < fs.host.nextInode + 1
      rcases hnew name' j h with ⟨-, rfl⟩ | ⟨-, h⟩
      · exact Nat.lt_succ_self _
      · exact Nat.lt_succ_of_lt (hp.inode _ _ h)
    · intro name₁ name₂ j h₁ h₂
      rcases hnew name₁ j h₁ with ⟨hn₁, hj₁⟩ | ⟨-, hold₁⟩ <;>
        rcases hnew name₂ j h₂ with ⟨hn₂, hj₂⟩ | ⟨-, hold₂⟩
      · rw [hn₁, hn₂]
      · have := hp.inode _ _ hold₂
        omega
      · have := hp.inode _ _ hold₁
        omega
      · exact hp.one _ _ _ hold₁ hold₂
    · show (Function.update fs.host.names name _ name).map (Function.update fs.host.contents _ []) = _
      rw [Function.update_self, Option.map_some, Function.update_self]
    · intro name' hne
      show (Function.update fs.host.names name _ name').map (Function.update fs.host.contents _ []) =
        (fs.host.names name').map fs.host.contents
      rw [Function.update_of_ne hne]
      cases hn' : fs.host.names name' with
      | none => rfl
      | some j =>
        have := hp.inode _ _ hn'
        rw [Option.map_some, Option.map_some, Function.update_of_ne (by omega)]
    · intro name' j h
      show Function.update fs.host.names name _ name' = some j
      rw [Function.update_of_ne, h]
      rintro rfl
      rw [hn] at h
      cases h

theorem Created.tableInv {fs fs' : FileSystem} {name : Name} (h : fs.Created name fs')
    (ht : fs.TableInv) : fs'.TableInv := by
  have hnext := h.nextFd
  refine ⟨?_, ?_, ?_, ?_⟩
  · rw [h.openState]
    exact ht.stdin
  · rw [h.openState]
    exact ht.stdout
  · intro i f hf
    rw [h.openState] at hf
    exact (ht.used i f hf).trans_le hnext
  · rw [h.openState]
    exact ht.distinct

/-- What `Open` does: a new descriptor at the start of the file. -/
theorem openFile_eq {fs : FileSystem} {name : Name} {i : ℕ} (hr : fs.host.refuses name = false)
    (hn : fs.host.names name = some i) (type : ℤ) : fs.openFile name type =
      some ({ type := type, file := fs.host.nextFd, currentOffset := 0 },
        { fs with host := (fs.host.newFd i).2 }) := by
  unfold FileSystem.openFile Host.openForReadWrite
  rw [hr, if_neg (by decide), hn]
  rfl

end FileSystem

namespace Test

/-! ## The relation -/

theorem Data.get_set (d : Data) (bytes : List Byte) (f g : DataFile) :
    (d.set bytes f).get g = if g = f then some bytes else d.get g := by
  cases f <;> cases g <;> rfl

/-- An entry of the stack in the open-file table. -/
structure IsOpen (fs : FileSystem) (id : ℕ) (e : DataFile × ℕ) (o : OpenFile) (d : Descriptor) :
    Prop where
  slot : fs.openState id = some o
  descriptor : fs.host.fds o.file = some d
  name : fs.host.names e.1.name = some d.inode
  offset : d.offset = e.2
  current : 0 ≤ o.currentOffset
  notStdin : o.type ≠ 2
  notStdout : o.type ≠ 3

structure Models (fs : FileSystem) (a : FileStack) : Prop where
  table : fs.TableInv
  plain : fs.host.Plain
  accepts : ∀ f : DataFile, fs.host.refuses f.name = false
  data : ∀ f, fs.host.lookup f.name = a.data.get f
  small : a.stack.length ≤ 8
  slots : a.closed = false → ∀ j e, a.stack[j]? = some e → ∃ o d, IsOpen fs (j + 2) e o d
  free : a.closed = false → ∀ j, a.stack.length ≤ j → j < 8 → fs.openState (j + 2) = none

section Moves

variable {fs : FileSystem} {a : FileStack} {j q : ℕ} {f : DataFile} {o : OpenFile} {d : Descriptor}

theorem Models.moveTo (h : Models fs a) (ha : a.closed = false) {p : ℕ}
    (he : a.stack[j]? = some (f, p)) (ho : IsOpen fs (j + 2) (f, p) o d) :
    Models (fs.moveTo (j + 2) o d q) { a with stack := a.stack.set j (f, q) } := by
  have hj : j < a.stack.length := (List.getElem?_eq_some_iff.mp he).1
  have hkept : fs.Kept (fs.moveTo (j + 2) o d q) := FileSystem.Kept.of_setSlot ho.slot rfl rfl rfl
  refine ⟨h.table.kept hkept, ⟨h.plain.inode, h.plain.one⟩, h.accepts, h.data, ?_, ?_, ?_⟩
  · rw [List.length_set]
    exact h.small
  · intro _ i e hi
    rw [List.getElem?_set] at hi
    split_ifs at hi with hij
    · subst hij
      obtain rfl := Option.some.inj hi
      exact ⟨_, _, FileSystem.moveTo_slot .., FileSystem.moveTo_descriptor .., ho.name, rfl,
        Int.natCast_nonneg q, ho.notStdin, ho.notStdout⟩
    · -- another entry has another descriptor
      obtain ⟨o', d', ho'⟩ := h.slots ha i e hi
      have hne : o'.file ≠ o.file := fun heq =>
        hij (by have := h.table.distinct _ _ _ _ ho'.slot ho.slot heq; omega)
      refine ⟨o', d', ?_, ?_, ho'.name, ho'.offset, ho'.current, ho'.notStdin, ho'.notStdout⟩
      · exact (Function.update_of_ne (by omega) _ _).trans ho'.slot
      · exact (Function.update_of_ne hne _ _).trans ho'.descriptor
  · intro _ i hi h8
    rw [List.length_set] at hi
    exact (Function.update_of_ne (by omega) _ _).trans (h.free ha i hi h8)

theorem Models.setContents (h : Models fs a) {i : ℕ} (hn : fs.host.names f.name = some i)
    (bytes : List Byte) :
    Models (fs.setContents i bytes) { a with data := a.data.set bytes f } := by
  refine ⟨h.table.kept ⟨fun _ => rfl, rfl⟩, ⟨h.plain.inode, h.plain.one⟩, h.accepts, ?_, h.small, ?_,
    h.free⟩
  · intro g
    rw [Data.get_set]
    show (fs.host.names g.name).map (Function.update fs.host.contents i bytes) = _
    split_ifs with hg
    · rw [hg, hn, Option.map_some, Function.update_self]
    · rw [← h.data g]
      show _ = (fs.host.names g.name).map fs.host.contents
      cases hi : fs.host.names g.name with
      | none => rfl
      | some k =>
        have hk : k ≠ i := by
          rintro rfl
          exact hg (DataFile.name_inj (h.plain.one _ _ _ hi hn))
        rw [Option.map_some, Option.map_some, Function.update_of_ne hk]
  · intro ha k e hk
    obtain ⟨o, d, ho⟩ := h.slots ha k e hk
    exact ⟨o, d, ho.slot, ho.descriptor, ho.name, ho.offset, ho.current, ho.notStdin, ho.notStdout⟩

end Moves

/-! ## The calls -/

section Calls

variable {fs : FileSystem} {a a' : FileStack} {r : Reply}

/-- The open file with an id of the stack. -/
theorem Models.file (h : Models fs a) (ha : a.closed = false) {id : ℤ} {f : DataFile} {pos : ℕ}
    {bytes : List Byte} (hf : a.file id = some ((f, pos), bytes)) :
    ∃ (j : ℕ) (o : OpenFile) (d : Descriptor), id = (j : ℤ) + 2 ∧ j < 8 ∧
      a.stack[j]? = some (f, pos) ∧ IsOpen fs (j + 2) (f, pos) o d ∧ fs.host.contents d.inode = bytes := by
  obtain ⟨hid, hf⟩ := Option.ite_none_right_eq_some.mp hf
  obtain ⟨e, he, hf⟩ := Option.bind_eq_some_iff.mp hf
  obtain ⟨b, hb, hf⟩ := Option.bind_eq_some_iff.mp hf
  obtain ⟨rfl, rfl⟩ := Prod.mk.inj (Option.some.inj hf)
  obtain ⟨o, d, ho⟩ := h.slots ha _ _ he
  have hlt := (List.getElem?_eq_some_iff.mp he).1
  have hsmall := h.small
  refine ⟨(id - 2).toNat, o, d, by omega, by omega, he, ho, ?_⟩
  have hdata := h.data f
  unfold Host.lookup at hdata
  rw [ho.name, hb] at hdata
  exact Option.some.inj hdata

theorem withFile_isOpen {j : ℕ} {e : DataFile × ℕ} {o : OpenFile} {d : Descriptor}
    (ho : IsOpen fs (j + 2) e o d) (hj : j < 8) (go : OpenFile → Descriptor → Option Served) :
    withFile fs ((j : ℤ) + 2) go = go o d := by
  have hid : ((j : ℤ) + 2).toNat = j + 2 := by omega
  unfold withFile
  rw [if_neg (by omega), hid, ho.slot]
  dsimp only
  rw [ho.descriptor]
  rfl

theorem serve_read_isOpen {j : ℕ} {e : DataFile × ℕ} {o : OpenFile} {d : Descriptor}
    (ho : IsOpen fs (j + 2) e o d) (hj : j < 8) :
    Test.serve fs (.read ((j : ℤ) + 2)) = match (fs.rest d).head? with
      | none => some (.reply { value := -2, ch := none } (fs.moveTo (j + 2) o d d.offset))
      | some ch =>
        some (.reply { value := 1, ch := some ch } (fs.moveTo (j + 2) o d (d.offset + 1))) := by
  have hid : ((j : ℤ) + 2).toNat = j + 2 := by omega
  unfold Test.serve
  dsimp only
  rewrite [withFile_isOpen ho hj, if_neg ho.notStdout,
    if_neg (not_or.mpr ⟨ho.notStdin, by omega⟩), hid]
  rfl

theorem Models.serve_read (h : Models fs a) (ha : a.closed = false) {id : ℤ}
    (hs : a.serveOpen (.read id) = some (r, a')) :
    ∃ fs', serve fs (.read id) = some (.reply r fs') ∧ Models fs' a' := by
  obtain ⟨⟨⟨f, pos⟩, bytes⟩, hf, hs⟩ := Option.map_eq_some_iff.mp hs
  obtain ⟨j, o, d, rfl, hj, he, ho, hb⟩ := h.file ha hf
  have hidx : ((j : ℤ) + 2 - 2).toNat = j := by omega
  have hrest : (fs.rest d).head? = bytes[pos]? := by
    unfold FileSystem.rest
    rw [List.head?_drop, hb, ho.offset]
  rw [serve_read_isOpen ho hj, hrest]
  dsimp only at hs
  cases hch : bytes[pos]? with
  | none =>
    rw [hch] at hs
    obtain ⟨rfl, rfl⟩ := Prod.mk.inj hs
    refine ⟨_, rfl, ?_⟩
    have hmove := h.moveTo (q := d.offset) ha he ho
    have hsame : a.stack.set j (f, d.offset) = a.stack := by
      rw [ho.offset]
      obtain ⟨hlt, hget⟩ := List.getElem?_eq_some_iff.mp he
      rw [← hget]
      exact List.set_getElem_self hlt
    rwa [hsame] at hmove
  | some ch =>
    rw [hch] at hs
    obtain ⟨rfl, rfl⟩ := Prod.mk.inj hs
    refine ⟨_, rfl, ?_⟩
    have hmove := h.moveTo (q := d.offset + 1) ha he ho
    unfold FileStack.moveTo
    rw [hidx]
    rwa [ho.offset] at hmove ⊢

theorem overwrite_end (file new : List Byte) : Host.overwrite file file.length new = file ++ new := by
  unfold Host.overwrite
  split_ifs with h
  · rw [h, List.append_nil]
  · rw [Nat.sub_self, List.replicate_zero, List.append_nil, List.take_length,
      List.drop_eq_nil_of_le (Nat.le_add_right _ _), List.append_nil]

theorem Models.serve_write (h : Models fs a) (ha : a.closed = false) {new : List Byte} {id : ℤ}
    (hs : a.serveOpen (.write new id) = some (r, a')) :
    ∃ fs', serve fs (.write new id) = some (.reply r fs') ∧ Models fs' a' := by
  obtain ⟨⟨⟨f, pos⟩, bytes⟩, hf, hs⟩ := Option.bind_eq_some_iff.mp hs
  obtain ⟨⟨hpos, hne, hz⟩, hs⟩ := Option.ite_none_right_eq_some.mp hs
  obtain ⟨rfl, rfl⟩ := Prod.mk.inj (Option.some.inj hs)
  obtain ⟨j, o, d, rfl, hj, he, ho, hb⟩ := h.file ha hf
  have hid : ((j : ℤ) + 2).toNat = j + 2 := by omega
  have hidx : ((j : ℤ) + 2 - 2).toNat = j := by omega
  have hoff : d.offset = pos := ho.offset
  have hzero : zeroFilled new = new := by
    apply zeroFilled_eq_iff.mpr
    rintro k c ⟨i, hi, h0⟩ -
    exact absurd (List.mem_of_getElem? h0) hz
  have hfile : Host.overwrite (fs.host.contents d.inode) d.offset (zeroFilled new) = bytes ++ new := by
    rw [hzero, hb, hoff, hpos, overwrite_end]
  refine ⟨(fs.setContents d.inode (bytes ++ new)).moveTo (j + 2) o d (pos + new.length), ?_, ?_⟩
  · unfold Test.serve
    dsimp only
    rw [withFile_isOpen ho hj, if_neg ho.notStdin, if_neg (by
      rintro (h3 | h2 | h0)
      · exact ho.notStdout h3
      · omega
      · exact hne h0), hfile, hid, hoff]
  · have ho' : IsOpen (fs.setContents d.inode (bytes ++ new)) (j + 2) (f, pos) o d :=
      ⟨ho.slot, ho.descriptor, ho.name, ho.offset, ho.current, ho.notStdin, ho.notStdout⟩
    have hmove := (h.setContents ho.name (bytes ++ new)).moveTo (q := pos + new.length) ha he ho'
    unfold FileStack.moveTo
    rw [hidx]
    exact hmove

theorem Models.serve_seek (h : Models fs a) (ha : a.closed = false) {pos id : ℤ}
    (hs : a.serveOpen (.seek pos id) = some (r, a')) :
    ∃ fs', serve fs (.seek pos id) = some (.reply r fs') ∧ Models fs' a' := by
  obtain ⟨⟨⟨f, p⟩, bytes⟩, hf, hs⟩ := Option.bind_eq_some_iff.mp hs
  obtain ⟨j, o, d, rfl, hj, he, ho, hb⟩ := h.file ha hf
  have hid : ((j : ℤ) + 2).toNat = j + 2 := by omega
  have hidx : ((j : ℤ) + 2 - 2).toNat = j := by omega
  have hgo : Test.serve fs (.seek pos ((j : ℤ) + 2)) =
      if pos = -1 then some (.reply { value := (BitVec.ofNat 32 bytes.length).toInt, ch := none }
        (fs.moveTo (j + 2) o d bytes.length))
      else if pos < 0 then none
      else some (.reply { value := pos, ch := none } (fs.moveTo (j + 2) o d pos.toNat)) := by
    unfold Test.serve
    dsimp only
    rw [withFile_isOpen ho hj, if_neg (by omega), if_neg (not_or.mpr ⟨ho.notStdin, ho.notStdout⟩),
      if_neg (not_lt.mpr ho.current), hb, hid]
  rw [hgo]
  dsimp only at hs
  unfold FileStack.moveTo at hs
  rw [hidx] at hs
  by_cases hend : pos = -1
  · rw [if_pos hend] at hs ⊢
    obtain ⟨rfl, rfl⟩ := Prod.mk.inj (Option.some.inj hs)
    exact ⟨_, rfl, h.moveTo ha he ho⟩
  · rw [if_neg hend] at hs ⊢
    obtain ⟨rfl, hs⟩ := Option.ite_none_right_eq_some.mp hs
    obtain ⟨rfl, rfl⟩ := Prod.mk.inj (Option.some.inj hs)
    rw [if_neg (by decide)]
    exact ⟨_, rfl, h.moveTo ha he ho⟩

theorem Models.serve_create (h : Models fs a) {f : DataFile}
    (hs : a.serveOpen (.create f) = some (r, a')) :
    ∃ fs', serve fs (.create f) = some (.reply r fs') ∧ Models fs' a' := by
  obtain ⟨rfl, rfl⟩ := Prod.mk.inj (Option.some.inj hs)
  obtain ⟨fs', hcreate, hc⟩ := FileSystem.create_eq (h.accepts f) h.plain
  refine ⟨fs', Option.map_eq_some_iff.mpr ⟨fs', hcreate, rfl⟩, hc.tableInv h.table, hc.plain, ?_, ?_,
    h.small, ?_, ?_⟩
  · intro g
    rw [hc.refuses]
    exact h.accepts g
  · intro g
    rw [Data.get_set]
    split_ifs with hg
    · rw [hg]
      exact hc.self
    · rw [hc.others _ fun heq => hg (DataFile.name_inj heq)]
      exact h.data g
  · intro ha k e hk
    obtain ⟨o, d, ho⟩ := h.slots ha k e hk
    refine ⟨o, d, ?_, ?_, hc.names _ _ ho.name, ho.offset, ho.current, ho.notStdin, ho.notStdout⟩
    · rw [hc.openState]
      exact ho.slot
    · rw [hc.fds _ (h.table.used _ _ ho.slot)]
      exact ho.descriptor
  · intro ha k hk h8
    rw [hc.openState]
    exact h.free ha k hk h8

/-- The lowest free slot is the one above the stack. -/
theorem Models.findFreeSlot (h : Models fs a) (ha : a.closed = false) (h8 : a.stack.length < 8) :
    fs.findFreeSlot = some (a.stack.length + 2) := by
  have hused : ∀ j, j < a.stack.length → (fs.openState (j + 2)).isNone = false := by
    intro j hj
    obtain ⟨o, d, ho⟩ := h.slots ha j _ (List.getElem?_eq_getElem hj)
    rw [ho.slot]
    rfl
  have hfree : (fs.openState (a.stack.length + 2)).isNone = true := by
    rw [h.free ha _ le_rfl h8]
    rfl
  unfold FileSystem.findFreeSlot
  generalize a.stack.length = n at h8 hused hfree
  interval_cases n <;> simp [List.find?, hused, hfree]

theorem Models.serve_open (h : Models fs a) (ha : a.closed = false) {f : DataFile} {type : ℤ}
    (ht : type = 0 ∨ type = 1) (hs : a.serveOpen (.openFile f type) = some (r, a')) :
    ∃ fs', serve fs (.openFile f type) = some (.reply r fs') ∧ Models fs' a' := by
  obtain ⟨⟨h8, hsome⟩, hs⟩ := Option.ite_none_right_eq_some.mp hs
  obtain ⟨rfl, rfl⟩ := Prod.mk.inj (Option.some.inj hs)
  have hslot := h.findFreeSlot ha h8
  obtain ⟨i, hi⟩ : ∃ i, fs.host.names f.name = some i := by
    rw [← h.data f] at hsome
    unfold Host.lookup at hsome
    rw [Option.isSome_map] at hsome
    exact Option.isSome_iff_exists.mp hsome
  have hopen := FileSystem.openFile_eq (h.accepts f) hi type
  have htable := h.table.opened hslot hopen
  generalize hn : a.stack.length = n at h8 hslot htable
  refine ⟨_, ?_, htable, ⟨h.plain.inode, h.plain.one⟩, h.accepts, h.data, ?_, ?_, ?_⟩
  · unfold Test.serve
    dsimp only
    rw [if_pos ht, hslot]
    dsimp only
    rw [hopen]
    rfl
  · show (a.stack ++ [(f, 0)]).length ≤ 8
    rw [List.length_append, hn]
    exact h8
  · intro _ j e hj
    have hj : (a.stack ++ [(f, 0)])[j]? = some e := hj
    rcases Nat.lt_trichotomy j n with hlt | rfl | hgt
    · rw [List.getElem?_append_left (by omega)] at hj
      obtain ⟨o, d, ho⟩ := h.slots ha j e hj
      have hused := h.table.used _ _ ho.slot
      refine ⟨o, d, ?_, ?_, ho.name, ho.offset, ho.current, ho.notStdin, ho.notStdout⟩
      · exact (Function.update_of_ne (by omega) _ _).trans ho.slot
      · exact (Function.update_of_ne (by omega) _ _).trans ho.descriptor
    · rw [← hn, List.getElem?_concat_length, Option.some.injEq] at hj
      subst hj
      have htype : type ≠ 2 ∧ type ≠ 3 := by omega
      exact ⟨_, _, Function.update_self _ _ _, Function.update_self _ _ _, hi, rfl, le_rfl, htype.1,
        htype.2⟩
    · rw [List.getElem?_eq_none (by rw [List.length_append, List.length_singleton]; omega)] at hj
      cases hj
  · intro _ j hj hj8
    rw [List.length_append, List.length_singleton] at hj
    exact (Function.update_of_ne (by omega) _ _).trans (h.free ha j (by omega) hj8)

/-- Closing the file above the rest of the stack, or the last file. -/
theorem Models.serve_close (h : Models fs a) (ha : a.closed = false) {id : ℤ}
    (hs : a.serveOpen (.close id) = some (r, a')) :
    ∃ fs', serve fs (.close id) = some (.reply r fs') ∧ Models fs' a' := by
  have hsmall := h.small
  -- the slot is one of the stack
  have hclose : ∀ j : ℕ, j < a.stack.length → ∃ o d e, a.stack[j]? = some e ∧ IsOpen fs (j + 2) e o d ∧
      Test.serve fs (.close ((j : ℤ) + 2)) = some (.reply { value := 0, ch := none }
        ((fs.setHost (fs.host.setFd o.file none)).setSlot (j + 2) none)) ∧
      ((fs.setHost (fs.host.setFd o.file none)).setSlot (j + 2) none).TableInv := by
    intro j hj
    obtain ⟨o, d, ho⟩ := h.slots ha j _ (List.getElem?_eq_getElem hj)
    have hhost : fs.host.close o.file = some (fs.host.setFd o.file none) := by
      unfold Host.close
      rw [ho.descriptor]
    have hid : ((j : ℤ) + 2).toNat = j + 2 := by omega
    refine ⟨o, d, _, List.getElem?_eq_getElem hj, ho, ?_, h.table.closed (by omega) hhost⟩
    unfold Test.serve
    dsimp only
    rw [if_pos (by omega), hid, ho.slot]
    dsimp only
    rw [hhost]
    rfl
  unfold FileStack.serveOpen at hs
  dsimp only at hs
  by_cases hlast : 0 < a.stack.length ∧ id = 2
  · rw [if_pos hlast] at hs
    obtain ⟨rfl, rfl⟩ := Prod.mk.inj (Option.some.inj hs)
    obtain ⟨o, d, e, -, -, hserve, htable⟩ := hclose 0 hlast.1
    rw [hlast.2]
    exact ⟨_, hserve, htable, ⟨h.plain.inode, h.plain.one⟩, h.accepts, h.data, h.small, nofun, nofun⟩
  · rw [if_neg hlast] at hs
    obtain ⟨⟨hpos, hid⟩, hs⟩ := Option.ite_none_right_eq_some.mp hs
    obtain ⟨rfl, rfl⟩ := Prod.mk.inj (Option.some.inj hs)
    obtain ⟨o, d, e, he, ho, hserve, htable⟩ := hclose (a.stack.length - 1) (by omega)
    have hid : id = ((a.stack.length - 1 : ℕ) : ℤ) + 2 := by omega
    rw [hid]
    generalize hn : a.stack.length - 1 = n at *
    refine ⟨_, hserve, htable, ⟨h.plain.inode, h.plain.one⟩, h.accepts, h.data, ?_, ?_, ?_⟩
    · show a.stack.dropLast.length ≤ 8
      rw [List.length_dropLast]
      omega
    · intro _ j e' hj
      have hj : a.stack.dropLast[j]? = some e' := hj
      have hlt : j < n := by
        have := (List.getElem?_eq_some_iff.mp hj).1
        rw [List.length_dropLast] at this
        omega
      rw [List.getElem?_dropLast, if_pos (by omega)] at hj
      obtain ⟨o', d', ho'⟩ := h.slots ha j e' hj
      have hne : o'.file ≠ o.file := fun heq => by
        have := h.table.distinct _ _ _ _ ho'.slot ho.slot heq
        omega
      refine ⟨o', d', ?_, ?_, ho'.name, ho'.offset, ho'.current, ho'.notStdin, ho'.notStdout⟩
      · exact (Function.update_of_ne (by omega) _ _).trans ho'.slot
      · exact (Function.update_of_ne hne _ _).trans ho'.descriptor
    · intro _ j hj hj8
      rw [List.length_dropLast] at hj
      by_cases hjn : j = n
      · subst hjn
        exact Function.update_self _ _ _
      · exact (Function.update_of_ne (by omega) _ _).trans (h.free ha j (by omega) hj8)

/-- Every call that the stack serves. -/
theorem Models.serve (h : Models fs a) {c : UserCall}
    (ht : ∀ f type, c = .openFile f type → type = 0 ∨ type = 1) (hs : a.serve c = some (r, a')) :
    ∃ fs', serve fs c = some (.reply r fs') ∧ Models fs' a' := by
  obtain ⟨ha, hs⟩ := FileStack.serve_eq_some hs
  cases c with
  | create f => exact h.serve_create hs
  | openFile f type => exact h.serve_open ha (ht f type rfl) hs
  | close id => exact h.serve_close ha hs
  | read id => exact h.serve_read ha hs
  | write new id => exact h.serve_write ha hs
  | seek pos id => exact h.serve_seek ha hs
  | _ => cases hs

end Calls

/-! ## System start -/

/-- The files as the host has them. -/
def dataOf (h : Host) : Data where
  input := h.lookup DataFile.input.name
  output := h.lookup DataFile.output.name
  sinhvien := h.lookup DataFile.sinhvien.name
  voinuoc := h.lookup DataFile.voinuoc.name

theorem dataOf_get (h : Host) (f : DataFile) : (dataOf h).get f = h.lookup f.name := by
  cases f <;> rfl

theorem create_not_refused {fs fs' : FileSystem} {name : Name} (h : fs.create name = some fs') :
    fs.host.refuses name = false := by
  rw [Bool.eq_false_iff]
  intro hr
  unfold FileSystem.create Host.openForWrite at h
  rw [if_pos hr] at h
  cases h

theorem openFile_host {fs fs' : FileSystem} {name : Name} {type : ℤ} {f : OpenFile}
    (h : fs.openFile name type = some (f, fs')) : fs'.host.names = fs.host.names ∧
      fs'.host.contents = fs.host.contents ∧ fs'.host.nextInode = fs.host.nextInode ∧
      fs'.host.refuses = fs.host.refuses := by
  obtain ⟨⟨fd, host⟩, ho, h⟩ := Option.map_eq_some_iff.mp h
  obtain ⟨-, rfl⟩ := Prod.mk.inj h
  obtain ⟨-, ho⟩ := Option.ite_none_left_eq_some.mp ho
  obtain ⟨i, -, hfd⟩ := Option.map_eq_some_iff.mp ho
  obtain ⟨-, rfl⟩ := Prod.mk.inj hfd
  exact ⟨rfl, rfl, rfl, rfl⟩

/-- Nothing is open at the start, and the kernel's own files are others. -/
theorem models_new {h : Host} {fs : FileSystem} (hp : h.Plain)
    (hr : ∀ f : DataFile, h.refuses f.name = false) (hnew : FileSystem.new h = some fs) :
    Models fs ⟨[], dataOf h, false⟩ := by
  have htable := FileSystem.tableInv_of_init ⟨h, hnew⟩
  simp only [FileSystem.new, Option.bind_eq_bind, Option.bind_eq_some_iff, Option.pure_def,
    Option.some.injEq] at hnew
  obtain ⟨fs₁, hc₁, fs₂, hc₂, ⟨f₀, fs₃⟩, ho₁, ⟨f₁, fs₄⟩, ho₂, rfl⟩ := hnew
  obtain ⟨fs₁', hc₁', h₁⟩ := FileSystem.create_eq (create_not_refused hc₁) hp
  obtain rfl : fs₁ = fs₁' := Option.some.inj (hc₁.symm.trans hc₁')
  obtain ⟨fs₂', hc₂', h₂⟩ := FileSystem.create_eq (create_not_refused hc₂) h₁.plain
  obtain rfl : fs₂ = fs₂' := Option.some.inj (hc₂.symm.trans hc₂')
  have hhost : fs₄.host.names = fs₂.host.names ∧ fs₄.host.contents = fs₂.host.contents ∧
      fs₄.host.nextInode = fs₂.host.nextInode ∧ fs₄.host.refuses = fs₂.host.refuses := by
    obtain ⟨hn, hc, hi, hr⟩ := openFile_host ho₁
    obtain ⟨hn', hc', hi', hr'⟩ := openFile_host ho₂
    exact ⟨hn'.trans hn, hc'.trans hc, hi'.trans hi, hr'.trans hr⟩
  obtain ⟨hn, hc, hi, hrf⟩ := hhost
  refine ⟨htable, ⟨?_, ?_⟩, ?_, ?_, Nat.zero_le 8, ?_, ?_⟩
  · show ∀ name i, fs₄.host.names name = some i → i < fs₄.host.nextInode
    rw [hn, hi]
    exact h₂.plain.inode
  · show ∀ name name' i, fs₄.host.names name = some i → fs₄.host.names name' = some i → name = name'
    rw [hn]
    exact h₂.plain.one
  · intro f
    show fs₄.host.refuses f.name = false
    rw [hrf, h₂.refuses, h₁.refuses]
    exact hr f
  · intro f
    show (fs₄.host.names f.name).map fs₄.host.contents = _
    rw [hn, hc, dataOf_get]
    refine (h₂.others f.name ?_).trans (h₁.others f.name ?_)
    · cases f <;> decide
    · cases f <;> decide
  · intro _ j e hj
    cases hj
  · intro _ j _ _
    rfl

end Test

end Nachos
