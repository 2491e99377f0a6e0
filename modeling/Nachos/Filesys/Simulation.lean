import Nachos.Filesys.FileMap
import Nachos.Filesys.Overflow

/-!
# The file system implements the map

`Sim s L m`: the session `s` has the layout `L`, the files of the layout hold the contents of the
map `m`, and the open files that have not been removed are those of the layout. Every allowed call
without an overflow returns, and is a step of the map with the same result (`perform_spec`); one
with an overflow is not (`fits_of_step`).
-/

namespace Nachos.Filesys

/-- The bytes of a file. -/
def FileRec.content (f : FileRec) (d : Disk) : List Byte :=
  (List.range f.length).map (fileByte d f.blocks)

theorem FileRec.length_content (f : FileRec) (d : Disk) : (f.content d).length = f.length := by
  rw [content, List.length_map, List.length_range]

theorem FileRec.getElem?_content (f : FileRec) (d : Disk) {k : ℕ} (hk : k < f.length) :
    (f.content d)[k]? = some (fileByte d f.blocks k) := by
  rw [content, List.getElem?_map, List.getElem?_range hk, Option.map_some]

namespace Layout

variable {L : Layout} {d d' : Disk} {i : ℕ} {f g : FileRec} {key : Name}

/-- The layout has a file of the name. -/
def At (L : Layout) (key : Name) (f : FileRec) : Prop :=
  ∃ i < numDirEntries, L.files i = some f ∧ f.key = key

theorem at_put_some (hi : i < numDirEntries) (hnone : L.files i = none) :
    (L.put i (some f)).At key g ↔ (key = f.key ∧ g = f) ∨ L.At key g := by
  constructor
  · rintro ⟨j, hj, hg, rfl⟩
    by_cases hji : j = i
    · subst hji
      rw [put_files_self] at hg
      cases hg
      exact .inl ⟨rfl, rfl⟩
    · rw [put_files_of_ne hji] at hg
      exact .inr ⟨j, hj, hg, rfl⟩
  · rintro (⟨rfl, rfl⟩ | ⟨j, hj, hg, rfl⟩)
    · exact ⟨i, hi, L.put_files_self i _, rfl⟩
    · refine ⟨j, hj, ?_, rfl⟩
      rw [put_files_of_ne]
      · exact hg
      · rintro rfl
        rw [hnone] at hg
        exact nomatch hg

theorem at_put_none (hv : L.Valid) (hi : i < numDirEntries) (hf : L.files i = some f) :
    (L.put i none).At key g ↔ key ≠ f.key ∧ L.At key g := by
  constructor
  · rintro ⟨j, hj, hg, rfl⟩
    by_cases hji : j = i
    · subst hji
      rw [put_files_self] at hg
      exact nomatch hg
    · rw [put_files_of_ne hji] at hg
      exact ⟨fun hkey => hji (hv.keys j hj i hi g f hg hf hkey), j, hj, hg, rfl⟩
  · rintro ⟨hne, j, hj, hg, rfl⟩
    refine ⟨j, hj, ?_, rfl⟩
    rw [put_files_of_ne]
    · exact hg
    · rintro rfl
      rw [hf] at hg
      cases hg
      exact hne rfl

/-- A name stands for one file. -/
theorem At.unique (hv : L.Valid) (hf : L.At key f) (hg : L.At key g) : f = g := by
  obtain ⟨i, hi, hf, hkf⟩ := hf
  obtain ⟨j, hj, hg, hkg⟩ := hg
  obtain rfl := hv.keys i hi j hj f g hf hg (hkf.trans hkg.symm)
  exact Option.some.inj (hf.symm.trans hg)

/-- The contents of a file are in its data sectors. -/
theorem At.content_congr (hv : L.Valid) (hf : L.At key f) (h : ∀ s ∈ f.blocks, d' s = d s) :
    f.content d' = f.content d := by
  obtain ⟨i, hi, hfile, -⟩ := hf
  refine List.map_congr_left fun k hk => ?_
  have hlt := (hv.extent hi hfile).lt (List.mem_range.mp hk)
  unfold fileByte
  rw [List.getD_eq_getElem _ _ hlt, h _ (List.getElem_mem hlt)]

theorem At.mem_used (hf : L.At key f) {s : ℕ} (hs : s ∈ f.blocks) : s ∈ L.used := by
  obtain ⟨i, hi, hfile, -⟩ := hf
  exact Layout.mem_used hi hfile (List.mem_cons_of_mem _ hs)

theorem At.notMem_system (hv : L.Valid) (hf : L.At key f) {s : ℕ} (hs : s ∈ f.blocks) :
    s ∉ L.system := by
  obtain ⟨i, hi, hfile, -⟩ := hf
  exact hv.notMem_system hi hfile (List.mem_cons_of_mem _ hs)

/-- Different files lie in different sectors. -/
theorem At.disjoint {key' : Name} (hv : L.Valid) (hf : L.At key f) (hg : L.At key' g)
    (hne : key ≠ key') {s : ℕ} (hs : s ∈ f.blocks) : s ∉ g.blocks := by
  obtain ⟨i, hi, hfile, rfl⟩ := hf
  obtain ⟨j, hj, hgfile, rfl⟩ := hg
  intro hs'
  obtain rfl := hv.eq_of_mem hi hj hfile hgfile (List.mem_cons_of_mem _ hs)
    (List.mem_cons_of_mem _ hs')
  rw [hfile] at hgfile
  cases hgfile
  exact hne rfl

end Layout

/-- A mark changes neither the name nor the position. -/
theorem Session.markRemoved_view (name : Name) (x : Handle) :
    ((markRemoved name x).key, (markRemoved name x).file.seekPosition) =
      (x.key, x.file.seekPosition) := by
  unfold markRemoved
  split_ifs <;> rfl

/-- The position is an offset. -/
def Handle.AtOffset (h : Handle) : Prop := 0 ≤ h.file.seekPosition ∧ h.file.seekPosition < 2 ^ 31

theorem Session.handle_atOffset {name : Name} {f : OpenFile} (h : f.seekPosition = 0) :
    (handle name f).AtOffset := by
  unfold Handle.AtOffset handle
  dsimp only
  omega

theorem Session.markRemoved_atOffset {name : Name} {x : Handle} (h : x.AtOffset) :
    (markRemoved name x).AtOffset := by
  have hview := congrArg Prod.snd (markRemoved_view name x)
  unfold Handle.AtOffset
  rw [show (markRemoved name x).file.seekPosition = _ from hview]
  exact h

structure Sim (s : Session) (L : Layout) (m : FileMap) : Prop where
  rep : s.fs.Rep L
  files : ∀ key c, m.files key = some c ↔ ∃ f, L.At key f ∧ f.content s.fs.disk = c
  handles : ∀ p, m.handles p = (s.handles p).map fun h => (h.key, h.file.seekPosition.toNat)
  offset : ∀ p h, s.handles p = some h → h.AtOffset
  live : ∀ p h, s.handles p = some h → h.removed = false →
    ∃ f, L.At h.key f ∧ h.file.hdr.Describes f.length f.blocks

namespace Sim

variable {s : Session} {L : Layout} {m : FileMap} {name : Name} {p : ℕ} {f : FileRec} {key : Name}

theorem files_of_at (h : Sim s L m) (hf : L.At key f) :
    m.files key = some (f.content s.fs.disk) := (h.files key _).mpr ⟨f, hf, rfl⟩

theorem files_eq_none (h : Sim s L m) : m.files key = none ↔ ∀ f, ¬ L.At key f := by
  constructor
  · intro hnone f hf
    rw [h.files_of_at hf] at hnone
    exact nomatch hnone
  · intro hnone
    rw [Option.eq_none_iff_forall_ne_some]
    intro c hc
    obtain ⟨f, hf, -⟩ := (h.files key c).mp hc
    exact hnone f hf

/-- The condition of `find_cases`. -/
theorem not_at (hkey : ∀ i < numDirEntries, ∀ f, L.files i = some f → f.key ≠ fileKey name) :
    ∀ f, ¬ L.At (fileKey name) f := by
  rintro f ⟨i, hi, hf, hk⟩
  exact hkey i hi f hf hk

/-- A client's variable is changed. -/
theorem setHandle (h : Sim s L m) {o : Option Handle} (hoffset : ∀ x, o = some x → x.AtOffset)
    (hlive : ∀ x, o = some x → x.removed = false →
      ∃ f, L.At x.key f ∧ x.file.hdr.Describes f.length f.blocks) :
    Sim (s.setHandle p o) L
      (m.setHandle p (o.map fun h => (h.key, h.file.seekPosition.toNat))) := by
  refine ⟨h.rep, h.files, fun q => ?_, fun q x hx => ?_, fun q x hx hr => ?_⟩
  · show Function.update m.handles p _ q = Option.map _ (Function.update s.handles p o q)
    by_cases hq : q = p
    · subst hq
      rw [Function.update_self, Function.update_self]
    · rw [Function.update_of_ne hq, Function.update_of_ne hq]
      exact h.handles q
  · replace hx : Function.update s.handles p o q = some x := hx
    by_cases hq : q = p
    · subst hq
      rw [Function.update_self] at hx
      exact hoffset x hx
    · rw [Function.update_of_ne hq] at hx
      exact h.offset q x hx
  · replace hx : Function.update s.handles p o q = some x := hx
    by_cases hq : q = p
    · subst hq
      rw [Function.update_self] at hx
      exact hlive x hx hr
    · rw [Function.update_of_ne hq] at hx
      exact h.live q x hx hr

/-- A slot of `openState` is changed. -/
theorem setState (h : Sim s L m) (o : ℕ → Option OpenFile) :
    Sim { s with fs := { s.fs with openState := o } } L m :=
  ⟨⟨h.rep.valid, h.rep.stored, h.rep.mapFile, h.rep.dirFile⟩, h.files, h.handles, h.offset,
    h.live⟩

/-! ## `Create` and `Remove` -/

theorem create (h : Sim s L m) (heap : Heap) (name : Name) {size : ℕ} (hsize : size ≤ maxFileSize) :
    ∃ r s' L' m', s.perform heap (.create name size) = some (r, s') ∧
      m.Step (.create name size) r m' ∧ Sim s' L' m' := by
  rw [Session.perform]
  rcases FileSystem.create_spec h.rep heap name hsize with ⟨hcreate, -⟩ |
    ⟨d', i, f, hcreate, hi, hnone, hkey, hlen, hnew, hfresh, hrep, hframe⟩
  · rw [hcreate]
    exact ⟨_, _, L, m, rfl, .createFails name size, h⟩
  rw [hcreate]
  have hcontent : ∀ key g, L.At key g → g.content d' = g.content s.fs.disk := by
    intro key g hg
    exact hg.content_congr h.rep.valid fun b hb =>
      hframe b (hg.mem_used hb) (hg.notMem_system h.rep.valid hb)
  refine ⟨_, _, L.put i (some f), m.setFile (fileKey name) (some (f.content d')), rfl,
    .create name size _ (h.files_eq_none.mpr (not_at hnew)) ((f.length_content d').trans hlen),
    hrep, fun key c => ?_, h.handles, h.offset, fun p x hx hr => ?_⟩
  · show _ ↔ ∃ g, (L.put i (some f)).At key g ∧ g.content d' = c
    simp only [Layout.at_put_some hi hnone, hkey]
    by_cases hk : key = fileKey name
    · subst hk
      rw [FileMap.setFile_files_self, Option.some.injEq]
      constructor
      · intro hc
        exact ⟨f, .inl ⟨rfl, rfl⟩, hc⟩
      · rintro ⟨g, ⟨-, rfl⟩ | hg, hc⟩
        · exact hc
        · exact absurd hg (not_at hnew g)
    · rw [FileMap.setFile_files_of_ne hk, h.files]
      constructor
      · rintro ⟨g, hg, hc⟩
        exact ⟨g, .inr hg, (hcontent key g hg).trans hc⟩
      · rintro ⟨g, ⟨heq, -⟩ | hg, hc⟩
        · exact absurd heq hk
        · exact ⟨g, hg, (hcontent key g hg).symm.trans hc⟩
  · obtain ⟨g, hg, hdesc⟩ := h.live p x hx hr
    exact ⟨g, (Layout.at_put_some hi hnone).mpr (.inr hg), hdesc⟩

theorem remove (h : Sim s L m) (heap : Heap) (name : Name) :
    ∃ r s' L' m', s.perform heap (.remove name) = some (r, s') ∧ m.Step (.remove name) r m' ∧
      Sim s' L' m' := by
  rw [Session.perform]
  rcases FileSystem.remove_spec h.rep heap name with ⟨hremove, hkey⟩ |
    ⟨d', i, f, hremove, hi, hfile, hkey, hrep, hframe⟩
  · rw [hremove]
    exact ⟨_, _, L, m, rfl, .removeFails name (h.files_eq_none.mpr (not_at hkey)), h⟩
  rw [hremove]
  have hat : L.At (fileKey name) f := ⟨i, hi, hfile, hkey⟩
  have hcontent : ∀ key g, L.At key g → g.content d' = g.content s.fs.disk := by
    intro key g hg
    exact hg.content_congr h.rep.valid fun b hb => hframe b (hg.notMem_system h.rep.valid hb)
  have hsome : m.files (fileKey name) ≠ none := by
    rw [h.files_of_at hat]
    exact nofun
  refine ⟨_, _, L.put i none, m.setFile (fileKey name) none, rfl, .remove name hsome,
    hrep, fun key c => ?_, fun p => ?_, fun p x hx => ?_, fun p x hx hr => ?_⟩
  · show _ ↔ ∃ g, (L.put i none).At key g ∧ g.content d' = c
    simp only [Layout.at_put_none h.rep.valid hi hfile, hkey]
    by_cases hk : key = fileKey name
    · subst hk
      rw [FileMap.setFile_files_self]
      constructor
      · exact nofun
      · rintro ⟨g, ⟨hne, -⟩, -⟩
        exact absurd rfl hne
    · rw [FileMap.setFile_files_of_ne hk, h.files]
      constructor
      · rintro ⟨g, hg, hc⟩
        exact ⟨g, ⟨hk, hg⟩, (hcontent key g hg).trans hc⟩
      · rintro ⟨g, ⟨-, hg⟩, hc⟩
        exact ⟨g, hg, (hcontent key g hg).symm.trans hc⟩
  · show m.handles p = Option.map _ ((s.handles p).map (Session.markRemoved name))
    rw [h.handles, Option.map_map]
    congr 1
    funext x
    exact congrArg (fun v : Name × ℤ => (v.1, v.2.toNat)) (Session.markRemoved_view name x).symm
  · obtain ⟨y, hy, rfl⟩ := Option.map_eq_some_iff.mp
      (show (s.handles p).map (Session.markRemoved name) = some x from hx)
    exact Session.markRemoved_atOffset (h.offset p y hy)
  · replace hx : (s.handles p).map (Session.markRemoved name) = some x := hx
    obtain ⟨y, hy, rfl⟩ := Option.map_eq_some_iff.mp hx
    unfold Session.markRemoved at hr ⊢
    split_ifs at hr ⊢ with hk
    obtain ⟨g, hg, hdesc⟩ := h.live p y hy hr
    refine ⟨g, (Layout.at_put_none h.rep.valid hi hfile).mpr ⟨?_, hg⟩, hdesc⟩
    rw [hkey]
    exact hk

/-! ## `Open` -/

/-- The variable gets the new file or `NULL`. -/
theorem opened (h : Sim s L m) (heap : Heap) (name : Name) (type : Option ℤ) (p : ℕ) :
    ∃ o, s.fs.openFile heap name type = some o ∧
      ((o = none ∧ m.files (fileKey name) = none ∧
          Sim (s.setHandle p none) L (m.setHandle p none)) ∨
        ∃ f, o = some f ∧ m.files (fileKey name) ≠ none ∧
          Sim (s.setHandle p (some (Session.handle name f))) L
            (m.setHandle p (some (fileKey name, 0)))) := by
  rcases FileSystem.openFile_spec h.rep heap name type with ⟨hopen, hkey⟩ |
    ⟨i, f, hdr, hi, hfile, hkey, hdesc, hopen⟩
  · exact ⟨_, hopen, .inl ⟨rfl, h.files_eq_none.mpr (not_at hkey), h.setHandle nofun nofun⟩⟩
  · have hat : L.At (fileKey name) f := ⟨i, hi, hfile, hkey⟩
    refine ⟨_, hopen, .inr ⟨_, rfl, ?_, h.setHandle (fun x hx => ?_) fun x hx _ => ?_⟩⟩
    · rw [h.files_of_at hat]
      exact nofun
    · cases hx
      exact Session.handle_atOffset rfl
    · cases hx
      exact ⟨f, hat, hdesc⟩

theorem openFile (h : Sim s L m) (heap : Heap) (name : Name) (p : ℕ) :
    ∃ r s' L' m', s.perform heap (.openFile name p) = some (r, s') ∧
      m.Step (.openFile name p) r m' ∧ Sim s' L' m' := by
  rw [Session.perform]
  obtain ⟨o, hopen, ⟨rfl, hnone, hsim⟩ | ⟨f, rfl, hsome, hsim⟩⟩ := h.opened heap name none p
  · rw [hopen]
    exact ⟨_, _, L, _, rfl, .openFails name p hnone, hsim⟩
  · rw [hopen]
    exact ⟨_, _, L, _, rfl, .openFile name p hsome, hsim⟩

theorem openType (h : Sim s L m) (heap : Heap) (name : Name) (type : ℤ) (p : ℕ)
    (hslot : s.fs.findFreeSlot ≠ none) :
    ∃ r s' L' m', s.perform heap (.openType name type p) = some (r, s') ∧
      m.Step (.openType name type p) r m' ∧ Sim s' L' m' := by
  obtain ⟨k, hk⟩ := Option.ne_none_iff_exists'.mp hslot
  have hfree : s.fs.openState k = none := by
    unfold FileSystem.findFreeSlot at hk
    have hnone := List.find?_some hk
    exact Option.isNone_iff_eq_none.mp hnone
  rw [Session.perform]
  obtain ⟨o, hopen, ⟨rfl, hnone, hsim⟩ | ⟨f, rfl, hsome, hsim⟩⟩ := h.opened heap name (some type) p
  · have htype : s.fs.openType heap name type = some (none, s.fs) := by
      unfold FileSystem.openType
      rw [hk, hopen]
      show some (s.fs.openState k, s.fs) = _
      rw [hfree]
    rw [htype]
    exact ⟨_, _, L, _, rfl, .openTypeFails name type p hnone, hsim⟩
  · have htype : s.fs.openType heap name type = some (some f, { s.fs with
        openState := Function.update s.fs.openState k (some f) }) := by
      unfold FileSystem.openType
      rw [hk, hopen]
      rfl
    rw [htype]
    exact ⟨_, _, L, _, rfl, .openType name type p hsome, hsim.setState _⟩

/-! ## The open files -/

/-- The file a live variable points to. -/
theorem of_live (h : Sim s L m) (hp : s.Live p) :
    ∃ x f, s.handles p = some x ∧ L.At x.key f ∧ x.file.hdr.Describes f.length f.blocks ∧
      m.handles p = some (x.key, x.file.seekPosition.toNat) ∧
      m.files x.key = some (f.content s.fs.disk) ∧ Extent f.length f.blocks := by
  obtain ⟨x, hx, hr⟩ := hp
  obtain ⟨f, hat, hdesc⟩ := h.live p x hx hr
  have ⟨i, hi, hfi, _⟩ := hat
  refine ⟨x, f, hx, hat, hdesc, ?_, h.files_of_at hat, h.rep.valid.extent hi hfi⟩
  rw [h.handles, hx, Option.map_some]

/-- What `ReadAt` returns. -/
theorem slice_content (f : FileRec) (d : Disk) (numBytes : ℤ) (position : ℕ) :
    (List.range (clip f.length numBytes position)).map (fun j => fileByte d f.blocks (position + j)) =
      FileMap.slice (f.content d) numBytes position := by
  refine List.ext_getElem ?_ fun k h₁ h₂ => ?_
  · rw [FileMap.slice, List.length_map, List.length_range, List.length_take, List.length_drop,
      FileRec.length_content]
    rfl
  · simp only [FileMap.slice, FileRec.content, List.getElem_map, List.getElem_range,
      List.getElem_take, List.getElem_drop]

/-- What `WriteAt` leaves. -/
theorem content_write {f : FileRec} {d d' : Disk} (source : ℕ → Byte) (numBytes : ℤ)
    (position : ℕ)
    (hbytes : ∀ offset < f.length, fileByte d' f.blocks offset =
      if position ≤ offset ∧ offset < position + clip f.length numBytes position then
        source (offset - position)
      else fileByte d f.blocks offset) :
    f.content d' = overwrite (f.content d) position
      (FileMap.data (f.content d) source numBytes position) := by
  have hfits := FileMap.data_fits (f.content d) source numBytes position
  have hdata : FileMap.data (f.content d) source numBytes position =
      (List.range (clip f.length numBytes position)).map source := by
    rw [FileMap.data, FileRec.length_content]
  refine List.ext_getElem? fun k => ?_
  rw [getElem?_overwrite hfits, FileMap.length_data, FileRec.length_content]
  rcases Nat.lt_or_ge k f.length with hk | hk
  · rw [f.getElem?_content d' hk, f.getElem?_content d hk, hbytes k hk]
    split_ifs with hin
    · rw [hdata, List.getElem?_map, List.getElem?_range (by omega), Option.map_some]
    · rfl
  · rw [if_neg, List.getElem?_eq_none, List.getElem?_eq_none]
    · rw [FileRec.length_content]
      exact hk
    · rw [FileRec.length_content]
      exact hk
    · unfold clip
      omega

theorem seek (h : Sim s L m) (hp : s.Live p) (heap : Heap) {position : ℤ} (h₀ : 0 ≤ position)
    (h₁ : position < 2 ^ 31) :
    ∃ r s' L' m', s.perform heap (.seek p position) = some (r, s') ∧
      m.Step (.seek p position) r m' ∧ Sim s' L' m' := by
  obtain ⟨x, f, hx, hat, hdesc, hm, hfile, -⟩ := h.of_live hp
  rw [Session.perform, hx]
  refine ⟨_, _, L, _, rfl, .seek position hm, h.setHandle (fun y hy => ?_) fun y hy _ => ?_⟩
  · cases hy
    exact ⟨h₀, h₁⟩
  · cases hy
    exact ⟨f, hat, hdesc⟩

/-- The variable after a request through it. -/
theorem moved (h : Sim s L m) {x : Handle} (hx : x.AtOffset) (hat : L.At x.key f)
    (hdesc : x.file.hdr.Describes f.length f.blocks) (he : Extent f.length f.blocks)
    (numBytes : ℤ) :
    Sim (s.setHandle p (some { x with file := x.file.seek (asInt (x.file.seekPosition +
        (clip f.length numBytes x.file.seekPosition.toNat : ℕ))) })) L
      (m.setHandle p (some (x.key, x.file.seekPosition.toNat +
        clip f.length numBytes x.file.seekPosition.toNat))) := by
  obtain ⟨h₀, h₁⟩ := hx
  have hlen : f.length ≤ 524288 := he.length_le
  have hclip : clip f.length numBytes x.file.seekPosition.toNat ≤
      f.length - x.file.seekPosition.toNat := Nat.min_le_right _ _
  rw [asInt_moved he h₀ h₁]
  have hpos : (x.file.seekPosition + (clip f.length numBytes x.file.seekPosition.toNat : ℕ)).toNat =
      x.file.seekPosition.toNat + clip f.length numBytes x.file.seekPosition.toNat := by omega
  rw [← hpos]
  refine h.setHandle (o := some _) (fun y hy => ?_) fun y hy _ => ?_
  · cases hy
    unfold Handle.AtOffset OpenFile.seek
    dsimp only
    omega
  · cases hy
    exact ⟨f, hat, hdesc⟩

theorem read (h : Sim s L m) (hp : s.Live p) (heap : Heap) {numBytes : ℤ}
    (hfits : s.Fits (.read p numBytes)) :
    ∃ r s' L' m', s.perform heap (.read p numBytes) = some (r, s') ∧
      m.Step (.read p numBytes) r m' ∧ Sim s' L' m' := by
  obtain ⟨x, f, hx, hat, hdesc, hm, hfile, he⟩ := h.of_live hp
  have hread := Indexed.readAt_spec hdesc he s.fs.disk heap.bytes (hfits x hx)
  have hlen : clip f.length numBytes x.file.seekPosition.toNat =
      (FileMap.slice (f.content s.fs.disk) numBytes x.file.seekPosition.toNat).length := by
    rw [← slice_content, List.length_map, List.length_range]
  rw [slice_content] at hread
  rw [Session.perform, hx]
  show ∃ r s' L' m', (Option.bind (x.file.read _ _ _) _) = _ ∧ _
  rw [OpenFile.read, hread, Option.map_some]
  have hmoved := h.moved (p := p) (h.offset p x hx) hat hdesc he numBytes
  rw [hlen] at hmoved
  exact ⟨_, _, L, _, rfl, .read numBytes hm hfile, hmoved⟩

theorem readAt (h : Sim s L m) (hp : s.Live p) (heap : Heap) {numBytes position : ℤ}
    (hfits : s.Fits (.readAt p numBytes position)) :
    ∃ r s' L' m', s.perform heap (.readAt p numBytes position) = some (r, s') ∧
      m.Step (.readAt p numBytes position) r m' ∧ Sim s' L' m' := by
  obtain ⟨x, f, hx, hat, hdesc, hm, hfile, he⟩ := h.of_live hp
  have hread := Indexed.readAt_spec hdesc he s.fs.disk heap.bytes (hfits x hx)
  rw [slice_content] at hread
  rw [Session.perform, hx]
  show ∃ r s' L' m', (Option.bind (Indexed.readAt _ _ _ _ _) _) = _ ∧ _
  rw [hread]
  exact ⟨_, _, L, _, rfl, .readAt numBytes position hm hfile, h⟩

/-- The contents of one file are changed. -/
theorem setDisk (h : Sim s L m) {d' : Disk} {c : List Byte} (hat : L.At key f)
    (hrep : FileSystem.Rep { s.fs with disk := d' } L)
    (hframe : ∀ b, b ∉ f.blocks → d' b = s.fs.disk b) (hc : f.content d' = c) :
    Sim (s.setDisk d') L (m.setFile key (some c)) := by
  refine ⟨hrep, fun key' c' => ?_, h.handles, h.offset, h.live⟩
  show _ ↔ ∃ g, L.At key' g ∧ g.content d' = c'
  by_cases hk : key' = key
  · subst hk
    rw [FileMap.setFile_files_self, Option.some.injEq]
    constructor
    · rintro rfl
      exact ⟨f, hat, hc⟩
    · rintro ⟨g, hg, rfl⟩
      rw [← hc, hat.unique h.rep.valid hg]
  · have hsame : ∀ g, L.At key' g → g.content d' = g.content s.fs.disk := by
      intro g hg
      exact hg.content_congr h.rep.valid fun b hb => hframe b (hg.disjoint h.rep.valid hat hk hb)
    rw [FileMap.setFile_files_of_ne hk, h.files]
    constructor
    · rintro ⟨g, hg, rfl⟩
      exact ⟨g, hg, hsame g hg⟩
    · rintro ⟨g, hg, rfl⟩
      exact ⟨g, hg, (hsame g hg).symm⟩

theorem write (h : Sim s L m) (hp : s.Live p) (heap : Heap) {source : ℕ → Byte} {numBytes : ℤ}
    (hfits : s.Fits (.write p source numBytes)) :
    ∃ r s' L' m', s.perform heap (.write p source numBytes) = some (r, s') ∧
      m.Step (.write p source numBytes) r m' ∧ Sim s' L' m' := by
  obtain ⟨x, f, hx, hat, hdesc, hm, hfile, he⟩ := h.of_live hp
  have ⟨i, hi, hfi, _⟩ := hat
  obtain ⟨d', hwrite, hrep, hframe, hbytes⟩ :=
    h.rep.writeAt hi hfi hdesc heap.bytes source (hfits x hx)
  have hstep := FileMap.Step.write source numBytes hm hfile
  rw [FileRec.length_content] at hstep
  rw [Session.perform, hx]
  show ∃ r s' L' m', (Option.bind (x.file.write _ _ _ _) _) = _ ∧ _
  rw [OpenFile.write, hwrite, Option.map_some]
  exact ⟨_, _, L, _, rfl, hstep, (h.setDisk hat hrep hframe
    (content_write source numBytes _ hbytes)).moved (h.offset p x hx) hat hdesc he numBytes⟩

theorem writeAt (h : Sim s L m) (hp : s.Live p) (heap : Heap) {source : ℕ → Byte}
    {numBytes position : ℤ} (hfits : s.Fits (.writeAt p source numBytes position)) :
    ∃ r s' L' m', s.perform heap (.writeAt p source numBytes position) = some (r, s') ∧
      m.Step (.writeAt p source numBytes position) r m' ∧ Sim s' L' m' := by
  obtain ⟨x, f, hx, hat, hdesc, hm, hfile, he⟩ := h.of_live hp
  have ⟨i, hi, hfi, _⟩ := hat
  obtain ⟨d', hwrite, hrep, hframe, hbytes⟩ :=
    h.rep.writeAt hi hfi hdesc heap.bytes source (hfits x hx)
  have hstep := FileMap.Step.writeAt source numBytes position hm hfile
  rw [FileRec.length_content] at hstep
  rw [Session.perform, hx]
  show ∃ r s' L' m', (Option.bind (Indexed.writeAt _ _ _ _ _ _) _) = _ ∧ _
  rw [hwrite]
  exact ⟨_, _, L, _, rfl, hstep,
    h.setDisk hat hrep hframe (content_write source numBytes position.toNat hbytes)⟩

/-- Every allowed call without an overflow returns, and is a step of the map. -/
theorem perform_spec (h : Sim s L m) {call : Call} (ha : s.Allowed call) (hf : s.Fits call)
    (heap : Heap) :
    ∃ r s' L' m', s.perform heap call = some (r, s') ∧ m.Step call r m' ∧ Sim s' L' m' := by
  cases call with
  | create name initialSize => exact h.create heap name ha
  | remove name => exact h.remove heap name
  | openFile name p => exact h.openFile heap name p
  | openType name type p => exact h.openType heap name type p ha
  | seek p position => exact h.seek ha.1 heap ha.2.1 ha.2.2
  | read p numBytes => exact h.read ha heap hf
  | readAt p numBytes position => exact h.readAt ha heap hf
  | write p source numBytes => exact h.write ha heap hf
  | writeAt p source numBytes position => exact h.writeAt ha heap hf
  | close p =>
    obtain ⟨x, hx⟩ := Option.ne_none_iff_exists'.mp ha
    rw [Session.perform, hx]
    refine ⟨_, _, L, _, rfl, .close ?_, h.setHandle nofun nofun⟩
    rw [h.handles, hx]
    exact nofun
  | clearSlot i => exact ⟨_, _, L, m, rfl, .clearSlot i, h.setState _⟩

/-! ## The converse -/

theorem length_slice_content (f : FileRec) (d : Disk) (numBytes : ℤ) (position : ℕ) :
    (FileMap.slice (f.content d) numBytes position).length = clip f.length numBytes position := by
  rw [← slice_content, List.length_map, List.length_range]

/-- The variable of the session behind one of the map. -/
theorem position_eq (h : Sim s L m) {x : Handle} {pos : ℕ} (hx : s.handles p = some x)
    (hm : m.handles p = some (key, pos)) : key = x.key ∧ pos = x.file.seekPosition.toNat := by
  rw [h.handles, hx, Option.map_some] at hm
  cases hm
  exact ⟨rfl, rfl⟩

section Fits

variable {x : Handle} {pos : ℕ} {content : List Byte} {heap : Heap} {numBytes position : ℤ}

/-- A read that returns the bytes of the interval fits. -/
theorem fits_of_slice (h : Sim s L m) (hp : s.Live p) (hx : s.handles p = some x)
    (hm : m.handles p = some (key, pos)) (hfile : m.files key = some content)
    (hn : numBytes < 2 ^ 31) (hpos : -2 ^ 31 ≤ position)
    (hread : Indexed.readAt x.file.hdr s.fs.disk heap.bytes numBytes position =
      some (FileMap.slice content numBytes position.toNat)) : x.file.hdr.Fits numBytes position := by
  obtain ⟨y, f, hy, -, hdesc, -, hcontent, he⟩ := h.of_live hp
  obtain rfl : x = y := Option.some.inj (hx.symm.trans hy)
  obtain ⟨rfl, -⟩ := h.position_eq hx hm
  obtain rfl : f.content s.fs.disk = content := Option.some.inj (hcontent.symm.trans hfile)
  by_contra hno
  have hlt := Indexed.readAt_of_not_fits hdesc he hn hpos hno hread
  rw [length_slice_content] at hlt
  exact Nat.lt_irrefl _ hlt

/-- So does a write that returns their number. -/
theorem fits_of_count (h : Sim s L m) (hp : s.Live p) (hx : s.handles p = some x)
    (hm : m.handles p = some (key, pos)) (hfile : m.files key = some content)
    (hn : numBytes < 2 ^ 31) (hpos : -2 ^ 31 ≤ position) {source : ℕ → Byte} {n : ℤ} {d : Disk}
    (hcount : n = clip content.length numBytes position.toNat)
    (hwrite : Indexed.writeAt x.file.hdr s.fs.disk heap.bytes source numBytes position =
      some (n, d)) : x.file.hdr.Fits numBytes position := by
  obtain ⟨y, f, hy, -, hdesc, -, hcontent, he⟩ := h.of_live hp
  obtain rfl : x = y := Option.some.inj (hx.symm.trans hy)
  obtain ⟨rfl, -⟩ := h.position_eq hx hm
  obtain rfl : f.content s.fs.disk = content := Option.some.inj (hcontent.symm.trans hfile)
  by_contra hno
  have hlt := Indexed.writeAt_of_not_fits hdesc he hn hpos hno hwrite
  rw [FileRec.length_content] at hcount
  omega

end Fits

/-- A request that is the step of the map fits. -/
theorem fits_of_step (h : Sim s L m) {call : Call} (ha : s.Allowed call) (hints : call.Ints)
    {heap : Heap} {r : Result} {s' : Session} (hp : s.perform heap call = some (r, s'))
    {m' : FileMap} (hstep : m.Step call r m') : s.Fits call := by
  have hoffset : ∀ p x, s.handles p = some x → -2 ^ 31 ≤ x.file.seekPosition := by
    intro p x hx
    have h₀ := (h.offset p x hx).1
    omega
  cases call with
  | read p numBytes =>
    obtain ⟨x, hx, hs⟩ := Option.bind_eq_some_iff.mp hp
    obtain ⟨⟨data, g⟩, hread, hs⟩ := Option.bind_eq_some_iff.mp hs
    obtain ⟨bytes, hbytes, hg⟩ := Option.map_eq_some_iff.mp hread
    cases hg
    cases hs
    cases hstep with
    | read _ hm hfile =>
      intro y hy
      obtain rfl : x = y := Option.some.inj (hx.symm.trans hy)
      obtain ⟨-, rfl⟩ := h.position_eq hx hm
      exact h.fits_of_slice ha hx hm hfile hints (hoffset p x hx) hbytes
  | readAt p numBytes position =>
    obtain ⟨x, hx, hs⟩ := Option.bind_eq_some_iff.mp hp
    obtain ⟨bytes, hbytes, hs⟩ := Option.bind_eq_some_iff.mp hs
    cases hs
    cases hstep with
    | readAt _ _ hm hfile =>
      intro y hy
      obtain rfl : x = y := Option.some.inj (hx.symm.trans hy)
      exact h.fits_of_slice ha hx hm hfile hints.1 hints.2 hbytes
  | write p source numBytes =>
    obtain ⟨x, hx, hs⟩ := Option.bind_eq_some_iff.mp hp
    obtain ⟨⟨n, g, d⟩, hwrite, hs⟩ := Option.bind_eq_some_iff.mp hs
    obtain ⟨⟨n', d'⟩, hcount, hg⟩ := Option.map_eq_some_iff.mp hwrite
    cases hg
    cases hs
    cases hstep with
    | write _ _ hm hfile =>
      intro y hy
      obtain rfl : x = y := Option.some.inj (hx.symm.trans hy)
      obtain ⟨-, rfl⟩ := h.position_eq hx hm
      exact h.fits_of_count ha hx hm hfile hints (hoffset p x hx) rfl hcount
  | writeAt p source numBytes position =>
    obtain ⟨x, hx, hs⟩ := Option.bind_eq_some_iff.mp hp
    obtain ⟨⟨n, d⟩, hcount, hs⟩ := Option.bind_eq_some_iff.mp hs
    cases hs
    cases hstep with
    | writeAt _ _ _ hm hfile =>
      intro y hy
      obtain rfl : x = y := Option.some.inj (hx.symm.trans hy)
      exact h.fits_of_count ha hx hm hfile hints.1 hints.2 rfl hcount
  | _ => trivial

end Sim

end Nachos.Filesys
