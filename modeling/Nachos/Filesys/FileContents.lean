import Nachos.Filesys.Consistency

/-!
# The contents of the files

A session in which files are removed only while they are not open, and in which no request
overflows, is a run of the map from names to arrays of bytes, with the same results. The map is what
is found on the disk (`lookup`).
-/

namespace Nachos.Filesys

/-- No open file has the name. -/
def Session.NotOpen (s : Session) (name : Name) : Prop :=
  ∀ p h, s.handles p = some h → h.key ≠ fileKey name

/-- The calls of a session: files are removed only while they are not open, a `Seek` is to an
offset, and no pointer that is used is `NULL`. -/
def Session.Proper (s : Session) : Call → Prop
  | .create _ initialSize => initialSize ≤ maxFileSize
  | .openType .. => s.fs.findFreeSlot ≠ none
  | .seek p position => s.handles p ≠ none ∧ 0 ≤ position ∧ position < 2 ^ 31
  | .read p _ | .readAt p _ _ | .write p _ _ | .writeAt p _ _ _ | .close p => s.handles p ≠ none
  | .remove name => s.NotOpen name
  | .openFile .. | .clearSlot _ => True

/-- A call of a session without an overflow. -/
abbrev Session.Sound (s : Session) (e : Event) : Prop := s.Proper e.call ∧ s.Fits e.call

/-- The file that a call may change. -/
def Session.target (s : Session) : Call → Option Name
  | .create name _ => some (fileKey name)
  | .remove name => some (fileKey name)
  | .write p _ _ => (s.handles p).map Handle.key
  | .writeAt p _ _ _ => (s.handles p).map Handle.key
  | _ => none

/-- No open file has been removed. -/
def Session.Intact (s : Session) : Prop := ∀ p h, s.handles p = some h → h.removed = false

namespace Session

variable {s s' : Session} {call : Call} {e : Event} {r : Result}

theorem Proper.allowed (h : s.Proper call) (hi : s.Intact) : s.Allowed call := by
  have hlive : ∀ p, s.handles p ≠ none → s.Live p := by
    intro p hp
    obtain ⟨x, hx⟩ := Option.ne_none_iff_exists'.mp hp
    exact ⟨x, hx, hi p x hx⟩
  cases call with
  | seek p position => exact ⟨hlive p h.1, h.2⟩
  | read p numBytes => exact hlive p h
  | readAt p numBytes position => exact hlive p h
  | write p source numBytes => exact hlive p h
  | writeAt p source numBytes position => exact hlive p h
  | remove name => trivial
  | _ => exact h

/-- A variable is given a file that is not removed, or `NULL`. -/
theorem Intact.setHandle (hi : s.Intact) (p : ℕ) {o : Option Handle}
    (ho : ∀ h, o = some h → h.removed = false) : (s.setHandle p o).Intact := by
  intro q x hx
  replace hx : Function.update s.handles p o q = some x := hx
  by_cases hq : q = p
  · subst hq
    rw [Function.update_self] at hx
    exact ho x hx
  · rw [Function.update_of_ne hq] at hx
    exact hi q x hx

/-- A mark leaves the files of other names alone. -/
theorem markRemoved_of_ne {name : Name} {x : Handle} (h : x.key ≠ fileKey name) :
    markRemoved name x = x := if_neg h

theorem Intact.handle (name : Name) (o : Option OpenFile) :
    ∀ h, o.map (handle name) = some h → h.removed = false := by
  rintro h ho
  obtain ⟨f, -, rfl⟩ := Option.map_eq_some_iff.mp ho
  rfl

theorem Intact.perform (hi : s.Intact) (h : s.Proper call) {heap : Heap}
    (hp : s.perform heap call = some (r, s')) : s'.Intact := by
  cases call with
  | create name initialSize =>
    obtain ⟨⟨success, fs⟩, -, hs⟩ := Option.bind_eq_some_iff.mp hp
    cases hs
    exact hi
  | remove name =>
    obtain ⟨⟨success, fs⟩, -, hs⟩ := Option.bind_eq_some_iff.mp hp
    cases hs
    intro p x hx
    cases success with
    | false => exact hi p x hx
    | true =>
      obtain ⟨y, hy, rfl⟩ := Option.map_eq_some_iff.mp hx
      rw [markRemoved_of_ne (h p y hy)]
      exact hi p y hy
  | openFile name p =>
    obtain ⟨o, -, hs⟩ := Option.bind_eq_some_iff.mp hp
    cases hs
    exact hi.setHandle p (Intact.handle name o)
  | openType name type p =>
    obtain ⟨⟨o, fs⟩, -, hs⟩ := Option.bind_eq_some_iff.mp hp
    cases hs
    have hi' : Intact { s with fs := fs } := hi
    exact hi'.setHandle p (Intact.handle name o)
  | seek p position =>
    obtain ⟨x, hx, hs⟩ := Option.bind_eq_some_iff.mp hp
    cases hs
    refine hi.setHandle p fun y hy => ?_
    cases hy
    exact hi p x hx
  | read p numBytes =>
    obtain ⟨x, hx, hs⟩ := Option.bind_eq_some_iff.mp hp
    obtain ⟨⟨data, f⟩, -, hs⟩ := Option.bind_eq_some_iff.mp hs
    cases hs
    refine hi.setHandle p fun y hy => ?_
    cases hy
    exact hi p x hx
  | readAt p numBytes position =>
    obtain ⟨x, hx, hs⟩ := Option.bind_eq_some_iff.mp hp
    obtain ⟨data, -, hs⟩ := Option.bind_eq_some_iff.mp hs
    cases hs
    exact hi
  | write p source numBytes =>
    obtain ⟨x, hx, hs⟩ := Option.bind_eq_some_iff.mp hp
    obtain ⟨⟨n, f, d⟩, -, hs⟩ := Option.bind_eq_some_iff.mp hs
    cases hs
    have hi' : (s.setDisk d).Intact := hi
    refine hi'.setHandle p fun y hy => ?_
    cases hy
    exact hi p x hx
  | writeAt p source numBytes position =>
    obtain ⟨x, hx, hs⟩ := Option.bind_eq_some_iff.mp hp
    obtain ⟨⟨n, d⟩, -, hs⟩ := Option.bind_eq_some_iff.mp hs
    cases hs
    exact hi
  | close p =>
    obtain ⟨x, hx, hs⟩ := Option.bind_eq_some_iff.mp hp
    cases hs
    exact hi.setHandle p nofun
  | clearSlot i =>
    cases hp
    exact hi

end Session

/-! ## Runs -/

variable {s s' : Session} {L : Layout} {m : FileMap} {events : List Event}

/-- The map is what is on the disk. -/
theorem Sim.lookup (h : Sim s L m) (name : Name) : lookup s.fs.disk name = m.files (fileKey name) := by
  refine Option.ext fun c => ?_
  rw [h.rep.stored.lookup_eq_some h.rep.valid, h.files]

/-- The calls and results of a session. -/
def observed (events : List Event) : List (Call × Result) := events.map fun e => (e.call, e.result)

theorem Sim.runs (h : Sim s L m) (hi : s.Intact)
    (ha : Run.Admits Session.step Session.Sound s events)
    (he : Run.exec Session.step s events = some s') :
    ∃ L' m', m.Runs (observed events) m' ∧ Sim s' L' m' ∧ s'.Intact := by
  induction events generalizing s L m with
  | nil =>
    obtain rfl : s = s' := Option.some.inj he
    exact ⟨L, m, .nil m, h, hi⟩
  | cons e events ih =>
    obtain ⟨s₁, hs, he'⟩ := Run.exec_cons_eq_some.mp he
    obtain ⟨⟨hproper, hfits⟩, hrest⟩ := ha
    obtain ⟨L₁, m₁, hstep, hsim⟩ := h.step (hproper.allowed hi) hfits hs
    have hi₁ := hi.perform hproper (Session.step_eq_some.mp hs)
    obtain ⟨L', m', hruns, hsim', hi'⟩ := ih hsim hi₁ (hrest s₁ hs) he'
    exact ⟨L', m', .cons hstep hruns, hsim', hi'⟩

/-- The file that a call may change, in the terms of the map. -/
theorem Sim.target (h : Sim s L m) (call : Call) : m.target call = s.target call := by
  cases call with
  | write p source numBytes =>
    rw [FileMap.target, Session.target, h.handles, Option.map_map]
    rfl
  | writeAt p source numBytes position =>
    rw [FileMap.target, Session.target, h.handles, Option.map_map]
    rfl
  | _ => rfl

/-- `Write` of a chunk through the variable `p`. -/
def Event.IsWrite (p : ℕ) (chunk : List Byte) (e : Event) : Prop :=
  e.call = FileMap.writeChunk p chunk

theorem observed_writes {p : ℕ} {chunks : List (List Byte)} {writes : List Event}
    (h : List.Forall₂ (Event.IsWrite p) chunks writes) :
    (observed writes).map Prod.fst = chunks.map (FileMap.writeChunk p) := by
  induction h with
  | nil => rfl
  | cons hw _ ih =>
    rw [observed, List.map_cons, List.map_cons, List.map_cons, ← ih, ← hw]
    rfl

/-- A write that returns was through a pointer to a file. -/
theorem Event.IsWrite.proper {p : ℕ} {chunk : List Byte} {e : Event} (h : e.IsWrite p chunk)
    (hs : s.step e = some s') : s.Proper e.call := by
  rw [Session.step_eq_some, h] at hs
  obtain ⟨x, hx, -⟩ := Option.bind_eq_some_iff.mp hs
  rw [h]
  show s.handles p ≠ none
  rw [hx]
  exact nofun

theorem admits_writes {p : ℕ} {chunks : List (List Byte)} {writes : List Event}
    (h : List.Forall₂ (Event.IsWrite p) chunks writes)
    (ha : Run.Admits Session.step (fun s e => s.Fits e.call) s writes)
    (he : Run.exec Session.step s writes = some s') :
    Run.Admits Session.step Session.Sound s writes := by
  induction h generalizing s with
  | nil => trivial
  | cons hw _ ih =>
    obtain ⟨s₁, hs, he'⟩ := Run.exec_cons_eq_some.mp he
    refine ⟨⟨hw.proper hs, ha.1⟩, fun s₂ hs₂ => ?_⟩
    obtain rfl : s₁ = s₂ := Option.some.inj (hs.symm.trans hs₂)
    exact ih (ha.2 s₁ hs) he'

/-- However a text is cut, the same is on the disk after it has been written. -/
theorem Sim.chunks (h : Sim s L m) (hi : s.Intact) {p : ℕ} {chunks : List (List Byte)}
    {writes : List Event} {whole : Event} {s₁ s₂ : Session}
    (hw : List.Forall₂ (Event.IsWrite p) chunks writes) (hwhole : whole.IsWrite p chunks.flatten)
    (ha : Run.Admits Session.step (fun s e => s.Fits e.call) s writes) (hf : s.Fits whole.call)
    (he : Run.exec Session.step s writes = some s₁) (hs : s.step whole = some s₂) (name : Name) :
    Filesys.lookup s₁.fs.disk name = Filesys.lookup s₂.fs.disk name := by
  obtain ⟨L₁, m₁, hruns, hsim₁, -⟩ := h.runs hi (admits_writes hw ha he) he
  obtain ⟨L₂, m₂, hstep, hsim₂⟩ := h.step ((hwhole.proper hs).allowed hi) hf hs
  rw [hwhole] at hstep
  rw [hsim₁.lookup, hsim₂.lookup, FileMap.Runs.chunks (observed_writes hw) hruns hstep]

/-- In a session that starts on a formatted disk, as long as no request overflows, the file system
is a map from names to arrays of bytes: every call returns the result of the map, whose contents are
on the disk; every call returns; a call changes no file but its own; and it does not matter how a
text is cut into writes. A request that overflows does not return the result of the map. -/
theorem file_system_is_map {s₀ : Session} (h₀ : s₀.Init)
    (ha : Run.Admits Session.step Session.Sound s₀ events)
    (he : Run.exec Session.step s₀ events = some s) :
    (∃ m, FileMap.initial.Runs (observed events) m ∧
      (∀ name, lookup s.fs.disk name = m.files (fileKey name)) ∧
      ∀ call heap r s', s.Proper call → call.Ints → s.perform heap call = some (r, s') →
        ((∃ m', m.Step call r m') ↔ s.Fits call)) ∧
    (∀ call heap, s.Proper call → s.Fits call → ∃ r s', s.perform heap call = some (r, s')) ∧
    (∀ call heap r s', s.Proper call → s.Fits call → s.perform heap call = some (r, s') →
      ∀ name, s.target call ≠ some (fileKey name) →
        lookup s'.fs.disk name = lookup s.fs.disk name) ∧
    ∀ (p : ℕ) (chunks : List (List Byte)) (writes : List Event) (whole : Event) (s₁ s₂ : Session),
      List.Forall₂ (Event.IsWrite p) chunks writes → whole.IsWrite p chunks.flatten →
      Run.Admits Session.step (fun s e => s.Fits e.call) s writes → s.Fits whole.call →
      Run.exec Session.step s writes = some s₁ → s.step whole = some s₂ →
      ∀ name, lookup s₁.fs.disk name = lookup s₂.fs.disk name := by
  obtain ⟨L₀, hsim₀⟩ := h₀.sim
  have hi₀ : s₀.Intact := fun p x hx => by
    rw [h₀.2] at hx
    exact nomatch hx
  obtain ⟨L, m, hruns, hsim, hi⟩ := hsim₀.runs hi₀ ha he
  refine ⟨⟨m, hruns, hsim.lookup, fun call heap r s' hproper hints hp => ⟨?_, fun hfits => ?_⟩⟩,
    fun call heap hproper hfits => ?_,
    fun call heap r s' hproper hfits hp name ht => ?_,
    fun p chunks writes whole s₁ s₂ hw hwhole hwrites hfits he₁ hs₂ name =>
      hsim.chunks hi hw hwhole hwrites hfits he₁ hs₂ name⟩
  · rintro ⟨m', hstep⟩
    exact hsim.fits_of_step (hproper.allowed hi) hints hp hstep
  · obtain ⟨r₁, s₁, -, m₁, hp₁, hstep, -⟩ := hsim.perform_spec (hproper.allowed hi) hfits heap
    obtain ⟨rfl, -⟩ := Prod.mk.inj (Option.some.inj (hp₁.symm.trans hp))
    exact ⟨m₁, hstep⟩
  · obtain ⟨r, s', -, -, hp, -, -⟩ := hsim.perform_spec (hproper.allowed hi) hfits heap
    exact ⟨r, s', hp⟩
  · obtain ⟨r₁, s₁, L₁, m₁, hp₁, hstep, hsim₁⟩ :=
      hsim.perform_spec (hproper.allowed hi) hfits heap
    obtain ⟨rfl, rfl⟩ := Prod.mk.inj (Option.some.inj (hp₁.symm.trans hp))
    rw [hsim₁.lookup, hsim.lookup]
    refine hstep.frame ?_
    rw [hsim.target]
    exact ht

/-- `createAndOpen`, and then `Seek` to 200. -/
def openAndSeek : List Event := createAndOpen ++ [⟨.seek 0 200, Heap.zero, .void⟩]

theorem exec_openAndSeek : ∃ s₀ s L f x, Session.Init s₀ ∧
    Run.Admits Session.step Session.Sound s₀ openAndSeek ∧
    Run.exec Session.step s₀ openAndSeek = some s ∧ Opened s L f x ∧
    x.file.seekPosition = 200 := by
  obtain ⟨s₀, s, L, f, x, h₀, he, ho⟩ := exec_createAndOpen
  have hseek : s.step ⟨.seek 0 200, Heap.zero, .void⟩ =
      some (s.setHandle 0 (some { x with file := x.file.seek 200 })) := by
    rw [Session.step_eq_some, Session.perform, ho.handle]
    rfl
  have ha : Run.Admits Session.step Session.Sound s₀ createAndOpen :=
    ⟨⟨show 600 ≤ maxFileSize by decide, trivial⟩, fun _ _ => ⟨⟨trivial, trivial⟩, fun _ _ => trivial⟩⟩
  refine ⟨s₀, _, L, f, { x with file := x.file.seek 200 }, h₀, ha.concat he ⟨?_, trivial⟩,
    Run.exec_concat.mpr ⟨s, he, hseek⟩,
    ⟨ho.rep, ho.file, ho.length, rfl, ho.removed, ho.header⟩, rfl⟩
  refine ⟨?_, by decide, by decide⟩
  rw [ho.handle]
  exact Option.some_ne_none _

/-- In a session in which a file has been opened and sought, a read of 500 bytes at 200. -/
theorem file_system_is_map_read : ∃ s₀ s, Session.Init s₀ ∧
    Run.exec Session.step s₀ openAndSeek = some s ∧
    (∃ m, FileMap.initial.Runs (observed openAndSeek) m ∧
      ∀ name, lookup s.fs.disk name = m.files (fileKey name)) ∧
    ∀ heap, ∃ r s', s.perform heap (.read 0 500) = some (r, s') := by
  obtain ⟨s₀, s, L, f, x, h₀, ha, he, ho, hpos⟩ := exec_openAndSeek
  obtain ⟨⟨m, hruns, hlookup, -⟩, hcalls, -⟩ := file_system_is_map h₀ ha he
  refine ⟨s₀, s, h₀, he, ⟨m, hruns, hlookup⟩, fun heap => hcalls _ heap ?_ fun y hy => ?_⟩
  · show s.handles 0 ≠ none
    rw [ho.handle]
    exact Option.some_ne_none _
  · obtain rfl : x = y := Option.some.inj (ho.handle.symm.trans hy)
    rw [hpos]
    exact .inr (.inr ⟨by decide, by decide⟩)

/-- `Read` of `2 ^ 31 - 1` bytes at 200 in a file of 600 bytes: the sum is negative as an `int`,
nothing is clipped, and the buffer would have a negative size. -/
theorem read_overflows : ∃ s₀ s x content, Session.Init s₀ ∧
    Run.Admits Session.step Session.Sound s₀ openAndSeek ∧
    Run.exec Session.step s₀ openAndSeek = some s ∧
    lookup s.fs.disk [0x61] = some content ∧ content.length = 600 ∧
    s.handles 0 = some x ∧ x.file.seekPosition = 200 ∧ s.Proper (.read 0 2147483647) ∧
    ∀ heap, s.perform heap (.read 0 2147483647) = none := by
  obtain ⟨s₀, s, L, f, x, h₀, ha, he, ho, hpos⟩ := exec_openAndSeek
  have hlookup : lookup s.fs.disk [0x61] = some (f.content s.fs.disk) :=
    (ho.rep.stored.lookup_eq_some ho.rep.valid).mpr ⟨f, ho.file, rfl⟩
  refine ⟨s₀, s, x, _, h₀, ha, he, hlookup, (f.length_content _).trans ho.length, ho.handle, hpos, ?_,
    fun heap => ?_⟩
  · show s.handles 0 ≠ none
    rw [ho.handle]
    exact nofun
  · have hspan : span x.file.hdr.numBytes 2147483647 200 =
        some { numBytes := 2147483647, firstSector := 0, lastSector := -4194303 } := by
      rw [ho.size.1]
      decide
    have hnone : Indexed.readAt x.file.hdr s.fs.disk heap.bytes 2147483647 200 = none := by
      refine Option.eq_none_iff_forall_ne_some.mpr fun bytes hbytes => ?_
      obtain ⟨-, hslice, -⟩ := Indexed.readAt_some hspan hbytes
      exact hslice (by decide)
    rw [Session.perform, ho.handle]
    show Option.bind (x.file.read _ _ _) _ = none
    rw [OpenFile.read, hpos, hnone]
    rfl

end Nachos.Filesys
