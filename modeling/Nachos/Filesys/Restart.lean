import Nachos.Filesys.FileContents

/-!
# Starting Nachos on a disk, `system.cc`

`Initialize` of the FILESYS build reads the options and makes the file system. Its variable `format`
is `TRUE` from the start, so that the option `-f` makes no difference: the disk is formatted at every
start.
-/

namespace Nachos.Filesys

/-- `-d` -/
def optionD : Name := [0x2d, 0x64]

/-- `-rs` -/
def optionRs : Name := [0x2d, 0x72, 0x73]

/-- `-f` -/
def optionF : Name := [0x2d, 0x66]

/-- The loop over the arguments after the program's name, for the value of `format`; `none` is
`ASSERT(argc > 1)`. The options `-d` and `-rs` take the next argument with them. -/
def options : List Name → Bool → Option Bool
  | [], format => some format
  | [arg], format => if arg = optionRs then none else some (format || arg == optionF)
  | arg :: next :: rest, format =>
    if arg = optionD ∨ arg = optionRs then options rest (format || arg == optionF)
    else options (next :: rest) (format || arg == optionF)

/-- `Initialize` -/
def initializeSystem (heap : ℕ → Heap) (argv : List Name) (d : Disk) : Option FileSystem := do
  let format ← options argv true
  FileSystem.new heap d format

/-- Every file of the first disk is on the second, which has no other files than the console files. -/
def Survives (d d' : Disk) : Prop :=
  (∀ name c, lookup d name = some c → lookup d' name = some c) ∧
    ∀ name, lookup d' name ≠ none →
      lookup d name ≠ none ∨ fileKey name = FileSystem.stdin ∨ fileKey name = FileSystem.stdout

/-- The disk has no other files than empty console files. -/
def OnlyConsole (d : Disk) : Prop :=
  ∀ name c, lookup d name = some c →
    (fileKey name = FileSystem.stdin ∨ fileKey name = FileSystem.stdout) ∧ c = []

theorem options_of_true (argv : List Name) {format : Bool} (h : format = true) :
    options argv format = none ∨ options argv format = some true := by
  induction argv, format using options.induct with
  | case1 format => exact .inr (congrArg some h)
  | case2 format => exact .inl (if_pos rfl)
  | case3 format arg hrs =>
    rw [options, if_neg hrs, h]
    exact .inr rfl
  | case4 format arg next rest hopt ih =>
    rw [options, if_pos hopt]
    exact ih (by rw [h, Bool.true_or])
  | case5 format arg next rest hopt ih =>
    rw [options, if_neg hopt]
    exact ih (by rw [h, Bool.true_or])

/-- The disk is formatted, unless Nachos stops at its arguments. -/
theorem initializeSystem_eq (heap : ℕ → Heap) {argv : List Name} (d : Disk)
    (h : options argv true ≠ none) :
    initializeSystem heap argv d = FileSystem.new heap d true := by
  rcases options_of_true argv rfl with hopt | hopt
  · exact absurd hopt h
  · unfold initializeSystem
    rw [hopt, Option.bind_eq_bind, Option.bind_some]

/-- A formatted disk has the console files, and they are empty. -/
theorem lookup_new {heap : ℕ → Heap} {d : Disk} {fs : FileSystem}
    (h : FileSystem.new heap d true = some fs) (name : Name) :
    lookup fs.disk name =
      if fileKey name = FileSystem.stdin ∨ fileKey name = FileSystem.stdout then some [] else none := by
  obtain ⟨L, hsim⟩ := Session.Init.sim (s := ⟨fs, fun _ => none⟩) ⟨⟨heap, d, h⟩, rfl⟩
  exact hsim.lookup name

theorem survives_new_iff {heap : ℕ → Heap} {d : Disk} {fs : FileSystem}
    (h : FileSystem.new heap d true = some fs) : Survives d fs.disk ↔ OnlyConsole d := by
  unfold Survives OnlyConsole
  simp only [lookup_new h]
  constructor
  · rintro ⟨hkeep, -⟩ name c hc
    have hnew := hkeep name c hc
    split_ifs at hnew with hkey
    exact ⟨hkey, (Option.some.inj hnew).symm⟩
  · intro honly
    refine ⟨fun name c hc => ?_, fun name hname => .inr ?_⟩
    · obtain ⟨hkey, rfl⟩ := honly name c hc
      rw [if_pos hkey]
    · split_ifs at hname with hkey
      · exact hkey
      · exact absurd rfl hname

/-- The files survive a start of Nachos exactly if there are none to lose, or if Nachos stops at its
arguments. -/
theorem files_survive_iff (heap : ℕ → Heap) (argv : List Name) (d : Disk) :
    (∀ fs, initializeSystem heap argv d = some fs → Survives d fs.disk) ↔
      options argv true = none ∨ OnlyConsole d := by
  by_cases hopt : options argv true = none
  · refine ⟨fun _ => .inl hopt, fun _ fs hfs => ?_⟩
    unfold initializeSystem at hfs
    rw [hopt, Option.bind_eq_bind, Option.bind_none] at hfs
    exact nomatch hfs
  · obtain ⟨fs, -, hnew, -⟩ := FileSystem.new_spec heap d
    rw [or_iff_right hopt, initializeSystem_eq heap d hopt]
    constructor
    · intro h
      exact (survives_new_iff hnew).mp (h fs hnew)
    · intro honly fs' hfs'
      exact (survives_new_iff hfs').mpr honly

/-- A consistent disk with one more file is started without `-f`; the file is lost. -/
theorem not_files_survive : ∃ (d : Disk) (argv : List Name) (fs : FileSystem),
    Consistent d ∧ optionF ∉ argv ∧ initializeSystem (fun _ => Heap.zero) argv d = some fs ∧
      ¬ Survives d fs.disk := by
  obtain ⟨s, L, f, x, -, hrep, hat, -⟩ := exists_opened
  obtain ⟨fs, -, hnew, -⟩ := FileSystem.new_spec (fun _ => Heap.zero) s.fs.disk
  refine ⟨s.fs.disk, [], fs, hrep.stored.consistent hrep.valid, nofun,
    (initializeSystem_eq _ _ (by decide)).trans hnew, fun hsurvives => ?_⟩
  have honly := (survives_new_iff hnew).mp hsurvives
  have hlookup : lookup s.fs.disk [0x61] = some (f.content s.fs.disk) :=
    (hrep.stored.lookup_eq_some hrep.valid).mpr ⟨f, hat, rfl⟩
  obtain ⟨hkey, -⟩ := honly _ _ hlookup
  exact absurd hkey (by decide)

end Nachos.Filesys
