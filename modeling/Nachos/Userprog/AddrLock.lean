import Nachos.Lib.Run
import Nachos.Userprog.Loader

/-!
# The lock of address-space creation, `addrspace.cc` and `progtest.cc`

A construction of an address space with its caller, action by action: what it does to `addrLock` and
to the file object of the executable, on each path past the test of the magic number.
`build_eq_runAll` says that the actions are the constructors of `AddrSpace`.

Without enough memory, `AddrSpace(OpenFile*)` deletes the file object, which its caller
`StartProcess` deletes again, and `AddrSpace(char*)` has no `return`: it runs on, outside of the
lock, and calls `V` and deletes the file object a second time. `Creating` is any interleaving of
creations; while every `AddrSpace(char*)` finds its memory, `addrLock` is a lock.
-/

namespace Nachos

inductive Act where
  | P
  | V
  | delete
  /-- The page table of `n` pages is allocated and set up. -/
  | setUp (n : ℕ)
  /-- The segments are copied into the `n` pages. -/
  | load (n : ℕ)
  deriving DecidableEq, Repr

namespace Constructor

/-- What a constructor does after its test: `refused` says that memory is short of `n` pages. -/
def afterTest (n : ℕ) (refused : Bool) : Constructor → List Act
  | .openFile => if refused then [.delete, .V] else [.setUp n, .V, .load n]
  | .fileName =>
    let numPages := if refused then 0 else n
    (if refused then [.delete, .V] else []) ++ [.setUp numPages, .V, .load numPages, .delete]

/-- `StartProcess` deletes the file object, `StartProcessWithID` has none. -/
def byCaller : Constructor → List Act
  | .openFile => [.delete]
  | .fileName => []

/-- A creation from the test of the magic number on. -/
def creation (c : Constructor) (n : ℕ) (refused : Bool) : List Act :=
  .P :: c.afterTest n refused ++ c.byCaller

end Constructor

/-- An action, with the page table of the new space; `none` stands for a failed `ASSERT`. To delete an
object again is undefined behaviour, where other models end in `Down.undefined`. Here the deletions
are counted, so that the second one can be told; what comes after it is what a heap does that takes
no notice. -/
def Act.run (h : NoffHeader) (file : List Byte) (s : Loader) (pt : List TranslationEntry) :
    Act → Option (Loader × List TranslationEntry)
  | .P => some (s.lockP, pt)
  | .V => some (s.lockV, pt)
  | .delete => some (s.deleteExecutable, pt)
  | .setUp n =>
    some (s.setBitMap (setUpTranslation n 0 s.gPhysPageBitMap).2,
      (setUpTranslation n 0 s.gPhysPageBitMap).1)
  | .load n =>
    if seekOk h.code n ∧ seekOk h.initData n then
      some (s.load file (loadCopies h file.length (pt.map (·.physicalPage))), pt)
    else none

def runAll (h : NoffHeader) (file : List Byte) :
    List Act → Loader → List TranslationEntry → Option (Loader × List TranslationEntry)
  | [], s, pt => some (s, pt)
  | a :: acts, s, pt => (a.run h file s pt).bind fun p => runAll h file acts p.1 p.2

/-- Memory is short of the pages of the program. -/
def Refused (h : NoffHeader) (s : Loader) : Prop := s.gPhysPageBitMap.numClear < h.numPages

instance (h : NoffHeader) (s : Loader) : Decidable (Refused h s) :=
  inferInstanceAs (Decidable (_ < _))

theorem refused_lockP {h : NoffHeader} {s : Loader} : Refused h s.lockP ↔ Refused h s := Iff.rfl

/-- The space of a constructor that returns. -/
def Built.space : Built × Loader → Option (Loader × AddrSpace)
  | (.returned sp, s) => some (s, sp)
  | _ => none

/-- The constructors, past the test of the magic number, are their actions. -/
theorem build_eq_runAll (c : Constructor) {stack : ℕ → Byte} {file : List Byte} {s : Loader}
    {h : NoffHeader} (hh : readHeader stack file = h) (hm : h.noffMagic = noffMagic) :
    Built.space (AddrSpace.build c stack (some file) s) =
      (runAll h file (.P :: c.afterTest h.numPages (Refused h s)) s []).map fun p =>
        (p.1, { pageTable := p.2, numPages := pagesFor h s.gPhysPageBitMap }) := by
  by_cases hr : Refused h s
  · have hseek : ∀ seg, seekOk seg 0 := fun seg _ i hi => absurd hi (Nat.not_lt_zero i)
    rw [pagesFor_refused hr, decide_eq_true hr]
    cases c with
    | openFile =>
      rw [show AddrSpace.build .openFile stack (some file) s = _ from ofOpenFile_refused hh hm hr]
      rfl
    | fileName =>
      rw [show AddrSpace.build .fileName stack (some file) s = _ from ofFileName_refused hh hm hr]
      simp only [Constructor.afterTest, if_true, List.cons_append, List.nil_append, runAll, Act.run,
        Option.bind_some, hseek, and_self, setUpTranslation, List.map_nil, loadCopies,
        segmentCopies, List.length_nil, List.range_zero, List.flatMap_nil, ite_self,
        List.append_nil]
      rfl
  · have hbits : s.lockP.gPhysPageBitMap = s.gPhysPageBitMap := rfl
    rw [pagesFor_enough hr, decide_eq_false hr]
    by_cases hk : seekOk h.code h.numPages ∧ seekOk h.initData h.numPages
    · cases c with
      | openFile =>
        rw [show AddrSpace.build .openFile stack (some file) s = _ from
          ofOpenFile_loaded hh hm hr hk]
        simp only [Constructor.afterTest, Bool.false_eq_true, if_false, runAll, Act.run,
          Option.bind_some, if_pos hk, hbits, Option.map_some, Built.space, loaded]
      | fileName =>
        rw [show AddrSpace.build .fileName stack (some file) s = _ from
          ofFileName_loaded hh hm hr hk]
        simp only [Constructor.afterTest, Bool.false_eq_true, if_false, List.nil_append, runAll,
          Act.run, Option.bind_some, if_pos hk, hbits, Option.map_some, Built.space, loaded]
    · obtain ⟨s', hb⟩ := build_bad_seek hh c hm hr hk
      rw [hb]
      cases c with
      | openFile =>
        simp only [Constructor.afterTest, Bool.false_eq_true, if_false, runAll, Act.run,
          Option.bind_some, if_neg hk]
        rfl
      | fileName =>
        simp only [Constructor.afterTest, Bool.false_eq_true, if_false, List.nil_append, runAll,
          Act.run, Option.bind_some, if_neg hk]
        rfl

/-! ## One creation -/

/-- `P`, `V` and the deletion of the file object are executed once each. -/
def Balanced (acts : List Act) : Prop :=
  acts.count .P = 1 ∧ acts.count .V = 1 ∧ acts.count .delete = 1

instance (acts : List Act) : Decidable (Balanced acts) := by
  unfold Balanced
  infer_instance

theorem balanced_creation_iff (c : Constructor) (n : ℕ) (refused : Bool) :
    Balanced (c.creation n refused) ↔ refused = false := by
  cases c <;> cases refused <;>
    simp [Balanced, Constructor.creation, Constructor.afterTest, Constructor.byCaller]

theorem runAll_refused (c : Constructor) {h : NoffHeader} (file : List Byte) {s : Loader}
    (hr : Refused h s) :
    ∃ p, runAll h file (c.creation h.numPages (Refused h s)) s [] = some p := by
  have hseek : ∀ seg, seekOk seg 0 := fun seg _ i hi => absurd hi (Nat.not_lt_zero i)
  rw [decide_eq_true hr]
  cases c with
  | openFile => exact ⟨_, rfl⟩
  | fileName =>
    simp [Constructor.creation, Constructor.afterTest, Constructor.byCaller, runAll, Act.run, hseek]

/-- The creation is balanced, unless a failed `ASSERT` brings the kernel down on the way. -/
def Balances (c : Constructor) (h : NoffHeader) (file : List Byte) (s : Loader) : Prop :=
  ∀ p, runAll h file (c.creation h.numPages (Refused h s)) s [] = some p →
    Balanced (c.creation h.numPages (Refused h s))

theorem balances_iff (c : Constructor) {h : NoffHeader} (file : List Byte) {s : Loader} :
    Balances c h file s ↔ h.numPages ≤ s.gPhysPageBitMap.numClear := by
  rw [← not_lt]
  constructor
  · intro hb hr
    obtain ⟨p, hp⟩ := runAll_refused c file hr
    have := (balanced_creation_iff c h.numPages _).mp (hb p hp)
    exact of_decide_eq_false this hr
  · intro hr p _
    exact (balanced_creation_iff c h.numPages _).mpr (decide_eq_false hr)

/-! ## Any interleaving of creations -/

/-- How far the creation of a thread's space is. -/
inductive Creation where
  | idle
  /-- The file is open and has passed the test of the magic number. -/
  | opened (c : Constructor) (h : NoffHeader) (file : List Byte)
  /-- After `P`, before the test for memory. -/
  | locked (c : Constructor) (h : NoffHeader) (file : List Byte)
  /-- What is left to do, with the page table so far. -/
  | running (h : NoffHeader) (file : List Byte) (pt : List TranslationEntry) (acts : List Act)

structure Creating where
  loader : Loader
  threads : ℕ → Creation

namespace Creating

inductive Op where
  | start (t : ℕ) (c : Constructor) (stack : ℕ → Byte) (file : List Byte)
  | lock (t : ℕ)
  | test (t : ℕ)
  | act (t : ℕ)
  /-- A process exits, or anything else happens to the frame bitmap. -/
  | other (bm : BitMap)

/-- A step of thread `t`. -/
def put (s : Creating) (t : ℕ) (l : Loader) (p : Creation) : Creating where
  loader := l
  threads := Function.update s.threads t p

@[simp] theorem put_self (s : Creating) (t : ℕ) (l : Loader) (p : Creation) :
    (s.put t l p).threads t = p := Function.update_self ..

theorem put_of_ne (s : Creating) {t u : ℕ} (h : u ≠ t) (l : Loader) (p : Creation) :
    (s.put t l p).threads u = s.threads u := Function.update_of_ne h ..

/-- `P` lets a thread through while the value is positive. -/
def step (s : Creating) : Op → Option Creating
  | .start t c stack file =>
    match s.threads t with
    | .idle =>
      if (readHeader stack file).noffMagic = noffMagic then
        some (s.put t s.loader (.opened c (readHeader stack file) file))
      else none
    | _ => none
  | .lock t =>
    match s.threads t with
    | .opened c h file =>
      if 0 < s.loader.addrLock then
        some (s.put t s.loader.lockP (.locked c h file))
      else none
    | _ => none
  | .test t =>
    match s.threads t with
    | .locked c h file =>
      some (s.put t s.loader (.running h file []
        (c.afterTest h.numPages (Refused h s.loader) ++ c.byCaller)))
    | _ => none
  | .act t =>
    match s.threads t with
    | .running h file pt (a :: acts) =>
      (a.run h file s.loader pt).map fun p =>
        s.put t p.1 (.running h file p.2 acts)
    | _ => none
  | .other bm => some { s with loader := s.loader.setBitMap bm }

/-- After `Initialize`, before the first creation. -/
def Init (s : Creating) : Prop := s.loader.addrLock = 1 ∧ ∀ t, s.threads t = .idle

/-- Every `AddrSpace(char*)` finds its memory. -/
def EnoughMemory (s : Creating) : Op → Prop
  | .test t => ∀ h file, s.threads t = .locked .fileName h file → ¬ Refused h s.loader
  | _ => True

end Creating

/-- Between `P` and the last `V`. -/
def Creation.InSection : Creation → Prop
  | .locked .. => True
  | .running _ _ _ acts => .V ∈ acts
  | _ => False

/-- At most one `V` is left, and no `P`. -/
def Creation.Orderly : Creation → Prop
  | .running _ _ _ acts => .P ∉ acts ∧ acts.count .V ≤ 1
  | _ => True

namespace Creating

/-- The thread that holds the lock, if any. -/
structure LockedBy (s : Creating) (owner : Option ℕ) : Prop where
  orderly : ∀ t, (s.threads t).Orderly
  value : s.loader.addrLock = if owner = none then 1 else 0
  section_iff : ∀ t, (s.threads t).InSection ↔ owner = some t

variable {s s' : Creating} {t : ℕ} {owner : Option ℕ}

theorem lockedBy_init (h : Init s) : LockedBy s none :=
  ⟨fun t => by rw [h.2 t]; trivial, h.1, fun t => by rw [h.2 t]; exact ⟨False.elim, nofun⟩⟩

theorem orderly_put (h : ∀ u, (s.threads u).Orderly) (l : Loader) {p : Creation}
    (ho : p.Orderly) (u : ℕ) : ((s.put t l p).threads u).Orderly := by
  by_cases hu : u = t
  · subst hu
    rwa [put_self]
  · rw [put_of_ne s hu]
    exact h u

/-- A step that leaves the lock, and the thread where it is with respect to it. -/
theorem LockedBy.keep (h : LockedBy s owner) {l : Loader} {p : Creation}
    (hl : l.addrLock = s.loader.addrLock) (ho : p.Orderly)
    (hp : p.InSection ↔ (s.threads t).InSection) : LockedBy (s.put t l p) owner := by
  refine ⟨orderly_put h.orderly l ho, hl.trans h.value, fun u => ?_⟩
  by_cases hu : u = t
  · subst hu
    rw [put_self, hp]
    exact h.section_iff u
  · rw [put_of_ne s hu]
    exact h.section_iff u

/-- Nobody holds the lock, and `t` takes it. -/
theorem LockedBy.acquire (h : LockedBy s owner) {p : Creation} (hpos : 0 < s.loader.addrLock)
    (ho : p.Orderly) (hp : p.InSection) : LockedBy (s.put t s.loader.lockP p) (some t) := by
  have hvalue := h.value
  have hnone : owner = none := by
    by_contra hne
    rw [hvalue, if_neg hne] at hpos
    exact absurd hpos (by decide)
  subst hnone
  refine ⟨orderly_put h.orderly _ ho, ?_, fun u => ?_⟩
  · show s.loader.addrLock - 1 = 0
    rw [hvalue]
    rfl
  · by_cases hu : u = t
    · subst hu
      rw [put_self]
      exact ⟨fun _ => rfl, fun _ => hp⟩
    · rw [put_of_ne s hu]
      refine ⟨fun hin => ?_, fun heq => absurd (Option.some.inj heq).symm hu⟩
      exact nomatch (h.section_iff u).mp hin

/-- `t` holds the lock and gives it back. -/
theorem LockedBy.release (h : LockedBy s owner) {p : Creation} (hin : (s.threads t).InSection)
    (ho : p.Orderly) (hp : ¬ p.InSection) : LockedBy (s.put t s.loader.lockV p) none := by
  obtain rfl := (h.section_iff t).mp hin
  have hvalue := h.value
  refine ⟨orderly_put h.orderly _ ho, ?_, fun u => ?_⟩
  · show s.loader.addrLock + 1 = 1
    rw [hvalue]
    rfl
  · by_cases hu : u = t
    · subst hu
      rw [put_self]
      exact ⟨fun hc => absurd hc hp, nofun⟩
    · rw [put_of_ne s hu]
      refine ⟨fun hc => ?_, nofun⟩
      exact absurd (Option.some.inj ((h.section_iff u).mp hc)).symm hu

/-- After the test of a construction that finds its memory, or of `AddrSpace(OpenFile*)`. -/
theorem orderly_afterTest (c : Constructor) (n : ℕ) {refused : Bool}
    (hc : c = .fileName → refused = false) :
    .P ∉ c.afterTest n refused ++ c.byCaller ∧ (c.afterTest n refused ++ c.byCaller).count .V = 1 :=
    by
  cases c with
  | openFile => cases refused <;> simp [Constructor.afterTest, Constructor.byCaller]
  | fileName =>
    rw [hc rfl]
    simp [Constructor.afterTest, Constructor.byCaller]

/-- `addrLock` under one action of a thread that has at most one `V` left. -/
theorem LockedBy.act (h : LockedBy s owner) {hd : NoffHeader} {file : List Byte}
    {pt : List TranslationEntry} {a : Act} {acts : List Act}
    (ht : s.threads t = .running hd file pt (a :: acts)) {p : Loader × List TranslationEntry}
    (ha : a.run hd file s.loader pt = some p) :
    ∃ owner', LockedBy (s.put t p.1 (.running hd file p.2 acts)) owner' := by
  have ho := h.orderly t
  rw [ht] at ho
  obtain ⟨hP, hV⟩ := ho
  have hP' : .P ∉ acts := fun hm => hP (List.mem_cons_of_mem a hm)
  have hV' : acts.count .V ≤ 1 := le_trans (List.count_le_count_cons) hV
  -- all but `V` leave the value and the thread's place
  have hkeep : a ≠ .V → p.1.addrLock = s.loader.addrLock →
      LockedBy (s.put t p.1 (.running hd file p.2 acts)) owner := fun hne hl => by
    refine h.keep hl ⟨hP', hV'⟩ ?_
    rw [ht]
    show .V ∈ acts ↔ .V ∈ a :: acts
    rw [List.mem_cons, or_iff_right (Ne.symm hne)]
  cases a with
  | P => exact absurd List.mem_cons_self hP
  | V =>
    obtain rfl := Option.some.inj ha
    refine ⟨none, h.release ?_ ⟨hP', hV'⟩ fun hm => ?_⟩
    · rw [ht]
      exact List.mem_cons_self
    · rw [List.count_cons_self] at hV
      exact absurd (List.count_pos_iff.mpr hm) (by omega)
  | delete =>
    obtain rfl := Option.some.inj ha
    exact ⟨owner, hkeep nofun rfl⟩
  | setUp n =>
    obtain rfl := Option.some.inj ha
    exact ⟨owner, hkeep nofun rfl⟩
  | load n =>
    rw [Act.run] at ha
    split_ifs at ha
    obtain rfl := Option.some.inj ha
    exact ⟨owner, hkeep nofun rfl⟩

theorem LockedBy.step {op : Op} (h : LockedBy s owner) (hop : EnoughMemory s op)
    (hs : s.step op = some s') : ∃ owner', LockedBy s' owner' := by
  cases op with
  | start t c stack file =>
    simp only [Creating.step] at hs
    split at hs
    · next ht =>
      split_ifs at hs
      obtain rfl := Option.some.inj hs
      exact ⟨owner, h.keep rfl trivial (by rw [ht]; exact Iff.rfl)⟩
    · cases hs
  | lock t =>
    simp only [Creating.step] at hs
    split at hs
    · split_ifs at hs with hpos
      obtain rfl := Option.some.inj hs
      exact ⟨some t, h.acquire hpos trivial trivial⟩
    · cases hs
  | test t =>
    simp only [Creating.step] at hs
    split at hs
    · next c hd file ht =>
      obtain rfl := Option.some.inj hs
      have hrefused : c = .fileName → decide (Refused hd s.loader) = false := by
        rintro rfl
        exact decide_eq_false (hop hd file ht)
      obtain ⟨hP, hV⟩ := orderly_afterTest c hd.numPages hrefused
      refine ⟨owner, h.keep rfl ⟨hP, hV.le⟩ ?_⟩
      rw [ht]
      exact ⟨fun _ => trivial, fun _ => List.count_pos_iff.mp (hV ▸ Nat.one_pos)⟩
    · cases hs
  | act t =>
    simp only [Creating.step] at hs
    split at hs
    · next ht =>
      obtain ⟨p, hp, rfl⟩ := Option.map_eq_some_iff.mp hs
      exact h.act ht hp
    · cases hs
  | other bm =>
    obtain rfl := Option.some.inj hs
    exact ⟨owner, h.orderly, h.value, h.section_iff⟩

/-- `addrLock` is a lock in runs whose constructions by name find their memory. -/
theorem lock_of_reachBy (h : Run.ReachBy step EnoughMemory Init s) :
    s.loader.addrLock ≤ 1 ∧
      ∀ t u, (s.threads t).InSection → (s.threads u).InSection → t = u := by
  obtain ⟨owner, hl⟩ : ∃ owner, LockedBy s owner :=
    h.inv (fun s => ∃ owner, LockedBy s owner) (fun s hs => ⟨none, lockedBy_init hs⟩)
      fun s op s' ⟨_, hl⟩ hop hs => hl.step hop hs
  refine ⟨?_, fun t u ht hu => ?_⟩
  · rw [hl.value]
    split_ifs <;> decide
  · exact Option.some.inj (((hl.section_iff t).mp ht).symm.trans ((hl.section_iff u).mp hu))

end Creating

/-- A creation is balanced exactly when memory suffices, and then `addrLock` is a lock. -/
theorem creation_balanced_iff (c : Constructor) :
    (∀ (stack : ℕ → Byte) (file : List Byte) (s : Loader),
      (readHeader stack file).noffMagic = noffMagic →
        (Balances c (readHeader stack file) file s ↔
          (readHeader stack file).numPages ≤ s.gPhysPageBitMap.numClear)) ∧
    ∀ s, Run.ReachBy Creating.step Creating.EnoughMemory Creating.Init s →
      s.loader.addrLock ≤ 1 ∧
        ∀ t u, (s.threads t).InSection → (s.threads u).InSection → t = u :=
  ⟨fun _ file _ _ => balances_iff c file, fun _ hs => Creating.lock_of_reachBy hs⟩

/-- A program that asks for more pages than the bitmap has bits. -/
def hugeHeader : NoffHeader where
  noffMagic := noffMagic
  code := { virtualAddr := 0, inFileAddr := 40, size := 200000 }
  initData := { virtualAddr := 0, inFileAddr := 0, size := 0 }
  uninitData := { virtualAddr := 0, inFileAddr := 0, size := 0 }

theorem creation_balanced_iff_huge :
    Balances .fileName (readHeader (fun _ => 0) hugeHeader.encode) hugeHeader.encode
        (freshLoader fun _ => 0) ↔
      (readHeader (fun _ => 0) hugeHeader.encode).numPages ≤
        (freshLoader fun _ => 0).gPhysPageBitMap.numClear :=
  (creation_balanced_iff .fileName).1 (fun _ => 0) hugeHeader.encode (freshLoader fun _ => 0)
    (by decide)

namespace Creating

theorem step_act {s : Creating} {t : ℕ} {h : NoffHeader} {file : List Byte}
    {pt pt' : List TranslationEntry} {a : Act} {acts : List Act} {l l' : Loader}
    (ha : a.run h file l pt = some (l', pt')) :
    (s.put t l (.running h file pt (a :: acts))).step (.act t) =
      some ((s.put t l (.running h file pt (a :: acts))).put t l' (.running h file pt' acts)) := by
  simp only [step, put_self]
  show (a.run h file l pt).map _ = _
  rw [ha, Option.map_some]

theorem put_put (s : Creating) (t : ℕ) (l l' : Loader) (p p' : Creation) :
    (s.put t l p).put t l' p' = s.put t l' p' := by
  unfold put
  rw [Function.update_idem]

/-- `AddrSpace(char*)` without memory: it deletes the file object and calls `V` twice. -/
theorem exec_refused {s : Creating} {t : ℕ} {h : NoffHeader} {file : List Byte}
    (ht : s.threads t = .locked .fileName h file) (hr : Refused h s.loader) :
    ∃ l, Run.exec step s [.test t, .act t, .act t, .act t, .act t] =
        some (s.put t l (.running h file [] [.load 0, .delete])) ∧
      l.addrLock = s.loader.addrLock + 2 := by
  have htest : s.step (.test t) = some (s.put t s.loader (.running h file []
      [.delete, .V, .setUp 0, .V, .load 0, .delete])) := by
    simp only [step, ht, decide_eq_true hr]
    rfl
  refine ⟨((s.loader.deleteExecutable.lockV).setBitMap s.loader.gPhysPageBitMap).lockV, ?_, ?_⟩
  · refine Run.exec_cons_eq_some.mpr ⟨_, htest, ?_⟩
    iterate 4
      refine Run.exec_cons_eq_some.mpr ⟨_, step_act rfl, ?_⟩
      rw [put_put]
    rfl
  · show s.loader.addrLock + 1 + 1 = s.loader.addrLock + 2
    omega

/-- The file is open. -/
theorem step_start {s : Creating} {t : ℕ} (c : Constructor) {stack : ℕ → Byte} {file : List Byte}
    {h : NoffHeader} (hh : readHeader stack file = h) (hm : h.noffMagic = noffMagic)
    (ht : s.threads t = .idle) :
    s.step (.start t c stack file) = some (s.put t s.loader (.opened c h file)) := by
  subst hh
  simp only [step, ht, if_pos hm]

theorem step_lock {s : Creating} {t : ℕ} {c : Constructor} {h : NoffHeader} {file : List Byte}
    (ht : s.threads t = .opened c h file) (hpos : 0 < s.loader.addrLock) :
    s.step (.lock t) = some (s.put t s.loader.lockP (.locked c h file)) := by
  simp only [step, ht, if_pos hpos]

/-- Two threads that wait while a third, in the lock, finds no memory: both get in. -/
theorem exec_two_enter {s : Creating} {t u v : ℕ} {h : NoffHeader} {file : List Byte}
    (ht : s.threads t = .locked .fileName h file) (hu : s.threads u = .opened .fileName h file)
    (hv : s.threads v = .opened .fileName h file) (htu : u ≠ t) (htv : v ≠ t) (huv : v ≠ u)
    (hr : Refused h s.loader) (hzero : s.loader.addrLock = 0) :
    ∃ s₁ s₂, Run.exec step s [.test t, .act t, .act t, .act t, .act t] = some s₁ ∧
      s₁.loader.addrLock = 2 ∧ Run.exec step s₁ [.lock u, .lock v] = some s₂ ∧
      (s₂.threads u).InSection ∧ (s₂.threads v).InSection := by
  obtain ⟨l, hl, hvalue⟩ := exec_refused ht hr
  rw [hzero] at hvalue
  have hvalue : (s.put t l (.running h file [] [.load 0, .delete])).loader.addrLock = 2 := hvalue
  have hu' : (s.put t l (.running h file [] [.load 0, .delete])).threads u =
      .opened .fileName h file := (put_of_ne s htu ..).trans hu
  have hv' : (s.put t l (.running h file [] [.load 0, .delete])).threads v =
      .opened .fileName h file := (put_of_ne s htv ..).trans hv
  generalize s.put t l (.running h file [] [.load 0, .delete]) = s₁ at hl hvalue hu' hv'
  have hlock : s₁.step (.lock u) = some (s₁.put u s₁.loader.lockP (.locked .fileName h file)) :=
    step_lock hu' (by rw [hvalue]; decide)
  have hlock' := step_lock (s := s₁.put u s₁.loader.lockP (.locked .fileName h file))
    ((put_of_ne s₁ huv ..).trans hv')
    (show 0 < s₁.loader.addrLock - 1 by rw [hvalue]; decide)
  refine ⟨s₁, _, hl, hvalue, Run.exec_cons_eq_some.mpr ⟨_, hlock,
    Run.exec_cons_eq_some.mpr ⟨_, hlock', rfl⟩⟩, ?_, ?_⟩
  · rw [put_of_ne _ huv.symm, put_self]
    trivial
  · rw [put_self]
    trivial

end Creating

/-- Memory is short of the pages of `hugeHeader`: its creation is not balanced, and in a run of
three of them `addrLock` becomes 2 and two threads are in the section at once. -/
theorem not_creation_balanced :
    ¬ Balances .fileName hugeHeader hugeHeader.encode (freshLoader fun _ => 0) ∧
    ∃ s s₁ s₂, Run.exec Creating.step ⟨freshLoader fun _ => 0, fun _ => .idle⟩
        [.start 0 .fileName (fun _ => 0) hugeHeader.encode,
          .start 1 .fileName (fun _ => 0) hugeHeader.encode,
          .start 2 .fileName (fun _ => 0) hugeHeader.encode, .lock 0] = some s ∧
      Run.exec Creating.step s [.test 0, .act 0, .act 0, .act 0, .act 0] = some s₁ ∧
      s₁.loader.addrLock = 2 ∧ Run.exec Creating.step s₁ [.lock 1, .lock 2] = some s₂ ∧
      (s₂.threads 1).InSection ∧ (s₂.threads 2).InSection := by
  have hn : (freshLoader fun _ => 0).gPhysPageBitMap.numClear = 256 := numClear_freshLoader _
  have hpages : 256 < hugeHeader.numPages := by decide
  have hh : readHeader (fun _ => 0) hugeHeader.encode = hugeHeader := by
    have := readHeader_encode (fun _ => 0) hugeHeader []
    rwa [List.append_nil] at this
  have hstart : ∀ (s : Creating) (t : ℕ), s.threads t = .idle →
      s.step (.start t .fileName (fun _ => 0) hugeHeader.encode) =
        some (s.put t s.loader (.opened .fileName hugeHeader hugeHeader.encode)) := fun s t ht =>
    Creating.step_start .fileName hh rfl ht
  refine ⟨fun hb => ?_, ?_⟩
  · have := (balances_iff .fileName hugeHeader.encode).mp hb
    omega
  have h₀ := hstart ⟨freshLoader fun _ => 0, fun _ => .idle⟩ 0 rfl
  generalize hs₀ : Creating.put _ _ _ _ = s₀ at h₀
  have h₁ := hstart s₀ 1 (by rw [← hs₀]; rfl)
  generalize hs₁ : s₀.put _ _ _ = s₁ at h₁
  have h₂ := hstart s₁ 2 (by rw [← hs₁, ← hs₀]; rfl)
  generalize hs₂ : s₁.put _ _ _ = s₂ at h₂
  have hl : s₂.loader = freshLoader fun _ => 0 := by rw [← hs₂, ← hs₁, ← hs₀]; rfl
  have h₃ := Creating.step_lock (s := s₂) (show s₂.threads 0 = _ by rw [← hs₂, ← hs₁, ← hs₀]; rfl)
    (by rw [hl]; exact Int.one_pos)
  have hrefused : Refused hugeHeader s₂.loader.lockP := by
    rw [refused_lockP, hl, Refused, hn]
    exact hpages
  have hzero : s₂.loader.lockP.addrLock = 0 := by rw [hl]; rfl
  obtain ⟨t₁, t₂, ht⟩ := Creating.exec_two_enter (u := 1) (v := 2)
    (Creating.put_self s₂ 0 s₂.loader.lockP _)
    (by rw [← hs₂, ← hs₁, ← hs₀]; rfl) (by rw [← hs₂, ← hs₁, ← hs₀]; rfl) (by decide) (by decide)
    (by decide) hrefused hzero
  exact ⟨_, t₁, t₂, Run.exec_cons_eq_some.mpr ⟨_, h₀, Run.exec_cons_eq_some.mpr ⟨_, h₁,
    Run.exec_cons_eq_some.mpr ⟨_, h₂, Run.exec_cons_eq_some.mpr ⟨_, h₃, rfl⟩⟩⟩⟩, ht⟩

end Nachos
