import Nachos.Lib.Places
import Nachos.Lib.Run
import Nachos.Machine.Basic
import Nachos.Threads.Synch

/-!
# The synchronous disk, `synchdisk.cc` and `disk.cc`

Any number of threads call `ReadSector` and `WriteSector`. The disk does the transfer at once and
schedules the interrupt that says so; the caller waits for it on a semaphore that all callers share.
`Lock::Acquire` and `Lock::Release` are empty functions in `synch.cc`, so nothing keeps a second
thread out. A thread can lose the processor and the interrupt can come between any two steps.
-/

namespace Nachos

/-- `NumSectors`: `SectorsPerTrack * NumTracks`. -/
abbrev numSectors : ℕ := 32 * 32

/-- The bytes of a sector are those below `sectorSize`. -/
abbrev Sector := ℕ → Byte

/-- A call of `ReadSector`, or of `WriteSector` with its data. -/
structure DiskRequest where
  sectorNumber : ℤ
  data : Option Sector

/-- Where a thread is in `ReadSector` or `WriteSector`. Requests are numbered as they are made. -/
inductive DiskPoint where
  /-- At `lock->Acquire()`. -/
  | acquire (r : DiskRequest)
  /-- At `disk->ReadRequest()` or `disk->WriteRequest()`. -/
  | request (r : DiskRequest)
  /-- In `semaphore->P()`; `data` is the caller's buffer. -/
  | wait (id : ℕ) (data : Sector)
  /-- At `lock->Release()`. -/
  | release (id : ℕ) (data : Sector)

/-- The thread is between its request and the end of `P`. -/
def DiskPoint.Waits : DiskPoint → Prop
  | .wait _ _ => True
  | _ => False

/-- The `ASSERT`s of `ReadRequest` and `WriteRequest`. -/
inductive DiskAssert where
  | active
  | sectorNumber
  deriving DecidableEq, Repr

structure SynchDisk where
  semaphore : Semaphore
  active : Bool
  sectors : ℕ → Sector
  /-- The requests whose interrupt is scheduled, and those whose interrupt has come. -/
  scheduled : List ℕ
  completed : List ℕ
  /-- The number of requests made so far. -/
  issued : ℕ
  /-- The requests whose calls have returned. -/
  returned : List ℕ
  point : ℕ → Option DiskPoint
  failed : Option DiskAssert

namespace SynchDisk

/-! ## The operations -/

def start (sectors : ℕ → Sector) : SynchDisk where
  semaphore := Semaphore.new 0
  active := false
  sectors := sectors
  scheduled := []
  completed := []
  issued := 0
  returned := []
  point := fun _ => none
  failed := none

def moveTo (d : SynchDisk) (t : ℕ) (p : Option DiskPoint) : SynchDisk :=
  { d with point := Function.update d.point t p }

/-- `Disk::ReadRequest` and `Disk::WriteRequest`, with the move to `semaphore->P()`. -/
def request (d : SynchDisk) (t : ℕ) (r : DiskRequest) : SynchDisk :=
  if d.active then { d with failed := some .active }
  else if 0 ≤ r.sectorNumber ∧ r.sectorNumber < numSectors then
    { d with
      active := true
      sectors := match r.data with
        | some data => Function.update d.sectors r.sectorNumber.toNat data
        | none => d.sectors
      scheduled := d.scheduled ++ [d.issued]
      issued := d.issued + 1 }.moveTo t
        (some (.wait d.issued (r.data.getD (d.sectors r.sectorNumber.toNat))))
  else { d with failed := some .sectorNumber }

/-- `Disk::HandleInterrupt` with `SynchDisk::RequestDone`. -/
def requestDone (d : SynchDisk) (id : ℕ) : SynchDisk :=
  { d with
    active := false
    scheduled := d.scheduled.tail
    completed := d.completed ++ [id]
    semaphore := d.semaphore.V }

/-- The next step of thread `t`. -/
def run (d : SynchDisk) (t : ℕ) : DiskPoint → Option SynchDisk
  | .acquire r => some (d.moveTo t (some (.request r)))
  | .request r => some (d.request t r)
  | .wait id data =>
    if t ∈ d.semaphore.queue then none
    else if (d.semaphore.P t).2 then
      some ({ d with semaphore := (d.semaphore.P t).1 }.moveTo t (some (.release id data)))
    else some { d with semaphore := (d.semaphore.P t).1 }
  | .release id _ => some ({ d with returned := d.returned ++ [id] }.moveTo t none)

inductive Label where
  | call (t : ℕ) (r : DiskRequest)
  | run (t : ℕ)
  | interrupt

/-- A failed `ASSERT` aborts Nachos. -/
def step (d : SynchDisk) (l : Label) : Option SynchDisk :=
  if d.failed = none then
    match l with
    | .call t r => if (d.point t).isNone then some (d.moveTo t (some (.acquire r))) else none
    | .run t => (d.point t).bind (d.run t)
    | .interrupt => d.scheduled.head?.map d.requestDone
  else none

def Init (d : SynchDisk) : Prop := ∃ sectors, d = start sectors

/-! ## Calls that do not overlap -/

/-- A thread makes its request only while no other is between its own and the end of `P`. -/
def Alone (d : SynchDisk) (l : Label) : Prop :=
  ∀ t r, l = .run t → d.point t = some (.request r) →
    ∀ t' p, d.point t' = some p → ¬ p.Waits

/-- What holds of the disk while `w` waits: its own request is under way, or has been completed and
nobody has seen it. -/
inductive Owned (d : SynchDisk) : Option ℕ → Prop
  | idle (ha : d.active = false) (hs : d.scheduled = []) (hv : d.semaphore.value = 0) : Owned d none
  | busy {t id : ℕ} {data : Sector} (hp : d.point t = some (.wait id data)) (ha : d.active = true)
      (hs : d.scheduled = [id]) (hv : d.semaphore.value = 0) (hid : id < d.issued) :
      Owned d (some t)
  | served {t id : ℕ} {data : Sector} (hp : d.point t = some (.wait id data))
      (ha : d.active = false) (hs : d.scheduled = []) (hv : d.semaphore.value = 1)
      (hc : id ∈ d.completed) : Owned d (some t)

structure Inv (d : SynchDisk) : Prop where
  sound : d.failed ≠ some .active
  queue : ∀ t ∈ d.semaphore.queue, ∃ p, d.point t = some p ∧ p.Waits
  old : ∀ id ∈ d.completed, id < d.issued
  released : ∀ t id data, d.point t = some (.release id data) → id ∈ d.completed
  returned : ∀ id ∈ d.returned, id ∈ d.completed
  owned : ∃ w, Places.Holder DiskPoint.Waits d.point w ∧ d.Owned w

theorem inv_start (sectors : ℕ → Sector) : (start sectors).Inv where
  sound := nofun
  queue := nofun
  old := nofun
  released := nofun
  returned := nofun
  owned := ⟨none, fun _ => ⟨nofun, nofun⟩, .idle rfl rfl rfl⟩

variable {d d' : SynchDisk} {t : ℕ}

@[simp] theorem moveTo_point_self (d : SynchDisk) (t : ℕ) (p : Option DiskPoint) :
    (d.moveTo t p).point t = p := by
  simp [moveTo]

theorem moveTo_point_of_ne {u : ℕ} (h : u ≠ t) (d : SynchDisk) (p : Option DiskPoint) :
    (d.moveTo t p).point u = d.point u := by
  simp [moveTo, h]

/-- A thread that does not wait goes on to a point where it does not wait either. -/
theorem Inv.moveTo (h : d.Inv) {p : Option DiskPoint} (hnow : ∀ q ∈ d.point t, ¬ q.Waits)
    (hp : ∀ q ∈ p, ¬ q.Waits) (hr : ∀ id data, p ≠ some (.release id data)) :
    (d.moveTo t p).Inv := by
  obtain ⟨w, hw, ho⟩ := h.owned
  have hne : w ≠ some t := by
    intro e
    obtain ⟨q, hq, hwait⟩ := (hw t).mpr e
    exact hnow q hq hwait
  refine ⟨h.sound, fun u hu => ?_, h.old, fun u id data hu => ?_, h.returned, w, hw.pass hne hp, ?_⟩
  · obtain ⟨q, hq, hwait⟩ := h.queue u hu
    have hut : u ≠ t := by
      rintro rfl
      exact hnow q hq hwait
    exact ⟨q, (moveTo_point_of_ne hut d p).trans hq, hwait⟩
  · by_cases hut : u = t
    · rw [hut, moveTo_point_self] at hu
      exact absurd hu (hr id data)
    · rw [moveTo_point_of_ne hut] at hu
      exact h.released u id data hu
  · have hkeep : ∀ {u : ℕ} {q : DiskPoint}, w = some u → d.point u = some q →
        (d.moveTo t p).point u = some q := by
      rintro u q rfl hq
      exact (moveTo_point_of_ne (fun e => hne (congrArg some e)) d p).trans hq
    cases ho with
    | idle ha hs hv => exact .idle ha hs hv
    | busy hp' ha hs hv hid => exact .busy (hkeep rfl hp') ha hs hv hid
    | served hp' ha hs hv hc => exact .served (hkeep rfl hp') ha hs hv hc

/-- A request by a thread that is alone. -/
theorem Inv.request (h : d.Inv) (r : DiskRequest)
    (hfree : ∀ t' p, d.point t' = some p → ¬ p.Waits) : (d.request t r).Inv := by
  obtain ⟨w, hw, ho⟩ := h.owned
  have hnone : w = none := by
    cases w with
    | none => rfl
    | some u =>
      obtain ⟨q, hq, hwait⟩ := (hw u).mpr rfl
      exact absurd hwait (hfree u q hq)
  subst hnone
  cases ho with
  | idle ha hs hv =>
    unfold SynchDisk.request
    rw [ha, if_neg Bool.false_ne_true]
    split_ifs
    · refine ⟨h.sound, fun u hu => ?_, fun id hid => ?_, fun u id data hu => ?_, h.returned,
        some t, hw.take (.inl rfl) trivial, ?_⟩
      · obtain ⟨q, hq, hwait⟩ := h.queue u hu
        exact absurd hwait (hfree u q hq)
      · exact Nat.lt_succ_of_lt (h.old id hid)
      · by_cases hut : u = t
        · rw [hut, moveTo_point_self] at hu
          cases hu
        · rw [moveTo_point_of_ne hut] at hu
          exact h.released u id data hu
      · refine .busy (moveTo_point_self _ t _) rfl ?_ hv (Nat.lt_succ_self _)
        show d.scheduled ++ [d.issued] = [d.issued]
        rw [hs, List.nil_append]
    · exact ⟨nofun, h.queue, h.old, h.released, h.returned, none, hw, .idle rfl hs hv⟩

/-- `P` by the thread that waits. -/
theorem Inv.wait (h : d.Inv) {id : ℕ} {data : Sector} (hp : d.point t = some (.wait id data))
    (hs : d.run t (.wait id data) = some d') : d'.Inv := by
  obtain ⟨w, hw, ho⟩ := h.owned
  obtain rfl := hw.eq_some hp trivial
  simp only [run] at hs
  split at hs
  · cases hs
  by_cases hv : d.semaphore.value = 0
  · rw [Semaphore.P_zero hv, if_neg Bool.false_ne_true] at hs
    cases hs
    refine ⟨h.sound, fun u hu => ?_, h.old, h.released, h.returned, some t, hw, ?_⟩
    · rcases List.mem_append.mp hu with hu | hu
      · exact h.queue u hu
      · rw [List.mem_singleton.mp hu]
        exact ⟨_, hp, trivial⟩
    · cases ho with
      | busy hp' ha hs' hv' hid => exact .busy hp' ha hs' hv' hid
      | served hp' ha hs' hv' hc =>
        rw [hv] at hv'
        cases hv'
  · rw [Semaphore.P_pos hv, if_pos rfl] at hs
    cases hs
    cases ho with
    | busy hp' ha hs' hv' hid => exact absurd hv' hv
    | served hp' ha hs' hv' hc =>
      -- the completion it takes is that of its own request
      rw [hp] at hp'
      cases hp'
      refine ⟨h.sound, fun u hu => ?_, h.old, fun u id' data' hu => ?_, h.returned, none,
        hw.leave ?_, .idle ha hs' ?_⟩
      · obtain ⟨q, hq, hwait⟩ := h.queue u hu
        have hut : u ≠ t := by
          rintro rfl
          exact absurd hu ‹_›
        exact ⟨q, (moveTo_point_of_ne hut _ _).trans hq, hwait⟩
      · by_cases hut : u = t
        · rw [hut, moveTo_point_self] at hu
          cases hu
          exact hc
        · rw [moveTo_point_of_ne hut] at hu
          exact h.released u id' data' hu
      · rintro q ⟨⟩ hwait
        exact hwait
      · show intPred d.semaphore.value = 0
        rw [hv']
        rfl

theorem Inv.requestDone (h : d.Inv) {id : ℕ} (hid : d.scheduled.head? = some id) :
    (d.requestDone id).Inv := by
  obtain ⟨w, hw, ho⟩ := h.owned
  have hgrow : ∀ x ∈ d.completed, x ∈ d.completed ++ [id] := fun x hx => List.mem_append_left _ hx
  cases ho with
  | idle ha hs hv =>
    rw [hs] at hid
    cases hid
  | served hp ha hs hv hc =>
    rw [hs] at hid
    cases hid
  | @busy u id' data hp ha hs hv hlt =>
    rw [hs] at hid
    cases hid
    refine ⟨h.sound, fun v hv' => ?_, fun x hx => ?_, fun v x data' hx => ?_, fun x hx => ?_, some u,
      hw, ?_⟩
    · exact h.queue v (List.mem_of_mem_tail hv')
    · rcases List.mem_append.mp hx with hx | hx
      · exact h.old x hx
      · rw [List.mem_singleton.mp hx]
        exact hlt
    · exact hgrow x (h.released v x data' hx)
    · exact hgrow x (h.returned x hx)
    · refine .served hp rfl ?_ ?_ (List.mem_append_right _ (List.mem_singleton_self _))
      · show d.scheduled.tail = []
        rw [hs, List.tail_cons]
      · exact Semaphore.V_zero hv

theorem Inv.run (h : d.Inv) {p : DiskPoint} (hp : d.point t = some p)
    (hok : d.Alone (.run t)) (hs : d.run t p = some d') : d'.Inv := by
  cases p with
  | acquire r =>
    cases hs
    refine h.moveTo (fun q hq => ?_) (fun q hq => ?_) nofun
    · rw [hp] at hq
      cases hq
      exact fun hwait => hwait
    · cases hq
      exact fun hwait => hwait
  | request r =>
    cases hs
    exact h.request r (hok t r rfl hp)
  | wait id data => exact h.wait hp hs
  | release id data =>
    cases hs
    have hdone : { d with returned := d.returned ++ [id] }.Inv := by
      refine ⟨h.sound, h.queue, h.old, h.released, fun x hx => ?_, ?_⟩
      · rcases List.mem_append.mp hx with hx | hx
        · exact h.returned x hx
        · rw [List.mem_singleton.mp hx]
          exact h.released t id data hp
      · obtain ⟨w, hw, ho⟩ := h.owned
        refine ⟨w, hw, ?_⟩
        cases ho with
        | idle ha hs hv => exact .idle ha hs hv
        | busy hp' ha hs hv hid => exact .busy hp' ha hs hv hid
        | served hp' ha hs hv hc => exact .served hp' ha hs hv hc
    refine hdone.moveTo (fun q hq => ?_) nofun nofun
    have hq' : d.point t = some q := hq
    rw [hp] at hq'
    cases hq'
    exact fun hwait => hwait

theorem Inv.step (h : d.Inv) {l : Label} (hok : d.Alone l) (hs : d.step l = some d') : d'.Inv := by
  unfold SynchDisk.step at hs
  split_ifs at hs
  cases l with
  | call t r =>
    obtain ⟨hnone, ⟨⟩⟩ := Option.ite_none_right_eq_some.mp hs
    refine h.moveTo (fun q hq => ?_) (fun q hq => ?_) nofun
    · rw [Option.isNone_iff_eq_none.mp hnone] at hq
      cases hq
    · cases hq
      exact fun hwait => hwait
  | run t =>
    obtain ⟨p, hp, hr⟩ := Option.bind_eq_some_iff.mp hs
    exact h.run hp hok hr
  | interrupt =>
    obtain ⟨id, hid, rfl⟩ := Option.map_eq_some_iff.mp hs
    exact h.requestDone hid

theorem inv_of_reachBy (h : Run.ReachBy step Alone Init d) : d.Inv := by
  apply h.inv Inv
  · rintro _ ⟨sectors, rfl⟩
    exact inv_start sectors
  · exact fun _ _ _ hi hok hs => hi.step hok hs

/-- A thread that makes its request while another waits. -/
theorem Inv.overlap (h : d.Inv) (hok : d.failed = none) {r : DiskRequest}
    (hp : d.point t = some (.request r)) (hr : 0 ≤ r.sectorNumber ∧ r.sectorNumber < numSectors)
    {t' : ℕ} {q : DiskPoint} (hq : d.point t' = some q) (hwait : q.Waits) :
    (∃ d', d.step (.run t) = some d' ∧ d'.failed = some .active) ∨
    ∃ d' id data, Run.exec SynchDisk.step d [.run t, .run t] = some d' ∧
      d'.point t = some (.release id data) ∧ id ∉ d'.completed ∧ id ∈ d'.scheduled := by
  obtain ⟨w, hw, ho⟩ := h.owned
  obtain rfl := hw.eq_some hq hwait
  have hstep : d.step (.run t) = some (d.request t r) := by
    unfold SynchDisk.step
    rw [if_pos hok]
    show (d.point t).bind (d.run t) = _
    rw [hp]
    rfl
  cases ho with
  | busy hp' ha hs hv hid =>
    refine .inl ⟨_, hstep, ?_⟩
    unfold SynchDisk.request
    rw [if_pos ha]
  | served hp' ha hs hv hc =>
    have hasleep : t ∉ d.semaphore.queue := by
      intro hmem
      obtain ⟨p, hp₁, hw₁⟩ := h.queue t hmem
      rw [hp] at hp₁
      cases hp₁
      exact hw₁
    -- the request goes through, and `P` finds the completion of the other one
    obtain ⟨data, hreq⟩ : ∃ data, (d.request t r).point t = some (.wait d.issued data) ∧
        (d.request t r).failed = none ∧ (d.request t r).semaphore = d.semaphore ∧
        (d.request t r).completed = d.completed ∧ (d.request t r).scheduled = [d.issued] := by
      unfold SynchDisk.request
      rw [ha, if_neg Bool.false_ne_true, if_pos hr]
      refine ⟨_, moveTo_point_self _ t _, hok, rfl, rfl, ?_⟩
      show d.scheduled ++ [d.issued] = _
      rw [hs, List.nil_append]
    obtain ⟨hpoint, hfailed, hsem, hcompleted, hscheduled⟩ := hreq
    have hv' : (d.request t r).semaphore.value ≠ 0 := by
      rw [hsem, hv]
      decide
    have hstep' : (d.request t r).step (.run t) = some ({ d.request t r with
        semaphore := ((d.request t r).semaphore.P t).1 }.moveTo t (some (.release d.issued data))) := by
      unfold SynchDisk.step
      rw [if_pos hfailed]
      show ((d.request t r).point t).bind ((d.request t r).run t) = _
      rw [hpoint, Option.bind_some, SynchDisk.run, if_neg (by rw [hsem]; exact hasleep),
        Semaphore.P_pos hv', if_pos rfl]
    have hexec := Run.exec_cons_eq_some.mpr ⟨_, hstep, Run.exec_cons_eq_some.mpr
      ⟨_, hstep', Run.exec_nil _⟩⟩
    refine .inr ⟨_, d.issued, data, hexec, moveTo_point_self _ t _, ?_, ?_⟩
    · show d.issued ∉ (d.request t r).completed
      rw [hcompleted]
      exact fun hmem => Nat.lt_irrefl _ (h.old _ hmem)
    · show d.issued ∈ (d.request t r).scheduled
      rw [hscheduled]
      exact List.mem_singleton_self _

/-- **When the disk is used by one thread at a time.** In every run in which a thread makes its
request only while no other waits, the `ASSERT(!active)` of the disk never fails, and a call returns
only when its own request has been completed. A request at any other moment fails that `ASSERT`, or
its thread takes the completion of the other request for its own. -/
theorem disk_exclusive (h : Run.ReachBy step Alone Init d) :
    d.failed ≠ some .active ∧
    (∀ t id data, d.point t = some (.release id data) → id ∈ d.completed) ∧
    (∀ id ∈ d.returned, id ∈ d.completed) ∧
    ∀ t r, d.failed = none → d.point t = some (.request r) →
      0 ≤ r.sectorNumber ∧ r.sectorNumber < numSectors → ¬ d.Alone (.run t) →
      (∃ d', d.step (.run t) = some d' ∧ d'.failed = some .active) ∨
      ∃ d' id data, Run.exec step d [.run t, .run t] = some d' ∧
        d'.point t = some (.release id data) ∧ id ∉ d'.completed ∧ id ∈ d'.scheduled := by
  have hi := inv_of_reachBy h
  refine ⟨hi.sound, hi.released, hi.returned, fun t r hok hp hr hnot => ?_⟩
  simp only [Alone, not_forall, not_not] at hnot
  obtain ⟨t₁, r₁, hl, hp₁, t', q, hq, hwait⟩ := hnot
  exact hi.overlap hok hp hr hq hwait

/-- `ReadSector(0)` -/
def readZero : DiskRequest := ⟨0, none⟩

/-- Two threads read at the same time: the second one finds the disk active. And where the first
has not seen its completion yet, the second returns with it before its own request is done. -/
theorem not_disk_exclusive :
    (∃ d, Run.exec step (start fun _ _ => 0) [.call 0 readZero, .run 0, .run 0, .run 0,
        .call 1 readZero, .run 1, .run 1] = some d ∧ d.failed = some .active) ∧
    ∃ d, Run.exec step (start fun _ _ => 0) [.call 0 readZero, .run 0, .run 0, .run 0, .interrupt,
        .call 1 readZero, .run 1, .run 1, .run 1, .run 1] = some d ∧
      d.failed = none ∧ d.returned = [1] ∧ d.completed = [0] ∧ d.scheduled = [1] :=
  ⟨⟨_, rfl, rfl⟩, _, rfl, rfl, rfl, rfl, rfl⟩

/-- The thread whose step it is. -/
def Label.thread : Label → Option ℕ
  | .call t _ => some t
  | .run t => some t
  | .interrupt => none

theorem request_point_of_ne {u : ℕ} (hu : u ≠ t) (r : DiskRequest) :
    (d.request t r).point u = d.point u := by
  unfold request
  split_ifs
  · rfl
  · exact moveTo_point_of_ne hu _ _
  · rfl

/-- A step leaves the other threads where they are. -/
theorem step_point_of_ne {l : Label} {u : ℕ} (hs : d.step l = some d') (hu : l.thread ≠ some u) :
    d'.point u = d.point u := by
  unfold step at hs
  split_ifs at hs
  cases l with
  | call t r =>
    obtain ⟨-, ⟨⟩⟩ := Option.ite_none_right_eq_some.mp hs
    exact moveTo_point_of_ne (fun e => hu (congrArg some e.symm)) _ _
  | run t =>
    have hut : u ≠ t := fun e => hu (congrArg some e.symm)
    obtain ⟨p, -, hr⟩ := Option.bind_eq_some_iff.mp hs
    cases p with
    | acquire r =>
      cases hr
      exact moveTo_point_of_ne hut _ _
    | request r =>
      cases hr
      exact request_point_of_ne hut r
    | wait id data =>
      simp only [run] at hr
      split_ifs at hr
      · cases hr
        exact moveTo_point_of_ne hut _ _
      · cases hr
        rfl
    | release id data =>
      cases hr
      exact moveTo_point_of_ne hut _ _
  | interrupt =>
    obtain ⟨id, -, rfl⟩ := Option.map_eq_some_iff.mp hs
    rfl

instance : DecidablePred DiskPoint.Waits
  | .wait _ _ => isTrue trivial
  | .acquire _ | .request _ | .release _ _ => isFalse id

/-- `Alone`, computed for the threads below `n`. -/
def aloneBelow (n : ℕ) (d : SynchDisk) : Label → Bool
  | .run t =>
    match d.point t with
    | some (.request _) => (List.range n).all fun u => (d.point u).all fun p => decide (¬ p.Waits)
    | _ => true
  | _ => true

theorem alone_of_aloneBelow {n : ℕ} (h : ∀ u, n ≤ u → d.point u = none) {l : Label}
    (ha : d.aloneBelow n l = true) : d.Alone l := by
  rintro t r rfl hp t' p hp'
  have hlt : t' < n := by
    by_contra hge
    rw [h t' (not_lt.mp hge)] at hp'
    cases hp'
  simp only [aloneBelow, hp] at ha
  have hall := List.all_eq_true.mp ha t' (List.mem_range.mpr hlt)
  rw [hp'] at hall
  exact of_decide_eq_true hall

/-- A run of the threads below `n`. -/
theorem admits_below {n : ℕ} {ls : List Label}
    (hls : ∀ l ∈ ls, ∀ u, l.thread = some u → u < n) (h : ∀ u, n ≤ u → d.point u = none)
    (ha : Run.admitted step (fun d l => d.aloneBelow n l = true) d ls = true) :
    Run.Admits step Alone d ls := by
  induction ls generalizing d with
  | nil => trivial
  | cons l ls ih =>
    obtain ⟨hl, hrest⟩ := Bool.and_eq_true_iff.mp ha
    refine ⟨alone_of_aloneBelow h (of_decide_eq_true hl), fun d' hd => ?_⟩
    rw [hd] at hrest
    refine ih (fun l' hl' => hls l' (List.mem_cons_of_mem l hl')) (fun u hu => ?_) hrest
    have hother : l.thread ≠ some u := fun he => by
      have := hls l List.mem_cons_self u he
      omega
    rw [step_point_of_ne hd hother, h u hu]

/-- Thread 1 calls `ReadSector` while thread 0 waits for its own sector, makes its request when
thread 0 has got out of `P`, and waits in its turn. -/
def readInTurn : List Label :=
  [.call 0 readZero, .run 0, .run 0, .call 1 readZero, .run 1, .run 0, .interrupt, .run 0, .run 1,
    .run 0, .run 1, .interrupt, .run 1, .run 1]

theorem disk_exclusive_in_turn : ∃ d, Run.exec step (start fun _ _ => 0) readInTurn = some d ∧
    d.failed ≠ some .active ∧ (∀ id ∈ d.returned, id ∈ d.completed) ∧ d.returned = [0, 1] := by
  have hadmits : Run.Admits step Alone (start fun _ _ => 0) readInTurn := by
    refine admits_below (n := 2) ?_ (fun _ _ => rfl) (by decide +kernel)
    have hthreads : readInTurn.all (fun l => l.thread.all fun u => decide (u < 2)) = true := rfl
    intro l hl u hu
    have hlt := List.all_eq_true.mp hthreads l hl
    rw [hu] at hlt
    exact of_decide_eq_true hlt
  obtain ⟨hsound, -, hreturned, -⟩ :=
    disk_exclusive ⟨start fun _ _ => 0, readInTurn, ⟨_, rfl⟩, hadmits, rfl⟩
  exact ⟨_, rfl, hsound, hreturned, rfl⟩

end SynchDisk

end Nachos
