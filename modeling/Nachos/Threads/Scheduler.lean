import Mathlib.Data.Set.Insert
import Nachos.Lib.Places
import Nachos.Lib.Run
import Nachos.Threads.Synch

/-!
# Threads and the scheduler, `thread.cc` and `scheduler.cc`

The current thread forks others, yields, calls `P` and `V` and finishes; interrupt handlers call
`V`. All of these run with interrupts off, so each is one step, up to the switch to another thread.
A thread that gets the processor back inside `P` tests the value again before anything else
happens. A thread that finds nobody ready in `Sleep` stays the current one and idles until an
interrupt has made a thread ready, which can be itself.

`Sched.Placed` is the invariant: every thread that has been forked and has not finished is on one
queue, except the current one while it runs.
-/

namespace Nachos

inductive ThreadStatus where
  | justCreated | running | ready | blocked
  deriving DecidableEq, Repr

/-- What the current thread is doing. -/
inductive Mode where
  | running
  /-- It is back in the loop of `P` on a semaphore, with interrupts off. -/
  | testing (i : ℕ)
  /-- It is in the loop of `Sleep`. -/
  | idle
  deriving DecidableEq, Repr

structure Sched where
  currentThread : ℕ
  mode : Mode
  readyList : List ℕ
  sems : ℕ → Semaphore
  status : ℕ → ThreadStatus
  /-- The semaphore in whose `P` a thread sleeps. -/
  inP : ℕ → Option ℕ
  /-- A thread that has not run yet starts in `ThreadRoot`, not in `Run`. -/
  fresh : ℕ → Bool
  threadToBeDestroyed : Option ℕ
  deleted : List ℕ
  /-- The main thread and those that have been forked. -/
  threads : List ℕ
  finished : List ℕ
  /-- The threads put on the ready list and those taken off it, in order. -/
  arrived : List ℕ
  served : List ℕ

namespace Sched

/-! ## The operations -/

def readyToRun (s : Sched) (thread : ℕ) : Sched :=
  { s with
    status := Function.update s.status thread .ready
    readyList := s.readyList ++ [thread]
    arrived := s.arrived ++ [thread] }

def findNextToRun (s : Sched) : Option (ℕ × Sched) :=
  match s.readyList with
  | [] => none
  | nextThread :: rest =>
    some (nextThread, { s with readyList := rest, served := s.served ++ [nextThread] })

/-- `Scheduler::Run`, up to the point where `nextThread` goes on. One that resumes in `Run` deletes
the thread that finished. -/
def run (s : Sched) (nextThread : ℕ) : Sched :=
  { s with
    currentThread := nextThread
    mode := (s.inP nextThread).elim .running .testing
    status := Function.update s.status nextThread .running
    fresh := Function.update s.fresh nextThread false
    threadToBeDestroyed := if s.fresh nextThread then s.threadToBeDestroyed else none
    deleted := s.deleted ++ if s.fresh nextThread then [] else s.threadToBeDestroyed.toList }

/-- `status = BLOCKED`. -/
def block (s : Sched) : Sched :=
  { s with status := Function.update s.status s.currentThread .blocked }

def sleep (s : Sched) : Sched :=
  match s.block.findNextToRun with
  | none => { s.block with mode := .idle }
  | some (nextThread, s) => s.run nextThread

def yield (s : Sched) : Sched :=
  match s.findNextToRun with
  | none => s
  | some (nextThread, s) => (s.readyToRun s.currentThread).run nextThread

def fork (s : Sched) (thread : ℕ) : Sched :=
  { s with threads := s.threads ++ [thread] }.readyToRun thread

def finish (s : Sched) : Sched :=
  { s with
    threadToBeDestroyed := some s.currentThread
    finished := s.finished ++ [s.currentThread] }.sleep

/-- A round of the loop in `P`. -/
def P (s : Sched) (i : ℕ) : Sched :=
  if ((s.sems i).P s.currentThread).2 then
    { s with
      sems := Function.update s.sems i ((s.sems i).P s.currentThread).1
      inP := Function.update s.inP s.currentThread none
      mode := .running }
  else
    { s with
      sems := Function.update s.sems i ((s.sems i).P s.currentThread).1
      inP := Function.update s.inP s.currentThread (some i) }.sleep

def V (s : Sched) (i : ℕ) : Sched :=
  match (s.sems i).queue with
  | [] => { s with sems := Function.update s.sems i (s.sems i).V }
  | thread :: _ => { s with sems := Function.update s.sems i (s.sems i).V }.readyToRun thread

/-! ## Steps -/

inductive Op where
  | fork (thread : ℕ)
  | yield
  | P (i : ℕ)
  /-- The current thread is back in `P` and tests the value again. -/
  | again
  | V (i : ℕ)
  | finish
  /-- An interrupt handler calls `V`. -/
  | interruptV (i : ℕ)
  /-- `Idle` returns and the loop of `Sleep` finds a thread. -/
  | wakeUp
  deriving DecidableEq, Repr

def step (s : Sched) : Op → Option Sched
  | .fork thread =>
    if s.mode = .running ∧ thread ∉ s.threads then some (s.fork thread) else none
  | .yield => if s.mode = .running then some s.yield else none
  | .P i => if s.mode = .running then some (s.P i) else none
  | .again =>
    match s.mode with
    | .testing i => some (s.P i)
    | _ => none
  | .V i => if s.mode = .running then some (s.V i) else none
  | .finish => if s.mode = .running then some s.finish else none
  | .interruptV i => if s.mode = .running ∨ s.mode = .idle then some (s.V i) else none
  | .wakeUp =>
    if s.mode = .idle then s.findNextToRun.map fun (nextThread, s) => s.run nextThread else none

/-- The main thread runs, and no thread waits for a semaphore. -/
def start (values : ℕ → ℤ) : Sched where
  currentThread := 0
  mode := .running
  readyList := []
  sems := fun i => Semaphore.new (values i)
  status := Function.update (fun _ => .justCreated) 0 .running
  inP := fun _ => none
  fresh := fun t => t ≠ 0
  threadToBeDestroyed := none
  deleted := []
  threads := [0]
  finished := []
  arrived := []
  served := []

def Init (s : Sched) : Prop := ∃ values, s = start values

def Alive (s : Sched) (t : ℕ) : Prop := t ∈ s.threads ∧ t ∉ s.finished

/-! ## Where the threads are -/

/-- The lists a thread can be on. -/
inductive Queue where
  | ready
  | sem (i : ℕ)
  deriving DecidableEq

def lists (readyList : List ℕ) (sems : ℕ → Semaphore) : Queue → List ℕ
  | .ready => readyList
  | .sem i => (sems i).queue

theorem lists_ready (l l' : List ℕ) (sems : ℕ → Semaphore) :
    lists l' sems = Function.update (lists l sems) .ready l' := by
  funext k
  cases k with
  | ready => rw [Function.update_self, lists]
  | sem i => rw [Function.update_of_ne (show Queue.sem i ≠ .ready from nofun), lists, lists]

theorem lists_sem (l : List ℕ) (sems : ℕ → Semaphore) (i : ℕ) (x : Semaphore) :
    lists l (Function.update sems i x) = Function.update (lists l sems) (.sem i) x.queue := by
  funext k
  cases k with
  | ready => rw [Function.update_of_ne (show Queue.ready ≠ .sem i from nofun), lists, lists]
  | sem j =>
    by_cases hj : j = i
    · subst hj
      rw [Function.update_self, lists, Function.update_self]
    · rw [Function.update_of_ne fun e => hj (Queue.sem.inj e), lists, lists,
        Function.update_of_ne hj]

def Queue.status : Queue → ThreadStatus
  | .ready => .ready
  | .sem _ => .blocked

/-- A thread that does not run is alive exactly if it is on a queue, and has the status of this
queue. -/
def Resting (s : Sched) (t : ℕ) : Option Queue → Prop
  | some k => s.status t = k.status ∧ s.Alive t
  | none => ¬ s.Alive t

theorem Resting.congr {s s' : Sched} {t : ℕ} {p : Option Queue} (h : s.Resting t p)
    (hs : s'.status t = s.status t) (ha : s'.Alive t ↔ s.Alive t) : s'.Resting t p := by
  cases p with
  | none => exact fun h' => h (ha.mp h')
  | some k => exact ⟨hs.trans h.1, ha.mpr h.2⟩

/-- What holds of the ready list and of the deleted threads. -/
structure Tidy (s : Sched) : Prop where
  fifo : s.served ++ s.readyList = s.arrived
  /-- Only a thread that has finished is deleted. -/
  doomed : ∀ t, t ∈ s.deleted ∨ s.threadToBeDestroyed = some t → t ∈ s.finished
  known : ∀ t ∈ s.finished, t ∈ s.threads

/-- Every thread is where `place` says, and those in `hand` are on no list. -/
structure Placed (s : Sched) (hand : Set ℕ) (place : ℕ → Option Queue) : Prop where
  holds : Places.Holds (lists s.readyList s.sems) place
  rest : ∀ t, t ∉ hand → s.Resting t (place t)
  hand : ∀ t ∈ hand, place t = none ∧ s.Alive t
  tidy : s.Tidy

namespace Placed

variable {s s' : Sched} {hand : Set ℕ} {place : ℕ → Option Queue} {t : ℕ}

/-- Nothing has changed for the threads that are not in the hand. -/
theorem congr (h : s.Placed hand place)
    (hl : lists s'.readyList s'.sems = lists s.readyList s.sems)
    (hs : ∀ u, u ∉ hand → s'.status u = s.status u) (ha : ∀ u, s'.Alive u ↔ s.Alive u)
    (hd : s'.Tidy) : s'.Placed hand place where
  holds := hl ▸ h.holds
  rest := fun u hu => (h.rest u hu).congr (hs u hu) (ha u)
  hand := fun u hu => ⟨(h.hand u hu).1, (ha u).mpr (h.hand u hu).2⟩
  tidy := hd

/-- A thread in the hand goes to the end of a queue. -/
theorem push (h : s.Placed (insert t hand) place) (ht : t ∉ hand) (k : Queue)
    (hl : lists s'.readyList s'.sems =
      Function.update (lists s.readyList s.sems) k (lists s.readyList s.sems k ++ [t]))
    (hs : s'.status = Function.update s.status t k.status) (ha : ∀ u, s'.Alive u ↔ s.Alive u)
    (hd : s'.Tidy) : s'.Placed hand (Function.update place t (some k)) where
  holds := by
    rw [hl]
    exact h.holds.push (h.hand t (Set.mem_insert t hand)).1 k
  rest := by
    intro u hu
    by_cases hut : u = t
    · subst hut
      rw [Function.update_self]
      refine ⟨?_, (ha u).mpr (h.hand u (Set.mem_insert u hand)).2⟩
      rw [hs, Function.update_self]
    · rw [Function.update_of_ne hut]
      refine (h.rest u fun hmem => hmem.elim hut hu).congr ?_ (ha u)
      rw [hs, Function.update_of_ne hut]
  hand := by
    intro u hu
    have hut : u ≠ t := fun e => ht (e ▸ hu)
    rw [Function.update_of_ne hut]
    have hhand := h.hand u (Set.mem_insert_of_mem t hu)
    exact ⟨hhand.1, (ha u).mpr hhand.2⟩
  tidy := hd

/-- The first thread of a queue is taken into the hand. -/
theorem pop (h : s.Placed hand place) {k : Queue} {n : ℕ} {rest : List ℕ}
    (hk : lists s.readyList s.sems k = n :: rest)
    (hl : lists s'.readyList s'.sems = Function.update (lists s.readyList s.sems) k rest)
    (hs : s'.status = s.status) (ha : ∀ u, s'.Alive u ↔ s.Alive u) (hd : s'.Tidy) :
    n ∉ hand ∧ s'.Placed (insert n hand) (Function.update place n none) := by
  have hplace : place n = some k := h.holds.place_of_mem (by
    rw [hk]
    exact List.mem_cons_self)
  have hout : n ∉ hand := by
    intro hmem
    rw [(h.hand n hmem).1] at hplace
    cases hplace
  refine ⟨hout, ?_, ?_, ?_, hd⟩
  · rw [hl]
    exact h.holds.pop hk
  · intro u hu
    rw [Set.mem_insert_iff, not_or] at hu
    rw [Function.update_of_ne hu.1]
    exact (h.rest u hu.2).congr (by rw [hs]) (ha u)
  · intro u hu
    by_cases hun : u = n
    · subst hun
      have hrest := h.rest u hout
      rw [hplace] at hrest
      exact ⟨Function.update_self u _ _, (ha u).mpr hrest.2⟩
    · rw [Function.update_of_ne hun]
      have hhand := h.hand u (hu.resolve_left hun)
      exact ⟨hhand.1, (ha u).mpr hhand.2⟩

theorem readyToRun (h : s.Placed (insert t hand) place) (ht : t ∉ hand) :
    (s.readyToRun t).Placed hand (Function.update place t (some .ready)) := by
  refine h.push ht .ready (lists_ready s.readyList _ s.sems) rfl ?_ ⟨?_, h.tidy.doomed, h.tidy.known⟩
  · exact fun _ => Iff.rfl
  show s.served ++ (s.readyList ++ [t]) = s.arrived ++ [t]
  rw [← List.append_assoc, h.tidy.fifo]

theorem findNextToRun (h : s.Placed hand place) {n : ℕ} (hn : s.findNextToRun = some (n, s')) :
    n ∉ hand ∧ s'.Placed (insert n hand) (Function.update place n none) := by
  unfold Sched.findNextToRun at hn
  cases hl : s.readyList with
  | nil =>
    rw [hl] at hn
    cases hn
  | cons m rest =>
    rw [hl] at hn
    cases hn
    refine h.pop (k := .ready) hl (lists_ready s.readyList rest s.sems) rfl ?_ ⟨?_, h.tidy.doomed, h.tidy.known⟩
    · exact fun _ => Iff.rfl
    show s.served ++ [n] ++ rest = s.arrived
    rw [← h.tidy.fifo, hl, List.append_assoc]
    rfl

/-- `V` takes the first sleeper off the queue of a semaphore. -/
theorem dequeue (h : s.Placed hand place) {i n : ℕ} {rest : List ℕ}
    (hq : (s.sems i).queue = n :: rest) :
    n ∉ hand ∧ { s with sems := Function.update s.sems i (s.sems i).V }.Placed (insert n hand)
      (Function.update place n none) := by
  refine h.pop (k := .sem i) hq ?_ rfl ?_ ⟨h.tidy.fifo, h.tidy.doomed, h.tidy.known⟩
  swap
  · exact fun _ => Iff.rfl
  show lists s.readyList (Function.update s.sems i (s.sems i).V) = _
  rw [lists_sem, show (s.sems i).V.queue = rest by rw [Semaphore.V, hq]; rfl]

end Placed

/-! ## The invariant -/

/-- While it runs, the current thread is the only one that is alive and on no list. -/
def Inv (s : Sched) : Prop :=
  ∃ place, s.Placed (if s.mode = .idle then ∅ else {s.currentThread}) place ∧
    (s.mode ≠ .idle → s.status s.currentThread = .running)

theorem inv_start (values : ℕ → ℤ) : (start values).Inv := by
  refine ⟨fun _ => none, ⟨?_, ?_, ?_, rfl, ?_, fun _ ht => nomatch ht⟩, fun _ => rfl⟩
  · rintro a (_ | i) <;> rfl
  · intro t ht ha
    exact ht (List.mem_singleton.mp ha.1)
  · rintro t rfl
    exact ⟨rfl, List.mem_cons_self, List.not_mem_nil⟩
  · rintro t (ht | ht) <;> cases ht

variable {s s' : Sched}

theorem Placed.run {n : ℕ} {place : ℕ → Option Queue} (h : s.Placed {n} place) : (s.run n).Inv := by
  have hmode : (s.run n).mode ≠ .idle := by
    show (s.inP n).elim Mode.running Mode.testing ≠ Mode.idle
    cases s.inP n <;> exact nofun
  refine ⟨place, ?_, fun _ => Function.update_self n _ _⟩
  rw [if_neg hmode]
  refine h.congr rfl (fun u hu => Function.update_of_ne hu _ _) ?_
    ⟨h.tidy.fifo, ?_, h.tidy.known⟩
  · exact fun _ => Iff.rfl
  intro t ht
  apply h.tidy.doomed
  simp only [Sched.run] at ht
  cases hf : s.fresh n with
  | true => simpa [hf] using ht
  | false => simpa [hf] using ht

/-- The thread that goes to sleep is on its queue already, or has finished. -/
theorem Placed.sleep {place : ℕ → Option Queue} (h : s.block.Placed ∅ place) : s.sleep.Inv := by
  unfold Sched.sleep
  cases hn : s.block.findNextToRun with
  | none =>
    refine ⟨place, ?_, fun hm => absurd rfl hm⟩
    rw [if_pos rfl]
    exact h.congr rfl (fun _ _ => rfl) (fun _ => Iff.rfl) ⟨h.tidy.fifo, h.tidy.doomed, h.tidy.known⟩
  | some p =>
    have hpop := (h.findNextToRun hn).2
    rw [insert_empty_eq] at hpop
    exact hpop.run

theorem Inv.placed (h : s.Inv) (hm : s.mode ≠ .idle) :
    ∃ place, s.Placed {s.currentThread} place ∧ s.status s.currentThread = .running := by
  obtain ⟨place, hp, hr⟩ := h
  rw [if_neg hm] at hp
  exact ⟨place, hp, hr hm⟩

theorem findNextToRun_currentThread {n : ℕ} (h : s.findNextToRun = some (n, s')) :
    s'.currentThread = s.currentThread := by
  unfold findNextToRun at h
  split at h
  · cases h
  · cases h
    rfl

theorem Inv.yield (h : s.Inv) (hm : s.mode ≠ .idle) : s.yield.Inv := by
  obtain ⟨place, hp, -⟩ := h.placed hm
  unfold Sched.yield
  cases hn : s.findNextToRun with
  | none => exact h
  | some p =>
    obtain ⟨n, s'⟩ := p
    obtain ⟨hout, hpop⟩ := hp.findNextToRun hn
    have hcur := findNextToRun_currentThread hn
    rw [← hcur] at hout hpop
    -- the next thread and the current one are in the hand
    rw [Set.pair_comm] at hpop
    exact (hpop.readyToRun fun e => hout e.symm).run

theorem Inv.fork (h : s.Inv) {t : ℕ} (hm : s.mode = .running) (ht : t ∉ s.threads) :
    (s.fork t).Inv := by
  have hidle : s.mode ≠ .idle := by rw [hm]; exact nofun
  obtain ⟨place, hp, hr⟩ := h.placed hidle
  have hdead : ¬ s.Alive t := fun ha => ht ha.1
  have htc : t ∉ ({s.currentThread} : Set ℕ) := fun e => hdead ((hp.hand t e).2)
  have hnone : place t = none := by
    have hrest := hp.rest t htc
    cases hpl : place t with
    | none => rfl
    | some k =>
      rw [hpl] at hrest
      exact absurd hrest.2 hdead
  -- the new thread is in the hand until it is put on the ready list
  have hnew : { s with threads := s.threads ++ [t] }.Placed (insert t {s.currentThread}) place := by
    have halive : ∀ u, u ≠ t → ({ s with threads := s.threads ++ [t] }.Alive u ↔ s.Alive u) := by
      intro u hu
      show u ∈ s.threads ++ [t] ∧ _ ↔ _
      rw [List.mem_append, List.mem_singleton, or_iff_left hu]
      exact Iff.rfl
    refine ⟨hp.holds, ?_, ?_, hp.tidy.fifo, hp.tidy.doomed, fun u hu => ?_⟩
    · intro u hu
      rw [Set.mem_insert_iff, not_or] at hu
      exact (hp.rest u hu.2).congr rfl (halive u hu.1)
    · intro u hu
      by_cases hut : u = t
      · subst hut
        refine ⟨hnone, List.mem_append_right _ List.mem_cons_self, fun hf => ?_⟩
        exact ht (hp.tidy.known u hf)
      · obtain ⟨h1, h2⟩ := hp.hand u (hu.resolve_left hut)
        exact ⟨h1, (halive u hut).mpr h2⟩
    · exact List.mem_append_left _ (hp.tidy.known u hu)
  have hpush := hnew.readyToRun htc
  have hmode : (s.fork t).mode ≠ .idle := hidle
  refine ⟨Function.update place t (some .ready), ?_, fun _ => ?_⟩
  · rw [if_neg hmode]
    exact hpush
  · show Function.update s.status t .ready s.currentThread = _
    rw [Function.update_of_ne fun e => htc e.symm, hr]

theorem Inv.finish (h : s.Inv) (hm : s.mode ≠ .idle) : s.finish.Inv := by
  obtain ⟨place, hp, -⟩ := h.placed hm
  apply @Placed.sleep _ place
  refine ⟨hp.holds, ?_, fun _ hu => hu.elim, hp.tidy.fifo, ?_, ?_⟩
  · intro u _
    by_cases hu : u = s.currentThread
    · rw [hu, (hp.hand _ rfl).1]
      exact fun ha => ha.2 (List.mem_append_right _ List.mem_cons_self)
    · refine (hp.rest u hu).congr (Function.update_of_ne hu _ _) ?_
      show _ ∧ u ∉ s.finished ++ [s.currentThread] ↔ _
      rw [List.mem_append, List.mem_singleton, or_iff_left hu]
      exact Iff.rfl
  · intro u hu
    show u ∈ s.finished ++ [s.currentThread]
    rw [List.mem_append, List.mem_singleton]
    rcases hu with hu | hu
    · exact Or.inl (hp.tidy.doomed u (Or.inl hu))
    · exact Or.inr (Option.some.inj hu).symm
  · intro u hu
    rcases List.mem_append.mp hu with hu | hu
    · exact hp.tidy.known u hu
    · rw [List.mem_singleton.mp hu]
      exact (hp.hand _ rfl).2.1

theorem Inv.P (h : s.Inv) (hm : s.mode ≠ .idle) (i : ℕ) : (s.P i).Inv := by
  obtain ⟨place, hp, hr⟩ := h.placed hm
  unfold Sched.P
  by_cases hv : (s.sems i).value = 0
  · rw [Semaphore.P_zero hv, if_neg Bool.false_ne_true]
    rw [← insert_empty_eq] at hp
    apply Placed.sleep
    refine hp.push (Set.notMem_empty _) (.sem i) ?_ rfl (fun _ => Iff.rfl) ⟨hp.tidy.fifo, hp.tidy.doomed, hp.tidy.known⟩
    exact lists_sem s.readyList s.sems i _
  · rw [Semaphore.P_pos hv, if_pos rfl]
    refine ⟨place, ?_, fun _ => hr⟩
    rw [if_neg nofun]
    refine hp.congr ?_ (fun _ _ => rfl) (fun _ => Iff.rfl) ⟨hp.tidy.fifo, hp.tidy.doomed, hp.tidy.known⟩
    show lists s.readyList (Function.update s.sems i _) = _
    rw [lists_sem]
    exact Function.update_eq_self (Queue.sem i) _

theorem Inv.V (h : s.Inv) (i : ℕ) : (s.V i).Inv := by
  obtain ⟨place, hp, hr⟩ := h
  unfold Sched.V
  cases hq : (s.sems i).queue with
  | nil =>
    refine ⟨place, ?_, hr⟩
    refine hp.congr ?_ (fun _ _ => rfl) (fun _ => Iff.rfl) ⟨hp.tidy.fifo, hp.tidy.doomed, hp.tidy.known⟩
    show lists s.readyList (Function.update s.sems i _) = _
    rw [lists_sem, show (s.sems i).V.queue = (s.sems i).queue by rw [Semaphore.V, hq]; rfl]
    exact Function.update_eq_self (Queue.sem i) _
  | cons n rest =>
    obtain ⟨hout, hpop⟩ := hp.dequeue hq
    refine ⟨_, hpop.readyToRun hout, fun hm => ?_⟩
    have hm : s.mode ≠ .idle := hm
    rw [if_neg hm] at hout
    show Function.update s.status n .ready s.currentThread = _
    rw [Function.update_of_ne fun e => hout e.symm]
    exact hr hm

theorem Inv.step (h : s.Inv) {op : Op} (hs : s.step op = some s') : s'.Inv := by
  have hrun : s.mode = .running → s.mode ≠ .idle := fun hm => by rw [hm]; exact nofun
  cases op with
  | fork t =>
    obtain ⟨⟨hm, ht⟩, ⟨⟩⟩ := Option.ite_none_right_eq_some.mp hs
    exact h.fork hm ht
  | yield =>
    obtain ⟨hm, ⟨⟩⟩ := Option.ite_none_right_eq_some.mp hs
    exact h.yield (hrun hm)
  | P i =>
    obtain ⟨hm, ⟨⟩⟩ := Option.ite_none_right_eq_some.mp hs
    exact h.P (hrun hm) i
  | again =>
    simp only [Sched.step] at hs
    split at hs
    · rename_i i hm
      cases hs
      exact h.P (by rw [hm]; exact nofun) i
    · cases hs
  | V i =>
    obtain ⟨-, ⟨⟩⟩ := Option.ite_none_right_eq_some.mp hs
    exact h.V i
  | finish =>
    obtain ⟨hm, ⟨⟩⟩ := Option.ite_none_right_eq_some.mp hs
    exact h.finish (hrun hm)
  | interruptV i =>
    obtain ⟨-, ⟨⟩⟩ := Option.ite_none_right_eq_some.mp hs
    exact h.V i
  | wakeUp =>
    obtain ⟨hm, hs⟩ := Option.ite_none_right_eq_some.mp hs
    obtain ⟨⟨n, s₁⟩, hn, rfl⟩ := Option.map_eq_some_iff.mp hs
    obtain ⟨place, hp, -⟩ := h
    rw [if_pos hm] at hp
    have hpop := (hp.findNextToRun hn).2
    rw [insert_empty_eq] at hpop
    exact hpop.run

theorem inv_of_reach (h : Run.Reach step Init s) : s.Inv := by
  apply h.inv Inv
  · rintro _ ⟨values, rfl⟩
    exact inv_start values
  · exact fun _ _ _ hi hs => hi.step hs

/-- In every reachable state a thread that has been forked and has not finished is the current one,
or once on the ready list, or once on the queue of one semaphore, and its status says so; only a
thread that idles in `Sleep` is the current one as well. The ready list is first in, first out, and
no such thread is deleted. -/
theorem no_thread_lost (h : Run.Reach step Init s) :
    (∀ t, t ∈ s.threads → t ∉ s.finished → t ∉ s.deleted ∧
      ((s.currentThread = t ∧ s.mode ≠ .idle ∧ s.status t = .running ∧ t ∉ s.readyList ∧
          ∀ i, t ∉ (s.sems i).queue) ∨
        (s.readyList.count t = 1 ∧ s.status t = .ready ∧ (∀ i, t ∉ (s.sems i).queue) ∧
          (s.currentThread = t → s.mode = .idle)) ∨
        ∃ i, (s.sems i).queue.count t = 1 ∧ s.status t = .blocked ∧ t ∉ s.readyList ∧
          (∀ j, j ≠ i → t ∉ (s.sems j).queue) ∧ (s.currentThread = t → s.mode = .idle))) ∧
    s.served ++ s.readyList = s.arrived := by
  obtain ⟨place, hp, hr⟩ := inv_of_reach h
  refine ⟨fun t ht hf => ⟨fun hd => hf (hp.tidy.doomed t (Or.inl hd)), ?_⟩, hp.tidy.fifo⟩
  have hcount := hp.holds t
  have hout : ∀ k, place t ≠ some k → t ∉ lists s.readyList s.sems k := by
    intro k hk
    have := hcount k
    rw [if_neg hk] at this
    exact List.count_eq_zero.mp this
  -- a thread on a queue is the current one only while it idles
  have hidle : place t ≠ none → s.currentThread = t → s.mode = .idle := by
    intro hpl hcur
    by_contra hm
    rw [if_neg hm] at hp
    exact hpl (hp.hand t hcur.symm).1
  cases hpl : place t with
  | none =>
    have hcur : s.currentThread = t ∧ s.mode ≠ .idle := by
      by_contra hno
      have hrest := hp.rest t fun hmem => by
        split at hmem
        · exact hmem
        · exact hno ⟨hmem.symm, ‹_›⟩
      rw [hpl] at hrest
      exact hrest ⟨ht, hf⟩
    refine Or.inl ⟨hcur.1, hcur.2, hcur.1 ▸ hr hcur.2, ?_, ?_⟩
    · exact hout .ready (by rw [hpl]; exact nofun)
    · exact fun i => hout (.sem i) (by rw [hpl]; exact nofun)
  | some k =>
    have hrest := hp.rest t fun hmem => by
      rw [(hp.hand t hmem).1] at hpl
      cases hpl
    have hidle := hidle (by rw [hpl]; exact nofun)
    rw [hpl] at hrest hcount hout
    have hone := (hcount k).trans (if_pos rfl)
    cases k with
    | ready =>
      refine Or.inr (Or.inl ⟨hone, hrest.1, fun i => ?_, hidle⟩)
      exact hout (.sem i) nofun
    | sem i =>
      refine Or.inr (Or.inr ⟨i, hone, hrest.1, ?_, fun j hj => ?_, hidle⟩)
      · exact hout .ready nofun
      · exact hout (.sem j) fun e => hj (Queue.sem.inj (Option.some.inj e)).symm

/-- The main thread forks thread 1 and sleeps on semaphore 0; thread 1 finishes while nobody is
ready, an interrupt wakes the main thread, and it sleeps again on semaphore 1 and idles. -/
theorem no_thread_lost_idle :
    ∃ s, Run.exec step (start fun _ => 0)
        [.fork 1, .P 0, .finish, .interruptV 0, .wakeUp, .again, .P 1] = some s ∧
      s.currentThread = 0 ∧ s.mode = .idle ∧ s.deleted = [1] ∧
      (s.sems 1).queue.count 0 = 1 ∧ s.served ++ s.readyList = s.arrived := by
  refine ⟨_, rfl, rfl, rfl, rfl, rfl, ?_⟩
  exact (no_thread_lost ⟨_, [.fork 1, .P 0, .finish, .interruptV 0, .wakeUp, .again, .P 1],
    ⟨fun _ => 0, rfl⟩, rfl⟩).2

end Sched

end Nachos
