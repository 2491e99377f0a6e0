import Nachos.Machine.OneTick

/-!
# Looking at the interrupt queue

`CheckIfDue(FALSE)` looks at the first interrupt by taking it off the queue and inserting it again.
`SortedInsert` puts it behind the others that are due at the same time, so the queue is as it was
only where the first interrupt has its time for itself (`HeadAlone`). In runs in which every look
finds it so, simultaneous interrupts are fired in the order in which they were scheduled.
-/

namespace Nachos

namespace Interrupt

variable {σ : Type} {call : ℕ → ℤ → Interrupt σ → Effect σ} {s s' : Interrupt σ}

/-- A `CheckIfDue(FALSE)` that fires nothing leaves the queue as it is. -/
def Undisturbed (call : ℕ → ℤ → Interrupt σ → Effect σ) (s : Interrupt σ) : Prop :=
  ∀ s', s.checkIfDue call false = some (false, s') → s'.pending = s.pending

/-- The first interrupt is due, or none of the others is due at the same time. -/
def HeadAlone (s : Interrupt σ) : Prop :=
  ∀ e ∈ s.pending.head?, s.totalTicks < e.when → ∀ f ∈ s.pending.tail.head?, e.when < f.when

instance (s : Interrupt σ) : Decidable s.HeadAlone :=
  inferInstanceAs (Decidable (∀ e ∈ s.pending.head?, s.totalTicks < e.when →
    ∀ f ∈ s.pending.tail.head?, e.when < f.when))

theorem checkIfDue_notYet {e : PendingInterrupt} {rest : List PendingInterrupt}
    (hoff : s.level = .off) (hp : s.pending = e :: rest) (hlt : s.totalTicks < e.when) :
    s.checkIfDue call false = some (false, { s with pending := rest }.putBack e) := by
  simp only [checkIfDue, if_pos hoff, hp, Bool.false_eq_true, false_and, if_false, if_pos hlt]

/-- An interrupt that alone stays on the queue is where it was. -/
theorem undisturbed_of_headAlone (h : s.HeadAlone) : Undisturbed call s := by
  intro s' hs
  cases checkIfDue_cases hs with
  | empty => rfl
  | notYet e rest hp _ hlt =>
    rw [HeadAlone, hp] at h
    have halone := h e rfl hlt
    rw [hp]
    cases rest with
    | nil => rfl
    | cons f rest => exact Insert.insertBy_cons_of_lt (halone f rfl)
  | timerOnly e hp => rw [putBack, takeOff_pending, hp]; rfl

theorem headAlone_of_undisturbed (hoff : s.level = .off) (hnodup : s.pending.Nodup)
    (h : Undisturbed call s) : s.HeadAlone := by
  intro e he hlt f hf
  obtain ⟨rest, hp⟩ : ∃ rest, s.pending = e :: rest := ⟨_, (List.cons_head?_tail he).symm⟩
  rw [hp] at hf hnodup
  have hback := h _ (checkIfDue_notYet hoff hp hlt)
  rw [hp] at hback
  exact (Insert.insertBy_eq_cons_iff (List.nodup_cons.mp hnodup).1).mp hback f hf

/-! ## Runs -/

/-- `a` is to be fired before `b`. -/
def Before (a b : PendingInterrupt) : Prop :=
  a.when < b.when ∨ a.when = b.when ∧ a.serial < b.serial

/-- Interrupts for the same time have been fired, and are waiting, in the order in which they were
scheduled. -/
structure InOrder (s : Interrupt σ) : Prop where
  sorted : Insert.Sorted PendingInterrupt.when s.pending
  waiting : s.pending.Pairwise Before
  gone : s.done.Pairwise fun a b => a.when = b.when → a.serial < b.serial
  across : ∀ a ∈ s.done, ∀ b ∈ s.pending, a.when = b.when → a.serial < b.serial
  serial_lt : ∀ e ∈ s.known, e.serial < s.scheduled

theorem inOrder_new (world : σ) : InOrder (new world) :=
  ⟨List.Pairwise.nil, List.Pairwise.nil, List.Pairwise.nil,
    fun _ ha => absurd ha List.not_mem_nil, fun _ he => absurd he List.not_mem_nil⟩

/-- What was scheduled last goes behind the others for its time. -/
theorem InOrder.schedule {r : Request} (h : InOrder s) (hs : s.schedule r = some s') :
    InOrder s' := by
  obtain ⟨-, rfl⟩ := schedule_eq_some hs
  refine ⟨h.sorted.insertBy, ?_, h.gone, fun a ha b hb heq => ?_, fun e he => ?_⟩
  · refine Insert.pairwise_insertBy h.sorted h.waiting (fun b _ hlt => .inl hlt) fun b hb hle => ?_
    rcases lt_or_eq_of_le hle with hlt | heq
    · exact .inl hlt
    · exact .inr ⟨heq, h.serial_lt b (List.mem_append_left _ hb)⟩
  · rcases Insert.mem_insertBy.mp hb with rfl | hb
    · exact h.serial_lt a (List.mem_append_right _ ha)
    · exact h.across a ha b hb heq
  · rcases List.mem_append.mp he with he | he
    · rcases Insert.mem_insertBy.mp he with rfl | he
      · exact Nat.lt_succ_self s.scheduled
      · exact Nat.lt_succ_of_lt (h.serial_lt e (List.mem_append_left _ he))
    · exact Nat.lt_succ_of_lt (h.serial_lt e (List.mem_append_right _ he))

/-- It depends on the queue and on what has been fired. -/
theorem InOrder.congr (h : InOrder s) (hp : s'.pending = s.pending) (hf : s'.fired = s.fired)
    (hn : s'.scheduled = s.scheduled) : InOrder s' := by
  obtain ⟨sorted, waiting, gone, across, serial_lt⟩ := h
  constructor
  · rwa [hp]
  · rwa [hp]
  · rwa [done, hf]
  · rwa [done, hf, hp]
  · rwa [known, done, hf, hp, hn]

theorem InOrder.apply (h : InOrder s) (effect : Effect σ) : InOrder (s.apply effect) :=
  h.congr rfl rfl rfl

theorem InOrder.fire {e : PendingInterrupt} {rest : List PendingInterrupt} (h : InOrder s)
    (hp : s.pending = e :: rest)
    (hf : ({ s with pending := rest } : Interrupt σ).fire call e = some s') : InOrder s' := by
  obtain ⟨sorted, waiting, gone, across, serial_lt⟩ := h
  rw [hp] at sorted waiting across
  have hdone : ({ s with pending := rest }.enter e).done = s.done ++ [e] := by
    simp [done, Interrupt.enter]
  have henter : InOrder ({ s with pending := rest }.enter e) := by
    refine ⟨(List.pairwise_cons.mp sorted).2, (List.pairwise_cons.mp waiting).2, ?_, ?_, ?_⟩
    · rw [hdone]
      refine List.pairwise_append.mpr ⟨gone, List.pairwise_singleton _ e, fun a ha b hb => ?_⟩
      rw [List.mem_singleton.mp hb]
      exact across a ha e List.mem_cons_self
    · rw [hdone]
      intro a ha b hb heq
      rcases List.mem_append.mp ha with ha | ha
      · exact across a ha b (List.mem_cons_of_mem e hb) heq
      · rw [List.mem_singleton.mp ha] at heq ⊢
        rcases (List.pairwise_cons.mp waiting).1 b hb with hlt | hserial
        · exact absurd heq hlt.ne
        · exact hserial.2
    · intro x hx
      refine serial_lt x ?_
      rw [known, hdone] at hx
      rw [known, hp]
      rcases List.mem_append.mp hx with hx | hx
      · exact List.mem_append_left _ (List.mem_cons_of_mem e hx)
      · rcases List.mem_append.mp hx with hx | hx
        · exact List.mem_append_right _ hx
        · rw [List.mem_singleton.mp hx]
          exact List.mem_append_left _ List.mem_cons_self
  obtain ⟨s₁, h₁, rfl⟩ := fire_eq_some hf
  have hs₁ : InOrder s₁ := scheduleAll_inv InOrder (fun _ _ _ hi hs => InOrder.schedule hi hs)
    (henter.apply _) h₁
  exact hs₁.congr rfl rfl rfl

theorem takeOff_fields (s : Interrupt σ) (advanceClock : Bool) (e : PendingInterrupt)
    (rest : List PendingInterrupt) : (s.takeOff advanceClock e rest).fired = s.fired ∧
    (s.takeOff advanceClock e rest).scheduled = s.scheduled := by
  unfold takeOff
  split_ifs <;> exact ⟨rfl, rfl⟩

theorem InOrder.checkIfDue {advanceClock b : Bool} (h : InOrder s)
    (ha : advanceClock = false → s.HeadAlone)
    (hs : s.checkIfDue call advanceClock = some (b, s')) : InOrder s' := by
  cases checkIfDue_cases hs with
  | empty => exact h
  | notYet e rest hp hfalse =>
    subst hfalse
    exact h.congr (undisturbed_of_headAlone (ha rfl) _ hs) rfl rfl
  | timerOnly e hp =>
    obtain ⟨hfired, hscheduled⟩ := takeOff_fields s advanceClock e []
    refine h.congr ?_ hfired hscheduled
    rw [putBack, takeOff_pending, hp]
    rfl
  | fires e rest _ hp _ hfire =>
    obtain ⟨hfired, hscheduled⟩ := takeOff_fields s advanceClock e s.pending
    rw [takeOff_eq] at hfire
    exact (h.congr (takeOff_pending ..) hfired hscheduled).fire ((takeOff_pending ..).trans hp)
      hfire

/-- Every look at the queue finds the first interrupt due, or alone at its time. -/
def LooksAlone (s : Interrupt σ) : Prim σ → Prop
  | .check false => s.HeadAlone
  | _ => True

theorem InOrder.prim {l : Prim σ} (h : InOrder s) (ha : LooksAlone s l)
    (hs : s.prim call l = some s') : InOrder s' := by
  cases l with
  | schedule r => exact h.schedule hs
  | advance =>
    obtain rfl := Option.some.inj hs
    refine h.congr (advance_fields s).1 (advance_fields s).2.1 ?_
    unfold advance
    split_ifs <;> rfl
  | check advanceClock =>
    obtain ⟨⟨b, s₁⟩, h₁, rfl⟩ := Option.map_eq_some_iff.mp hs
    exact h.checkIfDue (fun hfalse => by subst hfalse; exact ha) h₁
  | become => exact Option.some.inj hs ▸ h.congr rfl rfl rfl

/-- `CheckIfDue` and the queue, and the order in which simultaneous interrupts are fired. -/
theorem undisturbed_iff :
    (∀ s : Interrupt σ, s.level = .off → s.pending.Nodup →
      (Undisturbed call s ↔ s.HeadAlone)) ∧
    ∀ s, Run.ReachBy (prim call) LooksAlone Init s →
      s.done.Pairwise fun a b => a.when = b.when → a.serial < b.serial := by
  refine ⟨fun s hoff hnodup => ⟨headAlone_of_undisturbed hoff hnodup, undisturbed_of_headAlone⟩,
    fun s hs => ?_⟩
  exact (hs.inv InOrder (fun _ ⟨world, hw⟩ => hw ▸ inOrder_new world)
    fun _ _ _ hi ha hp => hi.prim ha hp).gone

/-- Two interrupts for the same time. -/
def twoAtOnce : Interrupt Unit :=
  { new () with
    pending := [⟨0, 0, 20, .disk, 0⟩, ⟨1, 0, 20, .consoleRead, 1⟩]
    scheduled := 2 }

theorem undisturbed_iff_twoAtOnce :
    Undisturbed (fun _ _ _ => ⟨[], false, ()⟩) twoAtOnce ↔ twoAtOnce.HeadAlone :=
  undisturbed_iff.1 twoAtOnce rfl (by decide)

/-- Both are scheduled, a tick passes, and the one scheduled second is fired first. -/
theorem not_undisturbed : ¬ Undisturbed (fun _ _ _ => ⟨[], false, ()⟩) twoAtOnce ∧
    ∃ s, Run.exec (prim fun _ _ _ => ⟨[], false, ()⟩) (new ())
        [.schedule ⟨0, 0, 20, .disk⟩, .schedule ⟨1, 0, 20, .consoleRead⟩, .advance, .check false,
          .advance, .check false, .check false] = some s ∧
      s.done.map PendingInterrupt.serial = [1, 0] := by
  refine ⟨fun h => ?_, _, rfl, by decide⟩
  have hback := h _ rfl
  exact absurd hback (by decide)

end Interrupt

end Nachos
