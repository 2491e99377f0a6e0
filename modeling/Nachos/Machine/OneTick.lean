import Nachos.Machine.Interrupt

/-!
# The interrupt queue over a run

`QueueInv` holds at every point of a run, between two handlers of one `OneTick` too: the queue is
sorted, no interrupt is on it twice or after it has been fired, none was fired early, and the ticks
add up. It is proved in small steps, of which `OneTick` and `Idle` are made.

From it, what a whole `OneTick` does: a handler schedules for later only (`Later`), so each call of
`CheckIfDue` leaves one interrupt less that is due, and the loop ends.
-/

namespace Nachos

namespace Interrupt

variable {σ : Type} {call : ℕ → ℤ → Interrupt σ → Effect σ} {s s' : Interrupt σ}

/-- The interrupts that have been fired. -/
def done (s : Interrupt σ) : List PendingInterrupt := s.fired.map Prod.fst

/-- The interrupts on the queue and those fired. -/
def known (s : Interrupt σ) : List PendingInterrupt := s.pending ++ s.done

structure QueueInv (s : Interrupt σ) : Prop where
  sorted : Insert.Sorted PendingInterrupt.when s.pending
  ticks : s.totalTicks = s.idleTicks + s.systemTicks + s.userTicks
  due : ∀ f ∈ s.fired, f.1.when ≤ f.2
  once : (s.known.map PendingInterrupt.serial).Nodup
  serial_lt : ∀ e ∈ s.known, e.serial < s.scheduled

theorem queueInv_new (world : σ) : QueueInv (new world) :=
  ⟨List.Pairwise.nil, rfl, fun _ hf => absurd hf List.not_mem_nil, List.nodup_nil,
    fun _ he => absurd he List.not_mem_nil⟩

/-- The queue and the clock as they were. -/
theorem QueueInv.become (h : QueueInv s) (level : IntStatus) (inHandler yieldOnReturn : Bool)
    (status : MachineStatus) (halted : Bool) (world : σ) :
    QueueInv { s with level, inHandler, yieldOnReturn, status, halted, world } :=
  ⟨h.sorted, h.ticks, h.due, h.once, h.serial_lt⟩

theorem QueueInv.schedule {r : Request} (h : QueueInv s) (hs : s.schedule r = some s') :
    QueueInv s' := by
  obtain ⟨-, rfl⟩ := schedule_eq_some hs
  refine ⟨h.sorted.insertBy, h.ticks, h.due, ?_, fun e he => ?_⟩
  · show ((sortedInsert _ s.pending ++ s.done).map PendingInterrupt.serial).Nodup
    refine ((Insert.insertBy_perm.append_right s.done).map _).nodup_iff.mpr ?_
    refine List.nodup_cons.mpr ⟨fun hm => ?_, h.once⟩
    obtain ⟨e, he, heq⟩ := List.mem_map.mp hm
    exact absurd heq (h.serial_lt e he).ne
  · rcases List.mem_append.mp he with he | he
    · rcases Insert.mem_insertBy.mp he with rfl | he
      · exact Nat.lt_succ_self s.scheduled
      · exact Nat.lt_succ_of_lt (h.serial_lt e (List.mem_append_left _ he))
    · exact Nat.lt_succ_of_lt (h.serial_lt e (List.mem_append_right _ he))

theorem QueueInv.advance (h : QueueInv s) : QueueInv s.advance := by
  have := h.ticks
  unfold Interrupt.advance
  split_ifs
  · refine ⟨h.sorted, ?_, h.due, h.once, h.serial_lt⟩
    show s.totalTicks + systemTick = s.idleTicks + (s.systemTicks + systemTick) + s.userTicks
    omega
  · refine ⟨h.sorted, ?_, h.due, h.once, h.serial_lt⟩
    show s.totalTicks + userTick = s.idleTicks + s.systemTicks + (s.userTicks + userTick)
    omega

theorem QueueInv.advanceTo (h : QueueInv s) (when : ℤ) : QueueInv (s.advanceTo when) := by
  have := h.ticks
  refine ⟨h.sorted, ?_, h.due, h.once, h.serial_lt⟩
  show when = s.idleTicks + (when - s.totalTicks) + s.systemTicks + s.userTicks
  omega

/-- The list with its head put back. -/
theorem QueueInv.putBack {e : PendingInterrupt} {rest : List PendingInterrupt} (h : QueueInv s)
    (hp : s.pending = e :: rest) : QueueInv ({ s with pending := rest }.putBack e) := by
  have hperm : (sortedInsert e rest).Perm s.pending := hp ▸ Insert.insertBy_perm
  have hknown : (sortedInsert e rest ++ s.done).Perm s.known := hperm.append_right s.done
  have hrest : Insert.Sorted PendingInterrupt.when rest :=
    (List.pairwise_cons.mp (show Insert.Sorted PendingInterrupt.when (e :: rest) from
      hp ▸ h.sorted)).2
  exact ⟨hrest.insertBy, h.ticks, h.due, (hknown.map _).nodup_iff.mpr h.once,
    fun x hx => h.serial_lt x (hknown.mem_iff.mp hx)⟩

/-- The head of the list goes to those that have been fired. -/
theorem QueueInv.enter {e : PendingInterrupt} {rest : List PendingInterrupt} (h : QueueInv s)
    (hp : s.pending = e :: rest) (hdue : e.when ≤ s.totalTicks) :
    QueueInv ({ s with pending := rest }.enter e) := by
  have hdone : ({ s with pending := rest }.enter e).done = s.done ++ [e] := by
    simp [done, Interrupt.enter]
  have hknown : ({ s with pending := rest }.enter e).known.Perm s.known := by
    rw [known, known, hdone, hp]
    exact (List.perm_append_comm.append_left rest).trans List.perm_middle
  refine ⟨(List.pairwise_cons.mp (show Insert.Sorted PendingInterrupt.when (e :: rest) from
      hp ▸ h.sorted)).2, h.ticks, fun f hf => ?_, (hknown.map _).nodup_iff.mpr h.once,
    fun x hx => h.serial_lt x (hknown.mem_iff.mp hx)⟩
  rcases List.mem_append.mp hf with hf | hf
  · exact h.due f hf
  · rw [List.mem_singleton.mp hf]
    exact hdue

theorem QueueInv.fire {e : PendingInterrupt} {rest : List PendingInterrupt} (h : QueueInv s)
    (hp : s.pending = e :: rest) (hdue : e.when ≤ s.totalTicks)
    (hf : ({ s with pending := rest } : Interrupt σ).fire call e = some s') : QueueInv s' := by
  obtain ⟨s₁, h₁, rfl⟩ := fire_eq_some hf
  have := scheduleAll_inv QueueInv (fun _ _ _ hi hs => QueueInv.schedule hi hs)
    ((h.enter hp hdue).become _ _ _ _ _ _) h₁
  exact this.become _ _ _ _ _ _

theorem takeOff_eq {advanceClock : Bool} {e : PendingInterrupt} {rest : List PendingInterrupt} :
    s.takeOff advanceClock e rest = { s.takeOff advanceClock e s.pending with pending := rest } := by
  unfold takeOff
  split_ifs <;> rfl

theorem QueueInv.takeOff (h : QueueInv s) (advanceClock : Bool) (e : PendingInterrupt) :
    QueueInv (s.takeOff advanceClock e s.pending) := by
  unfold Interrupt.takeOff
  split_ifs
  · exact h.advanceTo e.when
  · exact h

theorem QueueInv.checkIfDue {advanceClock b : Bool} (h : QueueInv s)
    (hs : s.checkIfDue call advanceClock = some (b, s')) : QueueInv s' := by
  cases checkIfDue_cases hs with
  | empty => exact h
  | notYet e rest hp => exact h.putBack hp
  | timerOnly e hp =>
    rw [takeOff_eq]
    exact (h.takeOff advanceClock e).putBack ((takeOff_pending ..).trans hp)
  | fires e rest _ hp hdue hfire =>
    rw [takeOff_eq] at hfire
    refine (h.takeOff advanceClock e).fire ((takeOff_pending ..).trans hp) ?_ hfire
    exact when_le_takeOff hdue

theorem QueueInv.prim {l : Prim σ} (h : QueueInv s) (hs : s.prim call l = some s') :
    QueueInv s' := by
  cases l with
  | schedule r => exact h.schedule hs
  | advance => exact Option.some.inj hs ▸ h.advance
  | check advanceClock =>
    obtain ⟨⟨b, s₁⟩, h₁, rfl⟩ := Option.map_eq_some_iff.mp hs
    exact h.checkIfDue h₁
  | become level yieldOnReturn status halted world =>
    exact Option.some.inj hs ▸ h.become level s.inHandler yieldOnReturn status halted world

/-- The queue at every point of a run. -/
theorem queueInv_of_reach (h : Run.Reach (prim call) Init s) : QueueInv s :=
  h.inv QueueInv (fun _ ⟨world, hs⟩ => hs ▸ queueInv_new world) fun _ _ _ hi hs => hi.prim hs

/-! ## The clock -/

theorem totalTicks_scheduleAll {rs : List Request} (h : s.scheduleAll rs = some s') :
    s'.totalTicks = s.totalTicks :=
  scheduleAll_inv (fun s₁ => s₁.totalTicks = s.totalTicks)
    (fun _ _ _ hi hs => by obtain ⟨-, rfl⟩ := schedule_eq_some hs; exact hi) rfl h

theorem totalTicks_fire {e : PendingInterrupt} (h : s.fire call e = some s') :
    s'.totalTicks = s.totalTicks := by
  obtain ⟨s₁, h₁, rfl⟩ := fire_eq_some h
  have := totalTicks_scheduleAll h₁
  exact this

theorem totalTicks_le_takeOff (advanceClock : Bool) (e : PendingInterrupt)
    (rest : List PendingInterrupt) : s.totalTicks ≤ (s.takeOff advanceClock e rest).totalTicks := by
  unfold takeOff
  split_ifs with h
  · exact le_of_lt h.2
  · exact le_refl s.totalTicks

theorem totalTicks_le_advance : s.totalTicks ≤ s.advance.totalTicks := by
  unfold advance
  split_ifs
  · exact Int.le_add_of_nonneg_right (by decide)
  · exact Int.le_add_of_nonneg_right (by decide)

theorem totalTicks_le_prim {l : Prim σ} (h : s.prim call l = some s') :
    s.totalTicks ≤ s'.totalTicks := by
  cases l with
  | schedule r =>
    obtain ⟨-, rfl⟩ := schedule_eq_some h
    exact le_refl s.totalTicks
  | advance => exact Option.some.inj h ▸ totalTicks_le_advance
  | check advanceClock =>
    obtain ⟨⟨b, s₁⟩, h₁, rfl⟩ := Option.map_eq_some_iff.mp h
    cases checkIfDue_cases h₁ with
    | empty => exact le_refl s.totalTicks
    | notYet => exact le_refl s.totalTicks
    | timerOnly e => exact totalTicks_le_takeOff advanceClock e []
    | fires e rest _ _ _ hfire =>
      rw [totalTicks_fire hfire]
      exact totalTicks_le_takeOff advanceClock e rest
  | become => exact Option.some.inj h ▸ le_refl s.totalTicks

/-! ## `OneTick` and `Idle` in small steps -/

theorem exec_check {advanceClock b : Bool} (h : s.checkIfDue call advanceClock = some (b, s')) :
    s.prim call (.check advanceClock) = some s' := by
  rw [prim, h]
  rfl

theorem exec_drain {fuel : ℕ} (h : drain call fuel s = some s') :
    ∃ ls, Run.exec (prim call) s ls = some s' := by
  induction fuel generalizing s with
  | zero => cases h
  | succ fuel ih =>
    rw [drain] at h
    split at h
    · cases h
    · next s₁ h₁ =>
      obtain ⟨ls, hls⟩ := ih h
      exact ⟨.check false :: ls, Run.exec_cons_eq_some.mpr ⟨s₁, exec_check h₁, hls⟩⟩
    · next s₁ h₁ =>
      obtain rfl := Option.some.inj h
      exact ⟨[.check false], Run.exec_cons_eq_some.mpr ⟨s₁, exec_check h₁, rfl⟩⟩

/-- The run `ls` between two changes that leave the queue and the clock. -/
theorem exec_between {l l' : Prim σ} {s₁ s₂ : Interrupt σ} {ls : List (Prim σ)}
    (h : s.prim call l = some s₁) (hls : Run.exec (prim call) s₁ ls = some s₂)
    (h' : s₂.prim call l' = some s') : Run.exec (prim call) s (l :: ls ++ [l']) = some s' :=
  Run.exec_concat.mpr ⟨s₂, Run.exec_cons_eq_some.mpr ⟨s₁, h, hls⟩, h'⟩

theorem exec_oneTick {fuel : ℕ} (h : oneTick call fuel s = some s') :
    ∃ ls, Run.exec (prim call) s ls = some s' := by
  obtain ⟨s₁, h₁, rfl⟩ := Option.map_eq_some_iff.mp h
  obtain ⟨ls, hls⟩ := exec_drain h₁
  have hoff : s.advance.prim call
      (.become .off s.advance.yieldOnReturn s.advance.status s.advance.halted s.advance.world) =
      some (s.advance.changeLevel .off) := rfl
  have hadvance : s.prim call .advance = some s.advance := rfl
  unfold leaveTick
  split_ifs
  · exact ⟨_, Run.exec_cons_eq_some.mpr ⟨s.advance, hadvance, exec_between hoff hls
      (show s₁.prim call (.become .on false .system s₁.halted s₁.world) = _ from rfl)⟩⟩
  · exact ⟨_, Run.exec_cons_eq_some.mpr ⟨s.advance, hadvance, exec_between hoff hls
      (show s₁.prim call (.become .on s₁.yieldOnReturn s₁.status s₁.halted s₁.world) = _
        from rfl)⟩⟩

theorem exec_become (call : ℕ → ℤ → Interrupt σ → Effect σ) (s : Interrupt σ)
    (level : IntStatus) (yieldOnReturn : Bool) (status : MachineStatus)
    (halted : Bool) (world : σ) :
    Run.exec (prim call) s [.become level yieldOnReturn status halted world] =
      some { s with level, yieldOnReturn, status, halted, world } := rfl

theorem exec_idle {fuel : ℕ} (h : idle call fuel s = some s') :
    ∃ ls, Run.exec (prim call) s ls = some s' := by
  unfold idle at h
  have hidle : s.prim call (.become s.level s.yieldOnReturn .idle s.halted s.world) =
      some { s with status := .idle } := rfl
  split at h
  · cases h
  · next s₁ h₁ =>
    obtain ⟨s₂, h₂, rfl⟩ := Option.map_eq_some_iff.mp h
    obtain ⟨ls, hls⟩ := exec_drain h₂
    exact ⟨_, exec_between hidle (Run.exec_cons_eq_some.mpr ⟨s₁, exec_check h₁, hls⟩)
      (show s₂.prim call (.become s₂.level false .system s₂.halted s₂.world) = _ from rfl)⟩
  · next s₁ h₁ =>
    obtain rfl := Option.some.inj h
    have hcheck : Run.exec (prim call) { s with status := .idle } [.check true] = some s₁ :=
      Run.exec_cons_eq_some.mpr ⟨s₁, exec_check h₁, rfl⟩
    exact ⟨_, exec_between hidle hcheck
      (show s₁.prim call (.become s₁.level s₁.yieldOnReturn s₁.status true s₁.world) = _
        from rfl)⟩

theorem exec_step {op : Op σ} (h : s.step call op = some s') :
    ∃ ls, Run.exec (prim call) s ls = some s' := by
  unfold step at h
  split_ifs at h
  cases op with
  | schedule r => exact ⟨[.schedule r], Run.exec_cons_eq_some.mpr ⟨s', h, rfl⟩⟩
  | setLevel now fuel =>
    simp only [setLevel] at h
    have hnow := exec_become call s now s.yieldOnReturn s.status s.halted s.world
    split_ifs at h
    · obtain ⟨ls, hls⟩ := exec_oneTick h
      exact ⟨_ ++ ls, Run.exec_append.mpr ⟨_, hnow, hls⟩⟩
    · exact ⟨_, hnow.trans h⟩
  | oneTick fuel => exact exec_oneTick h
  | idle fuel => exact exec_idle h
  | setStatus st =>
    simp only at h
    split_ifs at h
    exact ⟨_, (exec_become call s s.level s.yieldOnReturn st s.halted s.world).trans h⟩
  | work world =>
    exact ⟨_, (exec_become call s s.level s.yieldOnReturn s.status s.halted world).trans h⟩

theorem reach_prim (h : Run.Reach (step call) Init s) : Run.Reach (prim call) Init s :=
  h.inv (Run.Reach (prim call) Init) (fun s hs => ⟨s, [], hs, rfl⟩)
    fun s _ s' ⟨s₀, ls, h₀, he⟩ hs => by
      obtain ⟨ms, hms⟩ := exec_step hs
      exact ⟨s₀, ls ++ ms, h₀, Run.exec_append.mpr ⟨s, he, hms⟩⟩

/-! ## The loop of `OneTick` -/

/-- `es` are fired in this order, and what is added to the queue is for later. -/
structure Drains (s : Interrupt σ) (es : List PendingInterrupt) (s' : Interrupt σ) : Prop where
  clock : s'.totalTicks = s.totalTicks
  level : s'.level = s.level
  status : s'.status = s.status
  fired : s'.fired = s.fired ++ es.map fun e => (e, s.totalTicks)
  due : dueBy s.totalTicks s.pending = es ++ dueBy s.totalTicks s'.pending
  keeps : ∀ e ∈ s.pending, s.totalTicks < e.when → e ∈ s'.pending

theorem Drains.refl (s : Interrupt σ) : Drains s [] s :=
  ⟨rfl, rfl, rfl, (List.append_nil _).symm, rfl, fun _ he _ => he⟩

theorem Drains.trans {s₁ : Interrupt σ} {es es' : List PendingInterrupt} (h : Drains s es s₁)
    (h' : Drains s₁ es' s') : Drains s (es ++ es') s' where
  clock := h'.clock.trans h.clock
  level := h'.level.trans h.level
  status := h'.status.trans h.status
  fired := by
    rw [h'.fired, h.fired, h.clock, List.map_append, List.append_assoc]
  due := by
    have := h'.due
    rw [h.clock] at this
    rw [h.due, this, List.append_assoc]
  keeps e he hlt := h'.keeps e (h.keeps e he hlt) (h.clock.symm ▸ hlt)

theorem dueBy_sortedInsert {t : ℤ} {e : PendingInterrupt} (h : t < e.when)
    (l : List PendingInterrupt) : dueBy t (sortedInsert e l) = dueBy t l :=
  Insert.filter_insertBy_of_false (decide_eq_false (not_le.mpr h))

theorem dueBy_cons_of_le {t : ℤ} {e : PendingInterrupt} (h : e.when ≤ t)
    (l : List PendingInterrupt) : dueBy t (e :: l) = e :: dueBy t l :=
  List.filter_cons_of_pos (decide_eq_true h)

theorem dueBy_cons_of_lt {t : ℤ} {e : PendingInterrupt} (h : t < e.when)
    (l : List PendingInterrupt) : dueBy t (e :: l) = dueBy t l :=
  List.filter_cons_of_neg (by simpa using h)

theorem drains_schedule {r : Request} (hr : 0 < r.fromNow) (s : Interrupt σ) :
    ∃ s', s.schedule r = some s' ∧ Drains s [] s' := by
  refine ⟨_, if_pos hr, rfl, rfl, rfl, (List.append_nil _).symm, ?_, fun e he _ => ?_⟩
  · exact (dueBy_sortedInsert (Int.lt_add_of_pos_right s.totalTicks hr) s.pending).symm
  · exact Insert.mem_insertBy.mpr (.inr he)

theorem drains_scheduleAll {rs : List Request} (hrs : ∀ r ∈ rs, 0 < r.fromNow)
    (s : Interrupt σ) : ∃ s', s.scheduleAll rs = some s' ∧ Drains s [] s' := by
  induction rs generalizing s with
  | nil => exact ⟨s, rfl, .refl s⟩
  | cons r rs ih =>
    obtain ⟨s₁, h₁, hd₁⟩ := drains_schedule (hrs r List.mem_cons_self) s
    obtain ⟨s₂, h₂, hd₂⟩ := ih (fun r' hr' => hrs r' (List.mem_cons_of_mem r hr')) s₁
    exact ⟨s₂, Option.bind_eq_some_iff.mpr ⟨s₁, h₁, h₂⟩, hd₁.trans hd₂⟩

/-- The handlers schedule for later. -/
def HandlersOk (call : ℕ → ℤ → Interrupt σ → Effect σ) : Prop :=
  ∀ handler arg s, ∀ r ∈ (call handler arg s).requests, 0 < r.fromNow

theorem drains_fire (hcall : HandlersOk call) {e : PendingInterrupt}
    {rest : List PendingInterrupt} (hp : s.pending = e :: rest) (hdue : e.when ≤ s.totalTicks) :
    ∃ s', ({ s with pending := rest } : Interrupt σ).fire call e = some s' ∧
      Drains s [e] s' := by
  obtain ⟨s₁, h₁, hd⟩ := drains_scheduleAll
    (hcall e.handler e.arg (({ s with pending := rest } : Interrupt σ).enter e))
    ((({ s with pending := rest } : Interrupt σ).enter e).apply
      (call e.handler e.arg (({ s with pending := rest } : Interrupt σ).enter e)))
  refine ⟨_, Option.map_eq_some_iff.mpr ⟨s₁, h₁, rfl⟩, hd.clock, hd.level, rfl, ?_, ?_, ?_⟩
  · exact hd.fired.trans (List.append_nil _)
  · have hrest : dueBy s.totalTicks rest = dueBy s.totalTicks s₁.pending := hd.due
    rw [hp, dueBy_cons_of_le hdue, hrest]
    rfl
  · intro x hx hlt
    rw [hp] at hx
    rcases List.mem_cons.mp hx with rfl | hx
    · exact absurd hdue (not_le.mpr hlt)
    · exact hd.keeps x hx hlt

/-- The loop ends, after it has fired what was due at the start. -/
theorem drain_spec (hcall : HandlersOk call) {fuel : ℕ} (hi : QueueInv s) (hoff : s.level = .off)
    (hst : s.status ≠ .idle) (hfuel : (dueBy s.totalTicks s.pending).length < fuel) :
    ∃ s', drain call fuel s = some s' ∧ Drains s (dueBy s.totalTicks s.pending) s' := by
  induction fuel generalizing s with
  | zero => exact absurd hfuel (Nat.not_lt_zero _)
  | succ fuel ih =>
    rw [drain]
    cases hp : s.pending with
    | nil =>
      have hcheck : s.checkIfDue call false = some (false, s) := by
        rw [checkIfDue, if_pos hoff, hp]
      rw [hcheck]
      exact ⟨s, rfl, .refl s⟩
    | cons e rest =>
      rcases lt_or_ge s.totalTicks e.when with hlt | hdue
      · have hcheck : s.checkIfDue call false =
            some (false, { s with pending := rest }.putBack e) := by
          simp only [checkIfDue, if_pos hoff, hp, Bool.false_eq_true, false_and, if_false,
            if_pos hlt]
        have hnil : dueBy s.totalTicks (e :: rest) = [] :=
          Insert.Sorted.filter_le_eq_nil (hp ▸ hi.sorted) hlt
        rw [hcheck, hnil]
        refine ⟨_, rfl, rfl, rfl, rfl, (List.append_nil _).symm, ?_, fun x hx _ => ?_⟩
        · rw [hp, dueBy_cons_of_lt hlt]
          exact (dueBy_sortedInsert hlt rest).symm
        · exact Insert.mem_insertBy.mpr (List.mem_cons.mp (hp ▸ hx))
      · obtain ⟨s₁, h₁, hd₁⟩ := drains_fire hcall hp hdue
        have hcheck : s.checkIfDue call false = some (true, s₁) := by
          simp only [checkIfDue, if_pos hoff, hp, Bool.false_eq_true, false_and, if_false,
            if_neg (not_lt.mpr hdue), takeDue, hst, h₁, Option.map_some]
        have hdrop : dueBy s.totalTicks rest = dueBy s₁.totalTicks s₁.pending := by
          have := hd₁.due
          rw [hp, dueBy_cons_of_le hdue] at this
          rw [hd₁.clock]
          exact (List.cons.inj this).2
        rw [dueBy_cons_of_le hdue, hdrop]
        rw [hp, dueBy_cons_of_le hdue, hdrop, List.length_cons] at hfuel
        obtain ⟨s₂, h₂, hd₂⟩ := ih (hi.checkIfDue hcheck) (hd₁.level.trans hoff)
          (hd₁.status ▸ hst) (Nat.lt_of_succ_lt_succ hfuel)
        rw [hcheck]
        exact ⟨s₂, h₂, hd₁.trans hd₂⟩

/-! ## `OneTick` -/

/-- What `OneTick` does to the clock and the queue. -/
structure Ticks (s s' : Interrupt σ) : Prop where
  clock : s'.totalTicks = s.advance.totalTicks
  fired : s'.fired = s.fired ++ (dueBy s'.totalTicks s.pending).map fun e => (e, s'.totalTicks)
  inOrder : Insert.Sorted PendingInterrupt.when (dueBy s'.totalTicks s.pending)
  once : ((dueBy s'.totalTicks s.pending).map PendingInterrupt.serial).Nodup
  later : ∀ e ∈ s'.pending, s'.totalTicks < e.when
  keeps : ∀ e ∈ s.pending, s'.totalTicks < e.when → e ∈ s'.pending

theorem advance_fields (s : Interrupt σ) : s.advance.pending = s.pending ∧
    s.advance.fired = s.fired ∧ s.advance.status = s.status := by
  unfold advance
  split_ifs <;> exact ⟨rfl, rfl, rfl⟩

theorem leaveTick_fields (s : Interrupt σ) : s.leaveTick.pending = s.pending ∧
    s.leaveTick.fired = s.fired ∧ s.leaveTick.totalTicks = s.totalTicks := by
  unfold leaveTick
  split_ifs <;> exact ⟨rfl, rfl, rfl⟩

theorem oneTick_spec (hcall : HandlersOk call) (hi : QueueInv s) (hst : s.status ≠ .idle) :
    ∃ n, ∀ fuel ≥ n, ∃ s', oneTick call fuel s = some s' ∧ Ticks s s' := by
  obtain ⟨hpending, hfired, hstatus⟩ := advance_fields s
  refine ⟨(dueBy s.advance.totalTicks s.pending).length + 1, fun fuel hfuel => ?_⟩
  have hi' : QueueInv (s.advance.changeLevel .off) := hi.advance.become _ _ _ _ _ _
  obtain ⟨s₁, h₁, hd⟩ := drain_spec hcall hi' rfl (hstatus ▸ hst)
    (Nat.lt_of_succ_le (hpending.symm ▸ hfuel))
  obtain ⟨hpending', hfired', hclock'⟩ := leaveTick_fields s₁
  have hclock : s₁.leaveTick.totalTicks = s.advance.totalTicks := hclock'.trans hd.clock
  have hdue : dueBy s.advance.totalTicks s₁.pending = [] :=
    List.append_right_eq_self.mp hd.due.symm
  refine ⟨s₁.leaveTick, Option.map_eq_some_iff.mpr ⟨s₁, h₁, rfl⟩, hclock, ?_, ?_, ?_, ?_, ?_⟩
  · rw [hclock, hfired', hd.fired]
    show s.advance.fired ++ (dueBy s.advance.totalTicks s.advance.pending).map _ = _
    rw [hfired, hpending]
    rfl
  · exact hi.sorted.sublist List.filter_sublist
  · exact hi.once.sublist ((List.filter_sublist.trans (List.sublist_append_left _ _)).map _)
  · intro e he
    rw [hpending'] at he
    rw [hclock]
    by_contra hle
    have hmem : e ∈ dueBy s.advance.totalTicks s₁.pending :=
      List.mem_filter.mpr ⟨he, decide_eq_true (not_lt.mp hle)⟩
    rw [hdue] at hmem
    exact List.not_mem_nil hmem
  · intro e he hlt
    rw [hclock] at hlt
    rw [hpending']
    exact hd.keeps e (hpending.symm ▸ he) hlt

/-! ## The status -/

theorem status_checkIfDue {advanceClock b : Bool}
    (h : s.checkIfDue call advanceClock = some (b, s')) : s'.status = s.status := by
  cases checkIfDue_cases h with
  | empty => rfl
  | notYet => rfl
  | timerOnly e => exact takeOff_status s advanceClock e []
  | fires e rest _ _ _ hfire =>
    obtain ⟨s₁, -, rfl⟩ := fire_eq_some hfire
    exact takeOff_status s advanceClock e rest

theorem status_drain {fuel : ℕ} (h : drain call fuel s = some s') : s'.status = s.status := by
  induction fuel generalizing s with
  | zero => cases h
  | succ fuel ih =>
    rw [drain] at h
    split at h
    · cases h
    · next s₁ h₁ => exact (ih h).trans (status_checkIfDue h₁)
    · next s₁ h₁ => exact Option.some.inj h ▸ status_checkIfDue h₁

theorem status_oneTick {fuel : ℕ} (h : oneTick call fuel s = some s') (hst : s.status ≠ .idle) :
    s'.status ≠ .idle := by
  obtain ⟨s₁, h₁, rfl⟩ := Option.map_eq_some_iff.mp h
  have hs₁ : s₁.status = s.status := (status_drain h₁).trans (advance_fields s).2.2
  unfold leaveTick
  split_ifs
  · exact fun hc => by cases hc
  · exact hs₁ ▸ hst

theorem status_step {op : Op σ} (h : s.step call op = some s')
    (hst : s.halted = false → s.status ≠ .idle) : s'.halted = false → s'.status ≠ .idle := by
  unfold step at h
  split_ifs at h with hh
  have hst := hst (Bool.eq_false_iff.mpr hh)
  intro hhalt
  cases op with
  | schedule r =>
    obtain ⟨-, rfl⟩ := schedule_eq_some h
    exact hst
  | setLevel now fuel =>
    simp only [setLevel] at h
    split_ifs at h
    · exact status_oneTick h hst
    · exact Option.some.inj h ▸ hst
  | oneTick fuel => exact status_oneTick h hst
  | idle fuel =>
    simp only [idle] at h
    split at h
    · cases h
    · obtain ⟨s₂, -, rfl⟩ := Option.map_eq_some_iff.mp h
      exact fun hc => by cases hc
    · obtain rfl := Option.some.inj h
      cases hhalt
  | setStatus st =>
    simp only at h
    split_ifs at h with hne
    exact Option.some.inj h ▸ hne
  | work world => exact Option.some.inj h ▸ hst

/-- Outside `Idle` the machine is not idle. -/
theorem status_of_reach (h : Run.Reach (step call) Init s) (hh : s.halted = false) :
    s.status ≠ .idle :=
  h.inv (fun s => s.halted = false → s.status ≠ .idle)
    (fun s ⟨world, hs⟩ _ => hs ▸ fun hc => by cases hc)
    (fun _ _ _ hi hs => status_step hs hi) hh

/-- The queue and the clock at every point of a run, `OneTick` wherever it is called, and that the
operations of the kernel lead to such points only. -/
theorem queue_and_clock (hcall : HandlersOk call) :
    (∀ s, Run.Reach (prim call) Init s →
      QueueInv s ∧ (∀ l s', s.prim call l = some s' → s.totalTicks ≤ s'.totalTicks) ∧
      (s.status ≠ .idle →
        ∃ n, ∀ fuel ≥ n, ∃ s', oneTick call fuel s = some s' ∧ Ticks s s')) ∧
    ∀ s, Run.Reach (step call) Init s →
      Run.Reach (prim call) Init s ∧ (s.halted = false → s.status ≠ .idle) := by
  refine ⟨fun s hs => ?_, fun s hs => ⟨reach_prim hs, status_of_reach hs⟩⟩
  have hi := queueInv_of_reach hs
  exact ⟨hi, fun _ _ h => totalTicks_le_prim h, fun hst => oneTick_spec hcall hi hst⟩

/-- The timer schedules its next interrupt and asks for a yield. -/
def timerExpired (handler : ℕ) (arg : ℤ) (_ : Interrupt Unit) : Effect Unit :=
  ⟨[⟨handler, arg, 100, .timer⟩], true, ()⟩

theorem queue_and_clock_timer : ∃ s : Interrupt Unit,
    (new ()).schedule ⟨0, 0, 5, .timer⟩ = some s ∧
      ∃ n, ∀ fuel ≥ n, ∃ s', oneTick timerExpired fuel s = some s' ∧ Ticks s s' := by
  refine ⟨_, rfl, ((queue_and_clock (fun _ _ _ r hr => ?_)).1 _
    ⟨new (), [.schedule ⟨0, 0, 5, .timer⟩], ⟨(), rfl⟩, rfl⟩).2.2 (by decide)⟩
  rw [List.mem_singleton.mp hr]
  show (0 : ℤ) < 100
  decide

end Interrupt

end Nachos
