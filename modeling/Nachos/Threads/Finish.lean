import Mathlib.Data.List.Induction
import Mathlib.Data.List.Nodup
import Nachos.Threads.Scheduler

/-!
# The end of a thread

`Finish` leaves the thread in `threadToBeDestroyed`, and a thread that resumes inside
`Scheduler::Run` deletes it. A thread that runs for the first time starts in `ThreadRoot` and deletes
nothing. So two threads must not finish without a resumption in between (`Spaced`): the second
assignment would overwrite the first.
-/

namespace Nachos

namespace Sched

variable {s s' : Sched} {op : Op}

/-! ## One step -/

/-- The thread that gets the processor. -/
def dispatched (s : Sched) : Op → Option ℕ
  | .yield | .finish | .wakeUp => s.readyList.head?
  | .P i => if (s.sems i).value = 0 then s.readyList.head? else none
  | .again =>
    match s.mode with
    | .testing i => if (s.sems i).value = 0 then s.readyList.head? else none
    | _ => none
  | _ => none

/-- The step gives the processor to a thread that has run before, so that it comes back from
`SWITCH` in `Scheduler::Run`. -/
def resumes (s : Sched) (op : Op) : Bool := (s.dispatched op).any fun t => !s.fresh t

/-- `threadToBeDestroyed` before the switch. -/
def doomedBy (s : Sched) (op : Op) : Option ℕ :=
  if op = .finish then some s.currentThread else s.threadToBeDestroyed

/-- The state of a step just before it switches or returns. -/
structure Prepares (s : Sched) (op : Op) (s₁ : Sched) : Prop where
  fresh : s₁.fresh = s.fresh
  doomed : s₁.threadToBeDestroyed = s.doomedBy op
  deleted : s₁.deleted = s.deleted
  finished : s₁.finished = s.finished ++ if op = .finish then [s.currentThread] else []
  threads : ∀ t, t ∈ s₁.threads ↔ t ∈ s.threads ∨ op = .fork t

/-- What a step does with the threads. -/
structure Effect (s : Sched) (op : Op) (s' : Sched) : Prop where
  doomed : s'.threadToBeDestroyed = if s.resumes op then none else s.doomedBy op
  deleted : s'.deleted = s.deleted ++ if s.resumes op then (s.doomedBy op).toList else []
  finished : s'.finished = s.finished ++ if op = .finish then [s.currentThread] else []
  threads : ∀ t, t ∈ s'.threads ↔ t ∈ s.threads ∨ op = .fork t
  current : s'.currentThread = (s.dispatched op).getD s.currentThread
  fresh : ∀ t, s'.fresh t = (s.fresh t && decide (s.dispatched op ≠ some t))
  dispatched : s.dispatched op ≠ none → s'.mode ≠ .idle

theorem run_mode (n : ℕ) : (s.run n).mode ≠ .idle := by
  show (s.inP n).elim Mode.running Mode.testing ≠ Mode.idle
  cases s.inP n <;> exact nofun

/-- The steps that leave the scheduling alone. -/
theorem prepares_of_eq (hop : op ≠ .finish) (hfork : ∀ t, op ≠ .fork t) (hf : s'.fresh = s.fresh)
    (hdoomed : s'.threadToBeDestroyed = s.threadToBeDestroyed) (hdel : s'.deleted = s.deleted)
    (hfin : s'.finished = s.finished) (hthreads : s'.threads = s.threads) : s.Prepares op s' where
  fresh := hf
  doomed := hdoomed.trans (if_neg hop).symm
  deleted := hdel
  finished := by rw [hfin, if_neg hop, List.append_nil]
  threads := fun t => by rw [hthreads, or_iff_left (hfork t)]

/-- The switch to the thread `n`. -/
theorem Prepares.run {n : ℕ} {s₁ : Sched} (h : s.Prepares op s₁) (hd : s.dispatched op = some n) :
    s.Effect op (s₁.run n) := by
  have hres : s.resumes op = !s.fresh n := by rw [resumes, hd, Option.any_some]
  refine ⟨?_, ?_, h.finished, h.threads, by rw [hd]; rfl, fun t => ?_, fun _ => run_mode n⟩
  · show (if s₁.fresh n then s₁.threadToBeDestroyed else none) = _
    rw [h.fresh, h.doomed, hres]
    cases s.fresh n <;> rfl
  · show s₁.deleted ++ (if s₁.fresh n then [] else s₁.threadToBeDestroyed.toList) = _
    rw [h.fresh, h.doomed, h.deleted, hres]
    cases s.fresh n <;> rfl
  · show Function.update s₁.fresh n false t = _
    rw [h.fresh, hd]
    by_cases ht : t = n
    · simp [ht]
    · have hne : n ≠ t := fun e => ht e.symm
      simp [ht, hne]

/-- A step that does not switch. -/
theorem Prepares.stay (h : s.Prepares op s') (hd : s.dispatched op = none)
    (hcur : s'.currentThread = s.currentThread) : s.Effect op s' := by
  have hres : s.resumes op = false := by rw [resumes, hd, Option.any_none]
  refine ⟨?_, ?_, h.finished, h.threads, by rw [hcur, hd]; rfl, fun t => ?_, fun h => absurd hd h⟩
  · rw [h.doomed, hres]
    rfl
  · rw [h.deleted, hres]
    exact (List.append_nil _).symm
  · rw [h.fresh, hd]
    simp

/-- A step that calls `Sleep` in the state `s₁`. -/
theorem Prepares.sleep {s₁ : Sched} (h : s.Prepares op s₁)
    (hd : s.dispatched op = s.readyList.head?) (hl : s₁.readyList = s.readyList)
    (hcur : s₁.currentThread = s.currentThread) : s.Effect op s₁.sleep := by
  have hblock : s₁.block.readyList = s.readyList := hl
  unfold Sched.sleep findNextToRun
  rw [hblock]
  cases hr : s.readyList with
  | nil =>
    rw [hr] at hd
    exact Prepares.stay ⟨h.fresh, h.doomed, h.deleted, h.finished, h.threads⟩ hd hcur
  | cons n rest =>
    rw [hr] at hd
    exact Prepares.run ⟨h.fresh, h.doomed, h.deleted, h.finished, h.threads⟩ hd

theorem effect_P {i : ℕ} (hop : op ≠ .finish) (hfork : ∀ t, op ≠ .fork t)
    (hd : s.dispatched op = if (s.sems i).value = 0 then s.readyList.head? else none) :
    s.Effect op (s.P i) := by
  unfold P
  by_cases hv : (s.sems i).value = 0
  · rw [if_pos hv] at hd
    rw [Semaphore.P_zero hv, if_neg Bool.false_ne_true]
    exact Prepares.sleep (prepares_of_eq hop hfork rfl rfl rfl rfl rfl) hd rfl rfl
  · rw [if_neg hv] at hd
    rw [Semaphore.P_pos hv, if_pos rfl]
    exact Prepares.stay (prepares_of_eq hop hfork rfl rfl rfl rfl rfl) hd rfl

theorem effect_V {i : ℕ} (hop : op ≠ .finish) (hfork : ∀ t, op ≠ .fork t)
    (hd : s.dispatched op = none) : s.Effect op (s.V i) := by
  unfold V
  cases (s.sems i).queue with
  | nil => exact Prepares.stay (prepares_of_eq hop hfork rfl rfl rfl rfl rfl) hd rfl
  | cons t rest => exact Prepares.stay (prepares_of_eq hop hfork rfl rfl rfl rfl rfl) hd rfl

/-- **The effect of a step.** -/
theorem effect_step (hs : s.step op = some s') : s.Effect op s' := by
  cases op with
  | fork t =>
    obtain ⟨-, ⟨⟩⟩ := Option.ite_none_right_eq_some.mp hs
    refine Prepares.stay ⟨rfl, rfl, rfl, (List.append_nil _).symm, fun u => ?_⟩ rfl rfl
    show u ∈ s.threads ++ [t] ↔ _
    rw [List.mem_append, List.mem_singleton, Op.fork.injEq, eq_comm]
  | yield =>
    obtain ⟨-, ⟨⟩⟩ := Option.ite_none_right_eq_some.mp hs
    unfold Sched.yield findNextToRun
    cases hr : s.readyList with
    | nil =>
      exact Prepares.stay (prepares_of_eq (by simp) (by simp) rfl rfl rfl rfl rfl)
        (by rw [dispatched, hr, List.head?_nil]) rfl
    | cons n rest =>
      exact Prepares.run (prepares_of_eq (by simp) (by simp) rfl rfl rfl rfl rfl)
        (by rw [dispatched, hr, List.head?_cons])
  | P i =>
    obtain ⟨-, ⟨⟩⟩ := Option.ite_none_right_eq_some.mp hs
    exact effect_P (by simp) (by simp) rfl
  | again =>
    simp only [step] at hs
    split at hs
    · rename_i i hm
      cases hs
      exact effect_P (by simp) (by simp) (by rw [dispatched, hm])
    · cases hs
  | V i =>
    obtain ⟨-, ⟨⟩⟩ := Option.ite_none_right_eq_some.mp hs
    exact effect_V (by simp) (by simp) rfl
  | finish =>
    obtain ⟨-, ⟨⟩⟩ := Option.ite_none_right_eq_some.mp hs
    refine Prepares.sleep ⟨rfl, rfl, rfl, rfl, fun t => ?_⟩ rfl rfl rfl
    exact (or_iff_left (by simp)).symm
  | interruptV i =>
    obtain ⟨-, ⟨⟩⟩ := Option.ite_none_right_eq_some.mp hs
    exact effect_V (by simp) (by simp) rfl
  | wakeUp =>
    obtain ⟨-, hs⟩ := Option.ite_none_right_eq_some.mp hs
    obtain ⟨⟨n, s₁⟩, hn, rfl⟩ := Option.map_eq_some_iff.mp hs
    unfold findNextToRun at hn
    cases hr : s.readyList with
    | nil =>
      rw [hr] at hn
      cases hn
    | cons m rest =>
      rw [hr] at hn
      cases hn
      exact Prepares.run (prepares_of_eq (by simp) (by simp) rfl rfl rfl rfl rfl)
        (by rw [dispatched, hr, List.head?_cons])

/-! ## Resumptions between two ends -/

/-- Some step of the run resumes a thread. -/
def resumed : Sched → List Op → Bool
  | _, [] => false
  | s, op :: ops => s.resumes op || (s.step op).any fun s' => s'.resumed ops

/-- Between two calls of `Finish`, counted from the first one, a thread is resumed. -/
def Spaced (s₀ : Sched) (ops : List Op) : Prop :=
  ∀ pre mid post s, ops = pre ++ .finish :: (mid ++ .finish :: post) →
    Run.exec step s₀ pre = some s → s.resumed (.finish :: mid) = true

theorem resumed_cons (hs : s.step op = some s') (ops : List Op) :
    s.resumed (op :: ops) = (s.resumes op || s'.resumed ops) := by
  rw [resumed, hs, Option.any_some]

theorem resumed_concat {ops : List Op} (h : Run.exec step s ops = some s') :
    s.resumed (ops ++ [op]) = (s.resumed ops || s'.resumes op) := by
  induction ops generalizing s with
  | nil =>
    cases h
    rw [List.nil_append, resumed]
    cases s'.step op <;> simp [resumed]
  | cons o ops ih =>
    obtain ⟨s₁, h₁, h₂⟩ := Run.exec_cons_eq_some.mp h
    rw [List.cons_append, resumed_cons h₁, resumed_cons h₁, ih h₂, Bool.or_assoc]

/-- Without a resumption a thread stays in `threadToBeDestroyed`, or makes room for another. -/
theorem isSome_of_not_resumed {ops : List Op} (h : Run.exec step s ops = some s')
    (hr : s.resumed ops = false) (hs : s.threadToBeDestroyed ≠ none) :
    s'.threadToBeDestroyed ≠ none := by
  induction ops generalizing s with
  | nil =>
    cases h
    exact hs
  | cons op ops ih =>
    obtain ⟨s₁, h₁, h₂⟩ := Run.exec_cons_eq_some.mp h
    rw [resumed_cons h₁, Bool.or_eq_false_iff] at hr
    refine ih h₂ hr.2 ?_
    rw [(effect_step h₁).doomed, hr.1, if_neg Bool.false_ne_true, doomedBy]
    by_cases hop : op = .finish
    · rw [if_pos hop]
      exact nofun
    · rw [if_neg hop]
      exact hs

/-- A thread in `threadToBeDestroyed` finished without a resumption since. -/
theorem finish_of_isSome {s₀ : Sched} (h₀ : s₀.threadToBeDestroyed = none) {ops : List Op}
    (h : Run.exec step s₀ ops = some s) (hs : s.threadToBeDestroyed ≠ none) :
    ∃ pre mid s₁, ops = pre ++ .finish :: mid ∧ Run.exec step s₀ pre = some s₁ ∧
      s₁.resumed (.finish :: mid) = false := by
  induction ops using List.reverseRecOn generalizing s with
  | nil =>
    cases h
    exact absurd h₀ hs
  | append_singleton ops op ih =>
    obtain ⟨s₂, h₂, hstep⟩ := Run.exec_concat.mp h
    have hdoomed := (effect_step hstep).doomed
    cases hres : s₂.resumes op with
    | true =>
      rw [hres] at hdoomed
      exact absurd hdoomed hs
    | false =>
      by_cases hop : op = .finish
      · subst hop
        refine ⟨ops, [], s₂, rfl, h₂, ?_⟩
        rw [resumed_cons hstep, hres]
        rfl
      · -- the thread was there before this step
        rw [hres, if_neg Bool.false_ne_true, doomedBy, if_neg hop] at hdoomed
        obtain ⟨pre, mid, s₁, rfl, hpre, hmid⟩ := ih h₂ (hdoomed ▸ hs)
        refine ⟨pre, mid ++ [op], s₁, by simp, hpre, ?_⟩
        obtain ⟨s₃, h₃, hrest⟩ := Run.exec_append.mp h₂
        rw [hpre] at h₃
        cases h₃
        rw [← List.cons_append, resumed_concat hrest, hmid, hres]
        rfl

/-! ## Every thread that finishes is deleted once -/

/-- The threads that have finished, each once and in order, are the deleted ones and then the one in
`threadToBeDestroyed`; the current thread is not deleted. -/
structure Reaped (s : Sched) : Prop where
  once : s.finished.Nodup
  deleted : s.deleted ++ s.threadToBeDestroyed.toList = s.finished
  current : s.currentThread ∉ s.deleted

theorem Inv.current_alive (h : s.Inv) (hm : s.mode ≠ .idle) : s.Alive s.currentThread := by
  obtain ⟨place, hp, -⟩ := h.placed hm
  exact (hp.hand _ rfl).2

theorem Inv.deleted_finished (h : s.Inv) {t : ℕ} (ht : t ∈ s.deleted) : t ∈ s.finished := by
  obtain ⟨place, hp, -⟩ := h
  exact hp.tidy.doomed t (.inl ht)

/-- The thread that runs is never a deleted one. -/
theorem current_not_deleted (hi' : s'.Inv) (hstep : s.step op = some s')
    (h : s.currentThread ∉ s.deleted) : s'.currentThread ∉ s'.deleted := by
  have hr := effect_step hstep
  cases hd : s.dispatched op with
  | none =>
    have hres : s.resumes op = false := by rw [resumes, hd, Option.any_none]
    rw [hr.current, hd, hr.deleted, hres]
    simpa using h
  | some n =>
    have halive := hi'.current_alive (hr.dispatched (by rw [hd]; exact nofun))
    exact fun hmem => halive.2 (hi'.deleted_finished hmem)

theorem Reaped.step (h : s.Reaped) (hi : s.Inv) (hstep : s.step op = some s')
    (hnull : op = .finish → s.threadToBeDestroyed = none) : s'.Reaped := by
  have hr := effect_step hstep
  refine ⟨?_, ?_, current_not_deleted (hi.step hstep) hstep h.current⟩
  · rw [hr.finished]
    by_cases hop : op = .finish
    · subst hop
      obtain ⟨hm, -⟩ := Option.ite_none_right_eq_some.mp hstep
      have halive := hi.current_alive (by rw [hm]; exact nofun)
      rw [if_pos rfl]
      exact h.once.append (List.nodup_singleton _) (by simpa using halive.2)
    · rw [if_neg hop, List.append_nil]
      exact h.once
  · -- resumed or not, the list grows by the thread that finishes
    have hgrow : s'.deleted ++ s'.threadToBeDestroyed.toList =
        s.deleted ++ (s.doomedBy op).toList := by
      rw [hr.deleted, hr.doomed]
      cases s.resumes op <;> simp
    rw [hgrow, hr.finished, doomedBy]
    by_cases hop : op = .finish
    · have hempty := h.deleted
      rw [hnull hop, Option.toList_none, List.append_nil] at hempty
      rw [if_pos hop, if_pos hop, hempty, Option.toList_some]
    · rw [if_neg hop, if_neg hop, List.append_nil, h.deleted]

theorem reaped_start (values : ℕ → ℤ) : (start values).Reaped := ⟨.nil, rfl, List.not_mem_nil⟩

/-- In a run with resumptions between the ends, `threadToBeDestroyed` is `NULL` at each `Finish`. -/
theorem Spaced.null {s₀ : Sched} (h₀ : s₀.threadToBeDestroyed = none) {ops pre post : List Op}
    (h : s₀.Spaced ops) (hops : ops = pre ++ .finish :: post)
    (hpre : Run.exec Sched.step s₀ pre = some s) : s.threadToBeDestroyed = none := by
  by_contra hs
  obtain ⟨pre₁, mid, s₁, rfl, h₁, hno⟩ := finish_of_isSome h₀ hpre hs
  have hres := h pre₁ mid post s₁ (by rw [hops]; simp) h₁
  rw [hno] at hres
  cases hres

theorem Spaced.reaped {values : ℕ → ℤ} {ops : List Op} (h : (start values).Spaced ops)
    {pre : List Op} (hpre : pre <+: ops) (hs : Run.exec Sched.step (start values) pre = some s) :
    s.Reaped := by
  induction pre using List.reverseRecOn generalizing s with
  | nil =>
    cases hs
    exact reaped_start values
  | append_singleton pre op ih =>
    obtain ⟨s₁, h₁, hstep⟩ := Run.exec_concat.mp hs
    have hpre₁ : pre <+: ops := (List.prefix_append pre [op]).trans hpre
    refine (ih hpre₁ h₁).step (inv_of_reach ⟨_, pre, ⟨values, rfl⟩, h₁⟩) hstep ?_
    rintro rfl
    obtain ⟨post, hpost⟩ := hpre
    exact h.null rfl (by rw [← hpost, List.append_assoc]; rfl) h₁

/-- **When finished threads are destroyed.** In a run of the scheduler every thread that has
finished is deleted exactly once, never while it is the current one, at the latest when a thread is
resumed, and `Finish` always finds `threadToBeDestroyed` empty, if and only if between any two calls
of `Finish` a thread is resumed. -/
theorem finished_destroyed_iff {values : ℕ → ℤ} {ops : List Op} {last : Sched}
    (h : Run.exec step (start values) ops = some last) :
    (∀ pre s, pre <+: ops → Run.exec step (start values) pre = some s →
      s.finished.Nodup ∧ s.deleted ++ s.threadToBeDestroyed.toList = s.finished ∧
      s.currentThread ∉ s.deleted ∧
      (pre ++ [.finish] <+: ops → s.threadToBeDestroyed = none) ∧
      ∀ op s', pre ++ [op] <+: ops → s.step op = some s' → s.resumes op = true →
        s'.deleted = s'.finished) ↔
      (start values).Spaced ops := by
  constructor
  · rintro hall pre mid post s rfl hpre
    obtain ⟨s₁, hs₁, hrest⟩ := Run.exec_append.mp h
    rw [hpre] at hs₁
    cases hs₁
    rw [← List.cons_append] at hrest
    obtain ⟨s₂, hs₂, -⟩ := Run.exec_append.mp hrest
    obtain ⟨s₁, hfin, hmid⟩ := Run.exec_cons_eq_some.mp hs₂
    have hs₂' : Run.exec step (start values) (pre ++ .finish :: mid) = some s₂ :=
      Run.exec_append.mpr ⟨s, hpre, hs₂⟩
    obtain ⟨-, -, -, hnull, -⟩ := hall (pre ++ .finish :: mid) s₂ ⟨.finish :: post, by simp⟩ hs₂'
    have hnone := hnull ⟨post, by simp⟩
    by_contra hno
    rw [Bool.not_eq_true, resumed_cons hfin, Bool.or_eq_false_iff] at hno
    refine isSome_of_not_resumed hmid hno.2 ?_ hnone
    rw [(effect_step hfin).doomed, hno.1]
    exact nofun
  · intro hspaced pre s hpre hs
    have hreaped := hspaced.reaped hpre hs
    refine ⟨hreaped.once, hreaped.deleted, hreaped.current, ?_, ?_⟩
    · rintro ⟨post, hpost⟩
      exact hspaced.null rfl (by rw [← hpost, List.append_assoc]; rfl) hs
    · intro op s' hop hstep hres
      have hs' : Run.exec step (start values) (pre ++ [op]) = some s' :=
        Run.exec_concat.mpr ⟨s, hs, hstep⟩
      have hreaped' := hspaced.reaped hop hs'
      rw [← hreaped'.deleted, (effect_step hstep).doomed, hres]
      exact (List.append_nil _).symm

/-- The main thread forks two threads and waits for a semaphore; each runs for the first time and
finishes. -/
def twoEnds : List Op := [.fork 1, .fork 2, .P 0, .finish, .finish]

theorem not_finished_destroyed : ∃ pre s, pre ++ [.finish] <+: twoEnds ∧
    Run.exec step (start fun _ => 0) pre = some s ∧ (s.step .finish).isSome = true ∧
    s.threadToBeDestroyed = some 1 ∧
    ∃ s', Run.exec step (start fun _ => 0) twoEnds = some s' ∧ s'.finished = [1, 2] ∧
      s'.threadToBeDestroyed = some 2 ∧ s'.deleted = [] :=
  ⟨[.fork 1, .fork 2, .P 0, .finish], _, ⟨[], rfl⟩, rfl, rfl, rfl, _, rfl, rfl, rfl, rfl⟩

/-- The second thread calls `V` and `Yield` first, so that the main thread deletes the first one. -/
def spacedEnds : List Op :=
  [.fork 1, .fork 2, .P 0, .finish, .V 0, .yield, .again, .yield, .finish]

theorem finished_destroyed_yield :
    ∃ s, Run.exec step (start fun _ => 0) spacedEnds = some s ∧
      s.deleted ++ s.threadToBeDestroyed.toList = [1, 2] := by
  refine ⟨_, rfl, ?_⟩
  have h := (finished_destroyed_iff
    (show Run.exec step (start fun _ => 0) spacedEnds = some _ from rfl)).mpr ?_
  · exact (h _ _ List.prefix_rfl rfl).2.1
  · rintro pre mid post s hops hs
    -- the first of the two calls is the fourth step
    rcases pre with _ | ⟨_, _ | ⟨_, _ | ⟨_, _ | ⟨_, pre⟩⟩⟩⟩
    · cases hops
    · cases hops
    · cases hops
    · rcases mid with _ | ⟨_, _ | ⟨_, mid⟩⟩
      · cases hops
      · cases hops
      · simp only [spacedEnds, List.cons_append, List.nil_append, List.cons.injEq] at hops
        obtain ⟨rfl, rfl, rfl, -, rfl, rfl, -⟩ := hops
        cases hs
        rfl
    · have hcount := congrArg (List.count Op.finish ∘ List.drop 4) hops
      simp [spacedEnds] at hcount
      omega

end Sched

end Nachos
