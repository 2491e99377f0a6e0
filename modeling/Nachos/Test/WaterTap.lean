import Nachos.Test.Rounds
import Nachos.Test.StackModel

/-!
# The water-tap application

The three programs on the kernel's semaphores and its open-file table, in any interleaving. Every run
follows the one course of `Core`; the only other steps are those in which a program that has not the
turn goes to sleep.
-/

namespace Nachos.Test

open Run

/-- The programs with their semaphores, and the file system. -/
structure WaterTap where
  tap : Tap
  files : FileSystem

namespace WaterTap

/-- `main` is about to make its first call. -/
def start (fs : FileSystem) : WaterTap where
  tap := .start
  files := fs

/-- Program `p` makes its next call. -/
def step (s : WaterTap) (p : Program) : Option WaterTap :=
  if s.tap.halted then none
  else
    match s.tap.locals p with
    | none => none
    | some l =>
      if l.call.onFile then
        match serve s.files l.call with
        | none => none
        | some (.reply r fs) => (s.tap.step (p, r)).map fun t => { tap := t, files := fs }
        | some .halts => some { s with tap := { s.tap with halted := true } }
      else (s.tap.step (p, l.call.plainReply)).map fun t => { s with tap := t }

/-- The contents of `output.txt`. -/
def output (s : WaterTap) : Option (List Byte) := s.files.host.lookup DataFile.output.name

end WaterTap

/-! ## The course -/

namespace Core

theorem program_of_locals {c : Core} {p : Program} {l : Local} (h : c.locals p = some l) :
    l.program = p := by
  cases p with
  | main =>
    obtain rfl := Option.some.inj h
    rfl
  | sinhvien =>
    obtain ⟨v, -, rfl⟩ := Option.map_eq_some_iff.mp h
    rfl
  | voinuoc =>
    obtain ⟨v, -, rfl⟩ := Option.map_eq_some_iff.mp h
    rfl

theorem put_locals (c : Core) (l : Local) :
    (c.put l).locals = Function.update c.locals l.program (some l) := by
  funext p
  cases l <;> cases p <;> rfl


@[simp] theorem put_turn (c : Core) (l : Local) : (c.put l).turn = c.turn := by cases l <;> rfl

@[simp] theorem put_unit (c : Core) (l : Local) : (c.put l).unit = c.unit := by cases l <;> rfl

@[simp] theorem put_files (c : Core) (l : Local) : (c.put l).files = c.files := by cases l <;> rfl

@[simp] theorem put_halted (c : Core) (l : Local) : (c.put l).halted = c.halted := by cases l <;> rfl

end Core

/-- A program without the turn waits for it, or has ended. -/
theorem Local.call_of_not_holds {l : Local} (h : l.holds = false) :
    (∃ x, l.call = .down x) ∨ l.call = .exit ∧ l.program ≠ .main := by
  cases l with
  | main m =>
    obtain ⟨point, _⟩ := m
    cases point <;> first | exact Or.inl ⟨_, rfl⟩ | cases h
  | sinhvien v =>
    obtain ⟨point, _⟩ := v
    cases point <;> first | exact Or.inl ⟨_, rfl⟩ | exact Or.inr ⟨rfl, nofun⟩ | cases h
  | voinuoc v =>
    obtain ⟨point, _⟩ := v
    cases point <;> first | exact Or.inl ⟨_, rfl⟩ | exact Or.inr ⟨rfl, nofun⟩ | cases h

/-- The programs open files with the types 0 and 1. -/
theorem Local.openFile_type {l : Local} {f : DataFile} {type : ℤ} (h : l.call = .openFile f type) :
    type = 0 ∨ type = 1 := by
  cases l with
  | main m =>
    obtain ⟨point, _⟩ := m
    cases point <;> cases h <;> first | exact Or.inl rfl | exact Or.inr rfl
  | sinhvien v =>
    obtain ⟨point, _⟩ := v
    cases point <;> cases h <;> first | exact Or.inl rfl | exact Or.inr rfl
  | voinuoc v =>
    obtain ⟨point, _⟩ := v
    cases point <;> cases h <;> first | exact Or.inl rfl | exact Or.inr rfl

namespace WaterTap

/-- The system is at a place of the course. A program that sleeps is on the queue of its own
semaphore, which has no unit. -/
structure At (s : WaterTap) (c : Core) : Prop where
  inv : s.tap.TurnInv
  halted : s.tap.halted = c.halted
  locals : s.tap.locals = c.locals
  value : ∀ p, (s.tap.sems p).value = if c.unit = true ∧ p = c.turn then 1 else 0
  queue : ∀ p, (s.tap.sems p).queue = [] ∨
    (s.tap.sems p).queue = [p.thread] ∧ (s.tap.sems p).value = 0
  files : Models s.files c.files

section Step

variable {s s' : WaterTap} {c c' : Core} {l : Local} {r : Reply}

/-- The program that has the turn goes on. -/
theorem At.locals_advance (h : At s c) (hl : c.locals c.turn = some l) :
    (s.tap.advance c.turn l r).locals = (c.put (l.resume r)).locals := by
  rw [Core.put_locals, Tap.program_resume, Core.program_of_locals hl]
  show Function.update s.tap.locals _ _ = _
  rw [h.locals]

theorem At.advance (h : At s c) (hl : c.locals c.turn = some l)
    (hinv : (s.tap.advance c.turn l r).TurnInv) {fs : FileSystem} {files : FileStack}
    (hf : Models fs files) :
    At ⟨s.tap.advance c.turn l r, fs⟩ { c.put (l.resume r) with files := files } := by
  refine ⟨hinv, ?_, h.locals_advance hl, ?_, h.queue, hf⟩
  · show s.tap.halted = (c.put (l.resume r)).halted
    rw [Core.put_halted]
    exact h.halted
  · intro p
    show _ = if (c.put (l.resume r)).unit = true ∧ p = (c.put (l.resume r)).turn then 1 else 0
    rw [Core.put_unit, Core.put_turn]
    exact h.value p

/-- With the unit taken, the program whose turn it is holds it. -/
theorem At.sum_value (h : At s c) : Program.sum s.tap.value = if c.unit = true then 1 else 0 := by
  have hm := h.value .main
  have hv := h.value .sinhvien
  have hw := h.value .voinuoc
  unfold Program.sum Tap.value
  rw [hm, hv, hw]
  cases c.unit <;> cases c.turn <;> rfl

/-- A call that is not on a file, with the step of the programs. -/
theorem step_plain (hh : s.tap.halted = false) {p : Program} (hl : s.tap.locals p = some l)
    (hf : l.call.onFile = false) :
    s.step p = (s.tap.step (p, l.call.plainReply)).map fun t => { s with tap := t } := by
  unfold WaterTap.step
  rw [hh, if_neg Bool.false_ne_true, hl]
  dsimp only
  rw [hf, if_neg Bool.false_ne_true]

theorem tap_step {t : Tap} (hh : t.halted = false) {p : Program} (hl : t.locals p = some l) :
    t.step (p, r) = match l.call with
      | .down x => if p.thread ∈ (t.sems x).queue then none else some (t.down p l x r)
      | .up x => some (t.up p l x r)
      | .exec q => some (if r.value = -1 then t.advance p l r else (t.advance p l r).startProgram q)
      | .halt => some { t with halted := true }
      | .exit => if p = .main then some { t with halted := true } else none
      | _ => some (t.advance p l r) := by
  unfold Tap.step
  dsimp only
  rewrite [hh, if_neg Bool.false_ne_true, hl]
  rfl

/-- A file call of the program that has the turn. -/
theorem At.next_file (h : At s c) (hh : c.halted = false) (hl : c.locals c.turn = some l)
    {files : FileStack} (hs : c.files.serve l.call = some (r, files)) (hf : l.call.onFile = true) :
    ∃ s', s.step c.turn = some s' ∧ At s' { c.put (l.resume r) with files := files } := by
  obtain ⟨fs, hserve, hmodels⟩ := h.files.serve (fun _ _ => Local.openFile_type) hs
  have hh' : s.tap.halted = false := h.halted.trans hh
  have hl' : s.tap.locals c.turn = some l := by
    rw [h.locals, hl]
  have htap : s.tap.step (c.turn, r) = some (s.tap.advance c.turn l r) := by
    rw [tap_step hh' hl']
    cases hc : l.call <;> rewrite [hc] at hf <;> first | rfl | cases hf
  refine ⟨⟨s.tap.advance c.turn l r, fs⟩, ?_, h.advance hl (h.inv.step htap) hmodels⟩
  unfold WaterTap.step
  rw [hh', if_neg Bool.false_ne_true, hl']
  dsimp only
  rw [hf, if_pos rfl, hserve]
  dsimp only
  rw [htap]
  rfl

/-- The program that has the turn takes the unit. -/
theorem At.next_down (h : At s c) (hh : c.halted = false) (hl : c.locals c.turn = some l)
    (hc : l.call = .down c.turn) (hu : c.unit = true) : ∃ s', s.step c.turn = some s' ∧
      At s' { c.put (l.resume (UserCall.plainReply (.down c.turn))) with unit := false } := by
  have hh' : s.tap.halted = false := h.halted.trans hh
  have hl' : s.tap.locals c.turn = some l := by
    rw [h.locals, hl]
  have hone : (s.tap.sems c.turn).value = 1 := by
    rw [h.value, if_pos ⟨hu, rfl⟩]
  have hqueue : (s.tap.sems c.turn).queue = [] := (h.queue c.turn).resolve_right fun hno => by
    have := hno.2
    omega
  have htap : s.tap.step (c.turn, UserCall.plainReply (.down c.turn)) =
      some (s.tap.take c.turn l c.turn (UserCall.plainReply (.down c.turn))) := by
    rw [tap_step hh' hl', hc]
    dsimp only
    rw [hqueue, if_neg List.not_mem_nil]
    unfold Tap.down
    rw [if_neg (by omega)]
  have hsem : ∀ p, (Function.update s.tap.sems c.turn
      ((s.tap.sems c.turn).P c.turn.thread).1 p).queue = (s.tap.sems p).queue ∧
        (Function.update s.tap.sems c.turn ((s.tap.sems c.turn).P c.turn.thread).1 p).value = 0 := by
    intro p
    by_cases hp : p = c.turn
    · rw [hp, Function.update_self, Semaphore.P_pos (by omega)]
      refine ⟨rfl, ?_⟩
      show intPred (s.tap.sems c.turn).value = 0
      rw [hone]
      rfl
    · rw [Function.update_of_ne hp]
      refine ⟨rfl, ?_⟩
      rw [h.value, if_neg fun hno => hp hno.2]
  refine ⟨{ s with tap := s.tap.take c.turn l c.turn (UserCall.plainReply (.down c.turn)) }, ?_,
    h.inv.step htap, ?_, h.locals_advance hl, ?_, ?_, ?_⟩
  · rw [step_plain hh' hl' (by rw [hc]; rfl), hc, htap]
    rfl
  · show s.tap.halted = (c.put _).halted
    rw [Core.put_halted]
    exact h.halted
  · intro p
    exact (hsem p).2.trans (if_neg fun hno => Bool.false_ne_true hno.1).symm
  · intro p
    have hzero := (hsem p).2
    have hq := (hsem p).1
    rcases h.queue p with hnil | ⟨hself, -⟩
    · exact Or.inl (hq.trans hnil)
    · exact Or.inr ⟨hq.trans hself, hzero⟩
  · show Models s.files (c.put _).files
    rw [Core.put_files]
    exact h.files

/-- The program that has the turn gives it to another one. -/
theorem At.next_up (h : At s c) (hh : c.halted = false) (hl : c.locals c.turn = some l) {x : Program}
    (hc : l.call = .up x) : ∃ s', s.step c.turn = some s' ∧
      At s' { c.put (l.resume (UserCall.plainReply (.up x))) with turn := x, unit := true } := by
  have hh' : s.tap.halted = false := h.halted.trans hh
  have hl' : s.tap.locals c.turn = some l := by
    rw [h.locals, hl]
  have htap : s.tap.step (c.turn, UserCall.plainReply (.up x)) =
      some (s.tap.up c.turn l x (UserCall.plainReply (.up x))) := by
    rw [tap_step hh' hl', hc]
  -- no semaphore has a unit
  have hzero : ∀ p, (s.tap.sems p).value = 0 := by
    have ht := l.turnAt (UserCall.plainReply (.up x))
    rw [hc] at ht
    have hturn : s.tap.turn c.turn = 1 := by
      rw [Tap.turn_of_some hl', ht.1]
      rfl
    have hone := h.inv.one
    have hnn := s.tap.turn_nonneg
    have h₁ := hnn .main
    have h₂ := hnn .sinhvien
    have h₃ := hnn .voinuoc
    rw [h.sum_value] at hone
    have hsum : s.tap.turn c.turn ≤ Program.sum s.tap.turn := by
      unfold Program.sum
      cases c.turn <;> omega
    have hno : c.unit ≠ true := by
      intro hu
      rw [if_pos hu] at hone
      omega
    intro p
    rw [h.value, if_neg fun hp => hno hp.1]
  have hsem : ∀ p, (Function.update s.tap.sems x (s.tap.sems x).V p).value = (if p = x then 1 else 0) ∧
      ((Function.update s.tap.sems x (s.tap.sems x).V p).queue = [] ∨
        p ≠ x ∧ (Function.update s.tap.sems x (s.tap.sems x).V p).queue = [p.thread]) := by
    intro p
    by_cases hp : p = x
    · subst hp
      rw [Function.update_self, if_pos rfl]
      refine ⟨?_, Or.inl ?_⟩
      · exact Semaphore.V_zero (hzero p)
      · show (s.tap.sems p).queue.tail = []
        rcases h.queue p with hq | ⟨hq, -⟩ <;> rw [hq] <;> rfl
    · rw [Function.update_of_ne hp, if_neg hp]
      exact ⟨hzero p, (h.queue p).imp_right fun hq => ⟨hp, hq.1⟩⟩
  refine ⟨{ s with tap := s.tap.up c.turn l x (UserCall.plainReply (.up x)) }, ?_, h.inv.step htap, ?_,
    h.locals_advance hl, ?_, ?_, ?_⟩
  · rw [step_plain hh' hl' (by rw [hc]; rfl), hc, htap]
    rfl
  · show s.tap.halted = (c.put _).halted
    rw [Core.put_halted]
    exact h.halted
  · intro p
    refine (hsem p).1.trans ?_
    by_cases hp : p = x
    · rw [if_pos hp, if_pos ⟨rfl, hp⟩]
    · rw [if_neg hp, if_neg fun hno => hp hno.2]
  · intro p
    obtain ⟨hv, hq⟩ := hsem p
    refine hq.imp_right fun ⟨hne, hq⟩ => ⟨hq, ?_⟩
    exact hv.trans (if_neg hne)
  · show Models s.files (c.put _).files
    rw [Core.put_files]
    exact h.files

/-- The next step of the course is a step of the system. -/
theorem At.next (h : At s c) (hn : c.next = some c') : ∃ s', s.step c.turn = some s' ∧ At s' c' := by
  obtain ⟨hh, hn⟩ := Option.ite_none_left_eq_some.mp hn
  have hh : c.halted = false := Bool.eq_false_iff.mpr hh
  obtain ⟨l, hl, hn⟩ := Option.bind_eq_some_iff.mp hn
  have hh' : s.tap.halted = false := h.halted.trans hh
  have hl' : s.tap.locals c.turn = some l := by
    rw [h.locals, hl]
  -- a call that only gets its reply
  have hplain (hf : l.call.onFile = false)
      (htap : s.tap.step (c.turn, l.call.plainReply) =
        some (s.tap.advance c.turn l l.call.plainReply)) :
      ∃ s', s.step c.turn = some s' ∧ At s' (c.put (l.resume l.call.plainReply)) := by
    refine ⟨{ s with tap := s.tap.advance c.turn l l.call.plainReply }, ?_, ?_⟩
    · rw [step_plain hh' hl' hf, htap]
      rfl
    · have hadv := h.advance hl (h.inv.step htap) h.files
      have hfiles : { c.put (l.resume l.call.plainReply) with files := c.files } =
          c.put (l.resume l.call.plainReply) := by
        cases l <;> rfl
      rwa [hfiles] at hadv
  unfold Core.nextOf at hn
  cases hc : l.call
  case down x =>
    rw [hc] at hn
    obtain ⟨⟨hu, rfl⟩, hn⟩ := Option.ite_none_right_eq_some.mp hn
    obtain rfl := Option.some.inj hn
    exact h.next_down hh hl hc hu
  case up x =>
    rw [hc] at hn
    obtain rfl := Option.some.inj hn
    exact h.next_up hh hl hc
  case exec q =>
    rw [hc] at hn
    obtain rfl := Option.some.inj hn
    have htap : s.tap.step (c.turn, UserCall.plainReply (.exec q)) =
        some ((s.tap.advance c.turn l (UserCall.plainReply (.exec q))).startProgram q) := by
      rw [tap_step hh' hl', hc]
      dsimp only
      rw [if_neg (by cases q <;> decide)]
    refine ⟨{ s with tap := (s.tap.advance c.turn l (UserCall.plainReply (.exec q))).startProgram q }, ?_,
      h.inv.step htap, ?_, ?_, ?_, h.queue, ?_⟩
    · rw [step_plain hh' hl' (by rw [hc]; rfl), hc, htap]
      rfl
    · rw [Core.put_halted, Core.put_halted]
      exact h.halted
    · rw [Core.put_locals]
      show Function.update (s.tap.advance c.turn l _).locals q _ = _
      rw [h.locals_advance hl]
      cases q <;> rfl
    · intro p
      rw [Core.put_unit, Core.put_unit, Core.put_turn, Core.put_turn]
      exact h.value p
    · rw [Core.put_files, Core.put_files]
      exact h.files
  case halt =>
    rw [hc] at hn
    obtain rfl := Option.some.inj hn
    have htap : s.tap.step (c.turn, UserCall.plainReply .halt) = some { s.tap with halted := true } := by
      rw [tap_step hh' hl', hc]
    refine ⟨{ s with tap := { s.tap with halted := true } }, ?_, h.inv.step htap, rfl, h.locals, h.value,
      h.queue, h.files⟩
    rw [step_plain hh' hl' (by rw [hc]; rfl), hc, htap]
    rfl
  case exit =>
    rw [hc] at hn
    cases hn
  case createSemaphore =>
    rw [hc] at hn
    obtain rfl := Option.some.inj hn
    rw [hc] at hplain
    exact hplain rfl (by rw [tap_step hh' hl', hc])
  case printString =>
    rw [hc] at hn
    obtain rfl := Option.some.inj hn
    rw [hc] at hplain
    exact hplain rfl (by rw [tap_step hh' hl', hc])
  all_goals
    rw [hc] at hn
    obtain ⟨⟨r, files⟩, hs, rfl⟩ := Option.map_eq_some_iff.mp hn
    rw [← hc] at hs
    exact h.next_file hh hl hs (by rw [hc]; rfl)

/-- The steps that do not belong to the course: how many programs are not asleep. -/
def idle (s : WaterTap) : ℕ :=
  (if Program.main.thread ∈ (s.tap.sems .main).queue then 0 else 1) +
  (if Program.sinhvien.thread ∈ (s.tap.sems .sinhvien).queue then 0 else 1) +
  (if Program.voinuoc.thread ∈ (s.tap.sems .voinuoc).queue then 0 else 1)

/-- Only the program whose turn it is has the turn. -/
theorem At.not_holds (h : At s c) (hn : c.next = some c') {p : Program} (hp : p ≠ c.turn)
    (hl : s.tap.locals p = some l) : l.holds = false := by
  have hone := h.inv.one
  rw [h.sum_value] at hone
  have hle := Program.le_sum s.tap.turn_nonneg hp
  have hnn := s.tap.turn_nonneg c.turn
  suffices hturn : s.tap.turn p ≤ 0 by
    rw [Tap.turn_of_some hl] at hturn
    by_contra hno
    rw [if_pos (by simpa using hno)] at hturn
    omega
  by_cases hu : c.unit = true
  · rw [if_pos hu] at hone
    omega
  · rw [if_neg hu] at hone
    -- the unit was taken, and the next call is not `Down`
    obtain ⟨-, hn⟩ := Option.ite_none_left_eq_some.mp hn
    obtain ⟨l', hl', hn⟩ := Option.bind_eq_some_iff.mp hn
    have hholds : l'.holds = true := by
      by_contra hno
      rcases Local.call_of_not_holds (Bool.eq_false_iff.mpr hno) with ⟨x, hc⟩ | ⟨hc, -⟩
      · unfold Core.nextOf at hn
        rw [hc] at hn
        exact hu (Option.ite_none_right_eq_some.mp hn).1.1
      · unfold Core.nextOf at hn
        rw [hc] at hn
        cases hn
    have hmine : s.tap.turn c.turn = 1 := by
      rw [Tap.turn_of_some (by rw [h.locals, hl']), hholds]
      rfl
    omega

/-- Another program can only go to sleep. -/
theorem At.sleeps (h : At s c) (hn : c.next = some c') {p : Program} (hp : p ≠ c.turn)
    (hs : s.step p = some s') : At s' c ∧ s'.idle < s.idle := by
  have hh : c.halted = false := Bool.eq_false_iff.mpr (Option.ite_none_left_eq_some.mp hn).1
  have hh' : s.tap.halted = false := h.halted.trans hh
  cases hl : s.tap.locals p with
  | none =>
    unfold WaterTap.step at hs
    rw [hh', if_neg Bool.false_ne_true, hl] at hs
    cases hs
  | some l =>
    have hholds := h.not_holds hn hp hl
    rcases Local.call_of_not_holds hholds with ⟨x, hc⟩ | ⟨hc, hmain⟩
    · have ht := l.turnAt (UserCall.plainReply (.down x))
      rw [hc] at ht
      obtain rfl : x = p := ht.1.trans (h.inv.own p l hl)
      rw [step_plain hh' hl (by rw [hc]; rfl), hc, tap_step hh' hl, hc] at hs
      dsimp only at hs
      obtain ⟨t, htap, rfl⟩ := Option.map_eq_some_iff.mp hs
      obtain ⟨hq, htap⟩ := Option.ite_none_left_eq_some.mp htap
      obtain rfl := Option.some.inj htap
      have hzero : (s.tap.sems x).value = 0 := by
        rw [h.value, if_neg fun hno => hp hno.2]
      have hqueue : (s.tap.sems x).queue = [] := (h.queue x).resolve_right fun hno =>
        hq (hno.1 ▸ List.mem_singleton_self _)
      have hdown : s.tap.down x l x (UserCall.plainReply (.down x)) = s.tap.sleep x x := if_pos hzero
      have hinv : (s.tap.sleep x x).TurnInv := by
        rw [← hdown]
        exact h.inv.down hl hc
      have hsem : ∀ p, (Function.update s.tap.sems x ((s.tap.sems x).P x.thread).1 p).value =
          (s.tap.sems p).value ∧ (Function.update s.tap.sems x ((s.tap.sems x).P x.thread).1 p).queue =
            if p = x then [x.thread] else (s.tap.sems p).queue := by
        intro p
        by_cases hpx : p = x
        · rw [hpx, Function.update_self, Semaphore.P_zero hzero, if_pos rfl]
          exact ⟨rfl, by rw [hqueue]; rfl⟩
        · rw [Function.update_of_ne hpx, if_neg hpx]
          exact ⟨rfl, rfl⟩
      rw [hdown]
      refine ⟨⟨hinv, h.halted, h.locals, ?_, ?_, h.files⟩, ?_⟩
      · exact fun p => (hsem p).1.trans (h.value p)
      · intro p
        show (Function.update s.tap.sems x ((s.tap.sems x).P x.thread).1 p).queue = [] ∨
          (Function.update s.tap.sems x ((s.tap.sems x).P x.thread).1 p).queue = [p.thread] ∧
            (Function.update s.tap.sems x ((s.tap.sems x).P x.thread).1 p).value = 0
        rw [(hsem p).1, (hsem p).2]
        by_cases hpx : p = x
        · rw [if_pos hpx, hpx]
          exact Or.inr ⟨rfl, hzero⟩
        · rw [if_neg hpx]
          exact h.queue p
      · have hidle : ∀ q, (Function.update s.tap.sems x ((s.tap.sems x).P x.thread).1 q).queue =
            if q = x then [x.thread] else (s.tap.sems q).queue := fun q => (hsem q).2
        unfold idle Tap.sleep
        dsimp only
        rw [hidle, hidle, hidle]
        cases x <;> simp [hqueue]
    · have hpmain : p ≠ .main := fun heq => hmain ((h.inv.own p l hl).trans heq)
      rw [step_plain hh' hl (by rw [hc]; rfl), hc, tap_step hh' hl, hc] at hs
      dsimp only at hs
      rw [if_neg hpmain] at hs
      cases hs

theorem follows : Follows step Core.next At idle 3 := by
  refine ⟨fun s c _ => ?_, fun s c c' p s' h hn hs => ?_⟩
  · unfold idle
    split_ifs <;> omega
  · by_cases hp : p = c.turn
    · obtain ⟨s₁, hs₁, h₁⟩ := h.next hn
      rw [hp, hs₁] at hs
      obtain rfl := Option.some.inj hs
      exact Or.inl h₁
    · exact Or.inr (h.sleeps hn hp hs)

theorem At.start {h : Host} {fs : FileSystem} (hp : h.Plain)
    (hr : ∀ f : DataFile, h.refuses f.name = false) (hnew : FileSystem.new h = some fs) :
    At (WaterTap.start fs) (Core.start (dataOf h)) := by
  refine ⟨Tap.turnInv_start, rfl, ?_, fun p => rfl, fun p => Or.inl rfl, models_new hp hr hnew⟩
  funext p
  cases p <;> rfl

end Step

/-! ## Every run -/

/-- In every interleaving the programs go on until the machine halts, which it does after at most `n`
calls, and then `output.txt` holds `out`. -/
def EndsWith (fs : FileSystem) (out : List Byte) : Prop :=
  ∃ n, ∀ (ps : List Program) (s : WaterTap), exec step (start fs) ps = some s →
    ps.length ≤ n ∧ (s.tap.halted = false → ∃ p, s.step p ≠ none) ∧
      (s.tap.halted = true → s.output = some out)

/-- The host before the start: `input.txt` is there, and the four files can be opened. -/
structure Ready (h : Host) (input : List Byte) : Prop where
  plain : h.Plain
  accepts : ∀ f : DataFile, h.refuses f.name = false
  input : h.lookup DataFile.input.name = some input

/-- With at most three lines, none of them longer than an `int` can say, every run ends with each number
and its tap in `output.txt`. -/
theorem ends_with_output {h : Host} {fs : FileSystem} {N : Numeral} {ended : Bool} {lines : List Line}
    (hr : Ready h (inputText N ended lines)) (hnew : FileSystem.new h = some fs)
    (hN : N.value = lines.length) (h3 : lines.length ≤ 3)
    (hshort : ∀ ln ∈ lines, (spaced ln.numbers).length < 2 ^ 31) :
    EndsWith fs (outputText lines) := by
  obtain ⟨c, hc, hout, hgoes⟩ := Core.goes_start N ended lines hN h3 hshort (dataOf h) hr.input
  have hstart := At.start hr.plain hr.accepts hnew
  have hlast : ∀ s p, At s c → s.step p = none := by
    intro s p hs
    unfold WaterTap.step
    rw [hs.halted, hc, if_pos rfl]
  obtain ⟨n, hn⟩ := follows.exec hlast hgoes
  refine ⟨n, fun ps s hs => ?_⟩
  obtain ⟨hlen, c', hat, hgoes'⟩ := hn ps _ s hstart hs
  refine ⟨hlen, fun hrun => ?_, fun hhalt => ?_⟩
  · -- the course goes on
    rcases Relation.ReflTransGen.cases_head hgoes' with rfl | ⟨c'', hnext, -⟩
    · have := hat.halted
      rw [hrun, hc] at this
      cases this
    · obtain ⟨s', hs', -⟩ := hat.next hnext
      exact ⟨c'.turn, by rw [hs']; exact nofun⟩
  · -- the course has ended
    rcases Relation.ReflTransGen.cases_head hgoes' with rfl | ⟨c'', hnext, -⟩
    · unfold output
      rw [hat.files.data .output]
      exact hout
    · have := (Option.ite_none_left_eq_some.mp hnext).1
      exact absurd (hat.halted.symm.trans hhalt) this

/-- A host with nothing but `input.txt`. -/
def hostWithInput (bytes : List Byte) : Host :=
  { Host.empty with
    names := fun name => if name = DataFile.input.name then some 0 else none
    contents := fun _ => bytes
    nextInode := 1 }

theorem ready_hostWithInput (bytes : List Byte) : Ready (hostWithInput bytes) bytes := by
  have hname : ∀ name i, (hostWithInput bytes).names name = some i →
      name = DataFile.input.name ∧ i = 0 := by
    intro name i h
    obtain ⟨hname, h⟩ := Option.ite_none_right_eq_some.mp h
    exact ⟨hname, (Option.some.inj h).symm⟩
  refine ⟨⟨fun name i h => ?_, fun name name' i h h' => ?_⟩, fun _ => rfl, rfl⟩
  · rw [(hname name i h).2]
    exact Nat.one_pos
  · rw [(hname name i h).1, (hname name' i h').1]

/-- A number of one digit. -/
def digit (ch : Byte) (h : IsDigit ch) : Numeral where
  digits := [ch]
  isDigit := by
    intro c hc
    rwa [List.mem_singleton.mp hc]
  nonempty := List.cons_ne_nil _ _

/-- A line with the number 1. -/
def lineOne : Line where
  numbers := [digit 0x31 (by decide)]
  nonempty := List.cons_ne_nil _ _
  positive := by decide
  fits := by decide

/-- One line with one number. -/
theorem ends_with_output_one : ∃ (h : Host) (fs : FileSystem),
    Ready h [0x31, 0x0A, 0x31, 0x0A] ∧ FileSystem.new h = some fs ∧
      EndsWith fs [0x31, 0x5F, 0x31, 0x0D, 0x0A] := by
  have hnew : (FileSystem.new (hostWithInput [0x31, 0x0A, 0x31, 0x0A])).isSome = true := by
    decide +kernel
  obtain ⟨fs, hfs⟩ := Option.isSome_iff_exists.mp hnew
  refine ⟨_, fs, ready_hostWithInput _, hfs, ?_⟩
  apply ends_with_output (N := digit 0x31 (by decide)) (h := hostWithInput [0x31, 0x0A, 0x31, 0x0A])
    (ready_hostWithInput (inputText (digit 0x31 (by decide)) true [lineOne])) hfs rfl (by decide)
  decide

/-- A run with four lines, by the lengths of the turns. -/
def fourTurns : List (ℕ × Program) :=
  let round : List (ℕ × Program) := [(15, .sinhvien), (11, .voinuoc), (4, .sinhvien), (8, .main)]
  (16, .main) :: (round ++ round ++ round ++ [(13, .sinhvien)])

/-- Four lines with the number 1: in the fourth round the table is full, `sinhvien` writes the number to
an old id, and the machine halts with three lines in `output.txt`. -/
theorem not_ends_with_output_four : ∃ (h : Host) (fs : FileSystem),
    Ready h (inputText (digit 0x34 (by decide)) true [lineOne, lineOne, lineOne, lineOne]) ∧
      FileSystem.new h = some fs ∧
      ¬ EndsWith fs (outputText [lineOne, lineOne, lineOne, lineOne]) := by
  let lines := [lineOne, lineOne, lineOne, lineOne]
  let input := inputText (digit 0x34 (by decide)) true lines
  have hrun : (FileSystem.new (hostWithInput input)).any (fun fs =>
      (exec step (start fs) (fourTurns.flatMap fun (n, p) => List.replicate n p)).any fun s =>
        s.tap.halted && decide (s.output = some (outputText [lineOne, lineOne, lineOne]))) = true := by
    decide +kernel
  obtain ⟨fs, hfs, hrun⟩ := (Option.any_eq_true _ _).mp hrun
  obtain ⟨s, hs, hrun⟩ := (Option.any_eq_true _ _).mp hrun
  obtain ⟨hhalt, hout⟩ := Bool.and_eq_true_iff.mp hrun
  refine ⟨_, fs, ready_hostWithInput input, hfs, fun ⟨n, hn⟩ => ?_⟩
  have hright := (hn _ s hs).2.2 hhalt
  rw [of_decide_eq_true hout, Option.some.injEq] at hright
  revert hright
  decide

end WaterTap

end Nachos.Test
