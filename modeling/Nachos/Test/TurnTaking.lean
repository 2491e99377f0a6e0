import Nachos.Lib.Run
import Nachos.Test.Programs
import Nachos.Threads.Synch
import Mathlib.Algebra.Order.Ring.Int
import Mathlib.Logic.Function.Basic

/-!
# Turn taking of the water-tap programs

The three programs in any interleaving, with any replies to the calls that are not `Up` or `Down`.
Each semaphore is taken by the program of its name only, at the end of its turn; `sinhvien` is given
by `main` (a new line) and by `voinuoc` (a tap was chosen).

`holds` says of each point whether the program has the turn there. The invariant is that the units of
the semaphores and the programs that have the turn are one in all.
-/

namespace Nachos.Test

/-- The thread that runs a program. -/
def Program.thread : Program → ℕ
  | .main => 0
  | .sinhvien => 1
  | .voinuoc => 2

/-- The programs that were started, the semaphores, and what happened: between the return of a `Down`
and the next `Up`, `between` is true; `ups` and `downs` count the calls on a semaphore that are
complete, `mainUp` is set by the first `Up` of `main`. -/
structure Tap where
  locals : Program → Option Local
  sems : Program → Semaphore
  halted : Bool
  between : Program → Bool
  ups : Program → ℕ
  downs : Program → ℕ
  mainUp : Bool

namespace Tap

/-- `main` is about to make its first call. -/
def start : Tap where
  locals := fun p => if p = .main then some (.start .main) else none
  sems := fun _ => Semaphore.new 0
  halted := false
  between := fun _ => false
  ups := fun _ => 0
  downs := fun _ => 0
  mainUp := false

/-- Program `p` goes on with a reply. -/
def advance (s : Tap) (p : Program) (l : Local) (r : Reply) : Tap :=
  { s with locals := Function.update s.locals p (some (l.resume r)) }

/-- The new process is about to make its first call. -/
def startProgram (s : Tap) (q : Program) : Tap :=
  { s with locals := Function.update s.locals q (some (.start q)) }

/-- `p` finds no unit in `Down(x)` and sleeps. -/
def sleep (s : Tap) (p x : Program) : Tap :=
  { s with sems := Function.update s.sems x ((s.sems x).P p.thread).1 }

/-- `p` gets a unit in `Down(x)`, which returns. -/
def take (s : Tap) (p : Program) (l : Local) (x : Program) (r : Reply) : Tap :=
  { s.advance p l r with
    sems := Function.update s.sems x ((s.sems x).P p.thread).1
    between := Function.update s.between p true
    downs := Function.update s.downs x (s.downs x + 1) }

def down (s : Tap) (p : Program) (l : Local) (x : Program) (r : Reply) : Tap :=
  if (s.sems x).value = 0 then s.sleep p x else s.take p l x r

def up (s : Tap) (p : Program) (l : Local) (x : Program) (r : Reply) : Tap :=
  { s.advance p l r with
    sems := Function.update s.sems x (s.sems x).V
    between := Function.update s.between p false
    ups := Function.update s.ups x (s.ups x + 1)
    mainUp := s.mainUp || p = .main }

/-- `p` makes its next call and gets the reply `r`. A program that sleeps in `Down` makes none; the
root process halts the machine when it exits. -/
def step (s : Tap) : Program × Reply → Option Tap
  | (p, r) =>
    if s.halted then none
    else
      match s.locals p with
      | none => none
      | some l =>
        match l.call with
        | .down x => if p.thread ∈ (s.sems x).queue then none else some (s.down p l x r)
        | .up x => some (s.up p l x r)
        | .exec q => some (if r.value = -1 then s.advance p l r else (s.advance p l r).startProgram q)
        | .halt => some { s with halted := true }
        | .exit => if p = .main then some { s with halted := true } else none
        | _ => some (s.advance p l r)

end Tap

/-! ## Who has the turn -/

def Main.holds (m : Main) : Bool :=
  match m.point with
  | .downMain => false
  | _ => true

def Sinhvien.holds (v : Sinhvien) : Bool :=
  match v.point with
  | .downStart | .downAgain | .exit => false
  | _ => true

def Voinuoc.holds (v : Voinuoc) : Bool :=
  match v.point with
  | .down | .exit => false
  | _ => true

def Local.holds : Local → Bool
  | .main m => m.holds
  | .sinhvien v => v.holds
  | .voinuoc v => v.holds

/-- What each kind of call does to the turn: `Down` is on the program's own semaphore and gives it,
`Up` ends it, no other call changes it. -/
def Local.TurnAt (l : Local) (r : Reply) : UserCall → Prop
  | .down x => x = l.program ∧ l.holds = false ∧ (l.resume r).holds = true
  | .up _ => l.holds = true ∧ (l.resume r).holds = false
  | .halt | .exit => True
  | _ => (l.resume r).holds = l.holds

theorem Main.turnAt (m : Main) (r : Reply) : Local.TurnAt (.main m) r m.call := by
  obtain ⟨point, fInput, fSinhvien, check, N, ch⟩ := m
  cases point
  case downMain =>
    refine ⟨rfl, rfl, ?_⟩
    show Main.holds (Main.loop _) = true
    unfold Main.loop Main.holds
    dsimp only
    split_ifs <;> rfl
  case upSinhvien => exact ⟨rfl, rfl⟩
  case halt => trivial
  case exit => trivial
  all_goals
    dsimp only [Local.TurnAt, Main.call, Local.resume, Local.holds, Main.resume, Main.loop]
    first
    | rfl
    | split_ifs <;> rfl

theorem Sinhvien.holds_loop (v : Sinhvien) : v.loop.holds = true := by
  unfold Sinhvien.loop
  split_ifs <;> rfl

theorem Sinhvien.holds_afterStar (v : Sinhvien) : v.afterStar.holds = true := by
  unfold Sinhvien.afterStar
  split_ifs
  · rfl
  · exact Sinhvien.holds_loop _

theorem Sinhvien.holds_afterCh (v : Sinhvien) : v.afterCh.holds = true := by
  unfold Sinhvien.afterCh
  split_ifs
  · rfl
  · exact Sinhvien.holds_afterStar _

theorem Sinhvien.turnAt (v : Sinhvien) (r : Reply) : Local.TurnAt (.sinhvien v) r v.call := by
  obtain ⟨point, fSinhvien, fVoinuoc, fOutput, check, ch, size, fPointer, flag⟩ := v
  cases point
  case downStart => exact ⟨rfl, rfl, rfl⟩
  case downAgain => exact ⟨rfl, rfl, rfl⟩
  case upVoinuoc => exact ⟨rfl, rfl⟩
  case upMain => exact ⟨rfl, rfl⟩
  case upError => exact ⟨rfl, rfl⟩
  case exit => trivial
  case closeOutput => exact Sinhvien.holds_afterCh _
  case writeStar => exact Sinhvien.holds_afterStar _
  case readCh =>
    show Sinhvien.holds (if _ then _ else _) = true
    split_ifs
    · exact Sinhvien.holds_afterCh _
    · rfl
  case openVoinuoc =>
    show Sinhvien.holds (if _ then _ else _) = true
    split_ifs
    · rfl
    · exact Sinhvien.holds_loop _
  case openAgain =>
    show Sinhvien.holds (if _ then _ else _) = true
    split_ifs
    · rfl
    · exact Sinhvien.holds_loop _
  all_goals
    dsimp only [Local.TurnAt, Sinhvien.call, Local.resume, Local.holds, Sinhvien.resume]
    first
    | rfl
    | split_ifs <;> rfl

theorem Voinuoc.turnAt (v : Voinuoc) (r : Reply) : Local.TurnAt (.voinuoc v) r v.call := by
  obtain ⟨point, fVoinuoc, fOutput, ch, v1, v2, l, done⟩ := v
  cases point
  case down => exact ⟨rfl, rfl, rfl⟩
  case upSinhvien => exact ⟨rfl, rfl⟩
  case upError => exact ⟨rfl, rfl⟩
  case exit => trivial
  all_goals
    dsimp only [Local.TurnAt, Voinuoc.call, Local.resume, Local.holds, Voinuoc.resume, Voinuoc.pour,
      Voinuoc.afterTap]
    first
    | rfl
    | split_ifs <;> rfl

theorem Local.turnAt (l : Local) (r : Reply) : l.TurnAt r l.call := by
  cases l with
  | main m => exact m.turnAt r
  | sinhvien v => exact v.turnAt r
  | voinuoc v => exact v.turnAt r

/-- The programs that `main` has not started yet. -/
def Main.unstarted (m : Main) (q : Program) : Bool :=
  match m.point with
  | .createMain | .createSinhvien | .createVoinuoc | .openInput | .createOutput | .readN
  | .execSinhvien => q ≠ .main
  | .execVoinuoc => q = .voinuoc
  | _ => false

/-- `Exec` starts a program that was not started, and nothing else starts one. -/
theorem Main.unstarted_resume (m : Main) (r : Reply) (q : Program)
    (h : (m.resume r).unstarted q = true) : m.unstarted q = true ∧ m.call ≠ .exec q := by
  obtain ⟨point, fInput, fSinhvien, check, N, ch⟩ := m
  cases point
  case execSinhvien =>
    by_cases hr : r.value = -1
    · simp [Main.resume, Main.unstarted, hr] at h
    · have hq : q = .voinuoc := by simpa [Main.resume, Main.unstarted, hr] using h
      subst hq
      exact ⟨rfl, nofun⟩
  case execVoinuoc =>
    revert h
    dsimp only [Main.resume, Main.unstarted, Main.loop]
    split_ifs <;> exact nofun
  all_goals
    refine ⟨?_, nofun⟩
    revert h
    dsimp only [Main.resume, Main.unstarted, Main.loop]
    first
    | exact id
    | split_ifs <;> first | exact id | exact nofun

theorem Main.unstarted_of_exec {m : Main} {q : Program} (h : m.call = .exec q) :
    m.unstarted q = true ∧ q ≠ .main := by
  obtain ⟨point, fInput, fSinhvien, check, N, ch⟩ := m
  cases point <;> cases h <;> exact ⟨rfl, nofun⟩

/-! ## The invariant -/

/-- The sum over the three programs. -/
def Program.sum (f : Program → ℤ) : ℤ := f .main + f .sinhvien + f .voinuoc

theorem Program.sum_update (f : Program → ℤ) (p : Program) (v : ℤ) :
    Program.sum (Function.update f p v) = Program.sum f - f p + v := by
  cases p <;> simp only [Program.sum, Function.update_self, ne_eq, reduceCtorEq, not_false_eq_true,
    Function.update_of_ne] <;> omega

theorem Program.le_sum_self {f : Program → ℤ} (hf : ∀ p, 0 ≤ f p) (p : Program) :
    f p ≤ Program.sum f := by
  have h₁ := hf .main
  have h₂ := hf .sinhvien
  have h₃ := hf .voinuoc
  unfold Program.sum
  cases p <;> omega

theorem Program.le_sum {f : Program → ℤ} (hf : ∀ p, 0 ≤ f p) {p q : Program} (hpq : p ≠ q) :
    f p + f q ≤ Program.sum f := by
  have h₁ := hf .main
  have h₂ := hf .sinhvien
  have h₃ := hf .voinuoc
  unfold Program.sum
  cases p <;> cases q <;> first | exact absurd rfl hpq | omega

namespace Tap

def value (s : Tap) (p : Program) : ℤ := (s.sems p).value

/-- 1 if `p` has the turn. -/
def turn (s : Tap) (p : Program) : ℤ :=
  match s.locals p with
  | none => 0
  | some l => if l.holds then 1 else 0

/-- 1 if `p` is between the return of a `Down` and its next `Up`. -/
def inTurn (s : Tap) (p : Program) : ℤ := if s.between p then 1 else 0

structure TurnInv (s : Tap) : Prop where
  own : ∀ p l, s.locals p = some l → l.program = p
  one : Program.sum s.value + Program.sum s.turn = 1
  nonneg : ∀ p, 0 ≤ s.value p
  counted : ∀ p, s.value p = s.ups p - s.downs p
  /-- `main` has the turn from the start, before any `Down`. -/
  between : ∀ p, s.inTurn p = if p = .main ∧ s.mainUp = false then 0 else s.turn p
  first : s.mainUp = false → s.turn .main = 1
  unstarted : ∀ m q, s.locals .main = some (.main m) → m.unstarted q = true → s.locals q = none

variable {s s' : Tap} {p : Program} {l : Local} {r : Reply}

theorem turnInv_start : start.TurnInv := by
  refine ⟨?_, rfl, fun _ => le_rfl, fun _ => rfl, ?_, fun _ => rfl, ?_⟩
  · intro p l h
    cases p <;> cases h
    rfl
  · intro p
    cases p <;> rfl
  · intro m q h hq
    cases h
    cases q
    · cases hq
    · rfl
    · rfl

theorem turn_of_some (h : s.locals p = some l) : s.turn p = if l.holds then 1 else 0 := by
  unfold turn
  rw [h]

theorem turn_nonneg (s : Tap) (p : Program) : 0 ≤ s.turn p := by
  unfold turn
  split
  · exact le_rfl
  · split_ifs <;> decide

/-- What a step can be. -/
theorem step_cases (h : s.step (p, r) = some s') : s.halted = false ∧ ∃ l, s.locals p = some l ∧
    ((∃ x, l.call = .down x ∧ p.thread ∉ (s.sems x).queue ∧ s' = s.down p l x r) ∨
      (∃ x, l.call = .up x ∧ s' = s.up p l x r) ∨
      (∃ q, l.call = .exec q ∧ s' = (s.advance p l r).startProgram q) ∨
      s' = { s with halted := true } ∨
      ((l.resume r).holds = l.holds ∧ (∀ x, l.call ≠ .down x) ∧ s' = s.advance p l r)) := by
  obtain ⟨hh, h⟩ := Option.ite_none_left_eq_some.mp h
  have hh : s.halted = false := Bool.eq_false_iff.mpr hh
  cases hl : s.locals p with
  | none =>
    rw [hl] at h
    cases h
  | some l =>
    rw [hl] at h
    dsimp only at h
    have ht := l.turnAt r
    refine ⟨hh, l, rfl, ?_⟩
    cases hc : l.call with
    | down x =>
      rw [hc] at h
      dsimp only at h
      split_ifs at h with hq
      exact Or.inl ⟨x, rfl, hq, (Option.some.inj h).symm⟩
    | up x =>
      rw [hc] at h
      exact Or.inr (Or.inl ⟨x, rfl, (Option.some.inj h).symm⟩)
    | exec q =>
      rw [hc] at h ht
      have h := (Option.some.inj h).symm
      split_ifs at h with hr
      · exact Or.inr (Or.inr (Or.inr (Or.inr ⟨ht, nofun, h⟩)))
      · exact Or.inr (Or.inr (Or.inl ⟨q, rfl, h⟩))
    | halt =>
      rw [hc] at h
      exact Or.inr (Or.inr (Or.inr (Or.inl (Option.some.inj h).symm)))
    | exit =>
      rw [hc] at h
      dsimp only at h
      split_ifs at h
      exact Or.inr (Or.inr (Or.inr (Or.inl (Option.some.inj h).symm)))
    | _ =>
      rw [hc] at h ht
      exact Or.inr (Or.inr (Or.inr (Or.inr ⟨ht, nofun, (Option.some.inj h).symm⟩)))

/-- Only the turn of the program that goes on can change. -/
theorem turn_advance (s : Tap) (p : Program) (l : Local) (r : Reply) :
    (s.advance p l r).turn = Function.update s.turn p (if (l.resume r).holds then 1 else 0) := by
  funext q
  unfold turn advance
  dsimp only
  by_cases hq : q = p
  · subst hq
    rw [Function.update_self, Function.update_self]
  · rw [Function.update_of_ne hq, Function.update_of_ne hq]

theorem program_resume (l : Local) (r : Reply) : (l.resume r).program = l.program := by
  cases l <;> rfl

/-- A program that goes on is still itself, and `main` starts nothing but by `Exec`. -/
theorem TurnInv.advance_locals (h : s.TurnInv) (hl : s.locals p = some l) :
    (∀ q l', (s.advance p l r).locals q = some l' → l'.program = q) ∧
    (∀ m q, (s.advance p l r).locals .main = some (.main m) → m.unstarted q = true →
      (s.advance p l r).locals q = none ∧ l.call ≠ .exec q) := by
  have hp := h.own p l hl
  constructor
  · intro q l' hq
    have hq : Function.update s.locals p (some (l.resume r)) q = some l' := hq
    by_cases hqp : q = p
    · subst hqp
      rw [Function.update_self, Option.some.injEq] at hq
      rw [← hq, program_resume, hp]
    · rw [Function.update_of_ne hqp] at hq
      exact h.own q l' hq
  · intro m q hm hq
    have hm : Function.update s.locals p (some (l.resume r)) .main = some (.main m) := hm
    show Function.update s.locals p (some (l.resume r)) q = none ∧ _
    by_cases hpm : p = .main
    · subst hpm
      rw [Function.update_self, Option.some.injEq] at hm
      cases l with
      | main m₀ =>
        obtain rfl : m₀.resume r = m := Local.main.inj hm
        obtain ⟨h₀, hexec⟩ := m₀.unstarted_resume r q hq
        have hnone := h.unstarted m₀ q hl h₀
        have hne : q ≠ .main := by
          rintro rfl
          rw [hl] at hnone
          cases hnone
        rw [Function.update_of_ne hne]
        exact ⟨hnone, hexec⟩
      | sinhvien v => cases hp
      | voinuoc v => cases hp
    · rw [Function.update_of_ne (Ne.symm hpm)] at hm
      have hnone := h.unstarted m q hm hq
      have hne : q ≠ p := by
        rintro rfl
        rw [hl] at hnone
        cases hnone
      rw [Function.update_of_ne hne]
      refine ⟨hnone, ?_⟩
      -- only `main` makes an `Exec`
      cases l with
      | main m₀ => exact absurd hp.symm hpm
      | sinhvien v =>
        obtain ⟨point, _⟩ := v
        cases point <;> exact nofun
      | voinuoc v =>
        obtain ⟨point, _⟩ := v
        cases point <;> exact nofun

theorem TurnInv.advance (h : s.TurnInv) (hl : s.locals p = some l)
    (hs : (l.resume r).holds = l.holds) : (s.advance p l r).TurnInv := by
  obtain ⟨hown, hun⟩ := h.advance_locals (r := r) hl
  have hturn : (s.advance p l r).turn = s.turn := by
    rw [turn_advance, hs, ← turn_of_some hl, Function.update_eq_self]
  refine ⟨hown, ?_, h.nonneg, h.counted, ?_, ?_, fun m q hm hq => (hun m q hm hq).1⟩
  · rw [hturn]
    exact h.one
  · rw [hturn]
    exact h.between
  · rw [hturn]
    exact h.first

theorem TurnInv.sleep (h : s.TurnInv) {x : Program} (hv : (s.sems x).value = 0) :
    (s.sleep p x).TurnInv := by
  have hvalue : (s.sleep p x).value = s.value := by
    funext q
    show (Function.update s.sems x ((s.sems x).P p.thread).1 q).value = (s.sems q).value
    by_cases hq : q = x
    · subst hq
      rw [Function.update_self, Semaphore.P_zero hv]
    · rw [Function.update_of_ne hq]
  refine ⟨h.own, ?_, ?_, ?_, h.between, h.first, h.unstarted⟩
  · rw [hvalue]
    exact h.one
  · rw [hvalue]
    exact h.nonneg
  · rw [hvalue]
    exact h.counted

theorem value_update (sems : Program → Semaphore) (x : Program) (sem : Semaphore) (q : Program) :
    (Function.update sems x sem q).value =
      Function.update (fun q => (sems q).value) x sem.value q := by
  by_cases hq : q = x
  · subst hq
    rw [Function.update_self, Function.update_self]
  · rw [Function.update_of_ne hq, Function.update_of_ne hq]

theorem inTurn_update (between : Program → Bool) (p : Program) (b : Bool) (q : Program) :
    (if Function.update between p b q then (1 : ℤ) else 0) =
      Function.update (fun q => if between q then (1 : ℤ) else 0) p (if b then 1 else 0) q := by
  by_cases hq : q = p
  · subst hq
    rw [Function.update_self, Function.update_self]
  · rw [Function.update_of_ne hq, Function.update_of_ne hq]

/-- A unit goes from the semaphore to the program, or back to a semaphore: the turns and values
move by `d`. -/
theorem TurnInv.move (h : s.TurnInv) (hl : s.locals p = some l) {x : Program} {d : ℤ}
    {s' : Tap} (hlocals : s'.locals = (s.advance p l r).locals)
    (hvalue : s'.value = Function.update s.value x (s.value x + d))
    (hd : s.turn p - d = if (l.resume r).holds then 1 else 0) (hnn : 0 ≤ s.value x + d)
    (hbetween : s'.inTurn = Function.update s.inTurn p (s.turn p - d))
    (hcounted : ∀ q, s'.value q = s'.ups q - s'.downs q)
    (hp : p = .main → s'.mainUp = true)
    (hmain : p ≠ .main → s'.mainUp = s.mainUp) : s'.TurnInv := by
  obtain ⟨hown, hun⟩ := h.advance_locals (r := r) hl
  have hturn : s'.turn = Function.update s.turn p (s.turn p - d) := by
    rw [hd, ← turn_advance]
    funext q
    unfold turn
    rw [hlocals]
  refine ⟨fun q l' => hlocals ▸ hown q l', ?_, ?_, hcounted, ?_, ?_, ?_⟩
  · have := h.one
    rw [hvalue, hturn, Program.sum_update, Program.sum_update]
    omega
  · intro q
    rw [hvalue]
    by_cases hq : q = x
    · rw [hq, Function.update_self]
      exact hnn
    · rw [Function.update_of_ne hq]
      exact h.nonneg q
  · intro q
    rw [hbetween, hturn]
    by_cases hq : q = p
    · subst hq
      rw [Function.update_self, Function.update_self, if_neg]
      rintro ⟨hm, hno⟩
      rw [hp hm] at hno
      cases hno
    · rw [Function.update_of_ne hq, Function.update_of_ne hq, h.between q]
      by_cases hpm : p = .main
      · have hqm : q ≠ .main := fun e => hq (e.trans hpm.symm)
        rw [if_neg (fun hc => hqm hc.1), if_neg (fun hc => hqm hc.1)]
      · rw [hmain hpm]
  · intro hno
    have hpm : p ≠ .main := by
      intro hpm
      rw [hp hpm] at hno
      cases hno
    rw [hturn, Function.update_of_ne (Ne.symm hpm)]
    exact h.first (hmain hpm ▸ hno)
  · intro m q hm hq
    rw [hlocals] at hm ⊢
    exact (hun m q hm hq).1

theorem TurnInv.down (h : s.TurnInv) (hl : s.locals p = some l) {x : Program}
    (hc : l.call = .down x) : (s.down p l x r).TurnInv := by
  have ht := l.turnAt r
  rw [hc] at ht
  obtain ⟨-, hold, hnew⟩ := ht
  unfold Tap.down
  by_cases hv : (s.sems x).value = 0
  · rw [if_pos hv]
    exact h.sleep hv
  rw [if_neg hv]
  have hturn : s.turn p = 0 := by
    rw [turn_of_some hl, hold]
    rfl
  have hup : p = .main → s.mainUp = true := by
    rintro rfl
    by_contra hno
    have := h.first (Bool.eq_false_iff.mpr hno)
    omega
  have hnn : 0 ≤ (s.sems x).value := h.nonneg x
  have hvalue : (s.take p l x r).value = Function.update s.value x (s.value x + -1) := by
    funext q
    refine (value_update s.sems x _ q).trans ?_
    rw [Semaphore.P_pos hv, intPred_of_nonneg hnn]
    rfl
  refine h.move (x := x) (d := -1) hl rfl hvalue ?_ ?_ ?_ ?_ hup fun _ => rfl
  · rw [hturn, hnew]
    rfl
  · show 0 ≤ (s.sems x).value + -1
    omega
  · rw [hturn]
    funext q
    exact inTurn_update s.between p true q
  · intro q
    have hcount := h.counted q
    rw [hvalue]
    show _ = (s.ups q : ℤ) - (Function.update s.downs x (s.downs x + 1) q : ℕ)
    by_cases hq : q = x
    · subst hq
      rw [Function.update_self, Function.update_self]
      omega
    · rw [Function.update_of_ne hq, Function.update_of_ne hq]
      exact hcount

/-- While a program has the turn, all semaphores are 0. -/
theorem TurnInv.value_of_turn (h : s.TurnInv) (hturn : s.turn p = 1) (x : Program) :
    s.value x = 0 := by
  have hone := h.one
  have hx := Program.le_sum_self h.nonneg x
  have hp := Program.le_sum_self s.turn_nonneg p
  have hnn := h.nonneg x
  omega

theorem TurnInv.up (h : s.TurnInv) (hl : s.locals p = some l) {x : Program}
    (hc : l.call = .up x) : (s.up p l x r).TurnInv := by
  have ht := l.turnAt r
  rw [hc] at ht
  obtain ⟨hold, hnew⟩ := ht
  have hturn : s.turn p = 1 := by
    rw [turn_of_some hl, hold]
    rfl
  have hnn := h.nonneg x
  have hzero : s.value x = 0 := h.value_of_turn hturn x
  have hvalue : (s.up p l x r).value = Function.update s.value x (s.value x + 1) := by
    funext q
    refine (value_update s.sems x _ q).trans ?_
    rw [Semaphore.V_zero hzero, hzero]
    rfl
  refine h.move (x := x) (d := 1) hl rfl hvalue ?_ (by omega) ?_ ?_ ?_ ?_
  · rw [hturn, hnew]
    rfl
  · rw [hturn]
    funext q
    exact inTurn_update s.between p false q
  · intro q
    have hcount := h.counted q
    rw [hvalue]
    show _ = ((Function.update s.ups x (s.ups x + 1) q : ℕ) : ℤ) - s.downs q
    by_cases hq : q = x
    · subst hq
      rw [Function.update_self, Function.update_self]
      omega
    · rw [Function.update_of_ne hq, Function.update_of_ne hq]
      exact hcount
  · rintro rfl
    exact Bool.or_true _
  · intro hp
    show (s.mainUp || decide (p = .main)) = s.mainUp
    rw [decide_eq_false hp, Bool.or_false]

theorem TurnInv.exec (h : s.TurnInv) (hl : s.locals p = some l) {q : Program}
    (hc : l.call = .exec q) : ((s.advance p l r).startProgram q).TurnInv := by
  have hsame : (l.resume r).holds = l.holds := by
    have ht := l.turnAt r
    rwa [hc] at ht
  have hadv := h.advance hl hsame
  obtain ⟨-, hun⟩ := h.advance_locals (r := r) hl
  -- the program was not started
  have hnone : (s.advance p l r).locals q = none ∧ q ≠ .main := by
    have hown := h.own p l hl
    cases l with
    | main m =>
      obtain rfl : Program.main = p := hown
      obtain ⟨h₀, hne⟩ := Main.unstarted_of_exec hc
      refine ⟨?_, hne⟩
      show Function.update s.locals .main _ q = none
      rw [Function.update_of_ne hne]
      exact h.unstarted m q hl h₀
    | sinhvien v =>
      obtain ⟨point, _⟩ := v
      cases point <;> cases hc
    | voinuoc v =>
      obtain ⟨point, _⟩ := v
      cases point <;> cases hc
  obtain ⟨hnone, hne⟩ := hnone
  have hturn : ((s.advance p l r).startProgram q).turn = (s.advance p l r).turn := by
    funext q'
    unfold turn startProgram
    dsimp only
    by_cases hq : q' = q
    · subst hq
      rw [Function.update_self, hnone]
      cases q'
      · exact absurd rfl hne
      · rfl
      · rfl
    · rw [Function.update_of_ne hq]
  refine ⟨?_, ?_, hadv.nonneg, hadv.counted, ?_, ?_, ?_⟩
  · intro q' l' hq'
    have hq' : Function.update (s.advance p l r).locals q (some (.start q)) q' = some l' := hq'
    by_cases hq : q' = q
    · subst hq
      rw [Function.update_self, Option.some.injEq] at hq'
      subst hq'
      cases q' <;> rfl
    · rw [Function.update_of_ne hq] at hq'
      exact hadv.own q' l' hq'
  · rw [hturn]
    exact hadv.one
  · rw [hturn]
    exact hadv.between
  · rw [hturn]
    exact hadv.first
  · intro m q' hm hq'
    have hm : Function.update (s.advance p l r).locals q (some (.start q)) .main = some (.main m) := hm
    rw [Function.update_of_ne (Ne.symm hne)] at hm
    obtain ⟨hnone', hexec⟩ := hun m q' hm hq'
    show Function.update (s.advance p l r).locals q (some (.start q)) q' = none
    rw [Function.update_of_ne]
    · exact hnone'
    · rintro rfl
      exact hexec hc

theorem TurnInv.step (h : s.TurnInv) {a : Program × Reply} (hs : s.step a = some s') :
    s'.TurnInv := by
  obtain ⟨p, r⟩ := a
  obtain ⟨-, l, hl, ⟨x, hc, -, rfl⟩ | ⟨x, hc, rfl⟩ | ⟨q, hc, rfl⟩ | rfl | ⟨hsame, -, rfl⟩⟩ :=
    step_cases hs
  · exact h.down hl hc
  · exact h.up hl hc
  · exact h.exec hl hc
  · exact ⟨h.own, h.one, h.nonneg, h.counted, h.between, h.first, h.unstarted⟩
  · exact h.advance hl hsame

theorem turnInv_of_reach (h : Run.Reach step (· = start) s) : s.TurnInv := by
  refine h.inv TurnInv ?_ fun _ _ _ hi hs => hi.step hs
  rintro _ rfl
  exact turnInv_start

end Tap

/-! ## Access to the files -/

/-- Calls that create, open, close, read, write or move in a file. -/
def UserCall.onFile : UserCall → Bool
  | .create _ | .openFile _ _ | .close _ | .read _ | .write _ _ | .seek _ _ => true
  | _ => false

/-- A program accesses files only while it has the turn. -/
theorem Local.holds_of_onFile {l : Local} (h : l.call.onFile = true) : l.holds = true := by
  cases l with
  | main m =>
    obtain ⟨point, _⟩ := m
    cases point <;> first | rfl | cases h
  | sinhvien v =>
    obtain ⟨point, _⟩ := v
    cases point <;> first | rfl | cases h
  | voinuoc v =>
    obtain ⟨point, _⟩ := v
    cases point <;> first | rfl | cases h

/-- In every interleaving, from the first `Up` of `main` on: the values of the semaphores and the
programs between the return of a `Down` and their next `Up` are one in all. No two programs ever
access files at the same time, and each unit given by an `Up` is in its semaphore until a `Down`
takes it. -/
theorem turns_are_taken {s : Tap} (h : Run.Reach Tap.step (· = Tap.start) s) :
    (s.mainUp = true → Program.sum s.value + Program.sum s.inTurn = 1) ∧
    (∀ p q l l', s.locals p = some l → s.locals q = some l' → l.call.onFile = true →
      l'.call.onFile = true → p = q) ∧
    ∀ x, s.value x = s.ups x - s.downs x ∧ 0 ≤ s.value x := by
  have hi := Tap.turnInv_of_reach h
  refine ⟨?_, ?_, fun x => ⟨hi.counted x, hi.nonneg x⟩⟩
  · intro hup
    have hin : s.inTurn = s.turn := by
      funext p
      rw [hi.between p, if_neg]
      rintro ⟨-, hno⟩
      rw [hup] at hno
      cases hno
    rw [hin]
    exact hi.one
  · intro p q l l' hl hl' hf hg
    by_contra hpq
    have hp : s.turn p = 1 := by
      rw [Tap.turn_of_some hl, Local.holds_of_onFile hf]
      rfl
    have hq : s.turn q = 1 := by
      rw [Tap.turn_of_some hl', Local.holds_of_onFile hg]
      rfl
    have hturns := Program.le_sum s.turn_nonneg hpq
    have hvalues : 0 ≤ Program.sum s.value := by
      have h₁ := hi.nonneg .main
      have h₂ := hi.nonneg .sinhvien
      have h₃ := hi.nonneg .voinuoc
      unfold Program.sum
      omega
    have := hi.one
    omega

/-- `main` reads one line that is empty, `sinhvien` gets the turn. -/
theorem turns_are_taken_once : ∃ s : Tap, Run.Reach Tap.step (· = Tap.start) s ∧
    s.mainUp = true ∧ s.inTurn .sinhvien = 1 ∧ Program.sum s.value + Program.sum s.inTurn = 1 := by
  let call (p : Program) (value : ℤ) : Program × Reply := (p, { value := value, ch := none })
  let read (ch : Byte) : Program × Reply := (.main, { value := 1, ch := some ch })
  let ls : List (Program × Reply) := [call .main 0, call .main 0, call .main 0, call .main 2,
    call .main 0, read 0x31, read 0x0A, call .main 1, call .sinhvien 0, call .main 2, call .main 0,
    call .main 3, read 0x0A, call .main 0, call .main 0, call .main 0, call .sinhvien 0]
  have hrun : (Run.exec Tap.step Tap.start ls).any
      (fun s => s.mainUp && decide (s.inTurn .sinhvien = 1)) = true := by
    decide +kernel
  obtain ⟨s, hs, hrun⟩ := (Option.any_eq_true _ _).mp hrun
  obtain ⟨hup, hin⟩ := Bool.and_eq_true_iff.mp hrun
  have hreach : Run.Reach Tap.step (· = Tap.start) s := ⟨_, ls, rfl, hs⟩
  exact ⟨s, hreach, hup, of_decide_eq_true hin, (turns_are_taken hreach).1 hup⟩

end Nachos.Test
