import Mathlib.Logic.Basic

/-!
# Programs that wait for their surroundings

A program runs on a state. It ends with a result, is stopped for good, or waits: it hands the state
over together with a call, and goes on with a reply to the call and the state it finds then. Which
replies and states are possible is a relation `serves` of the surroundings.

`Returns` says which results a program can end with. `All` is the rule for proofs about all of them:
it goes through a sequence of programs with `all_bind`. `Avoids` says that a program is never stopped
in a given way, and has such a rule too. `Within` is the rule for what a program does
to the state before it first waits, as a relation that is reflexive and transitive.
-/

/-- What a program does from a given state. -/
inductive Prog.Res (S : Type) {C : Type} (R : C → Type) (D α : Type) where
  | done (a : α) (s : S)
  | stop (d : D)
  | wait (c : C) (s : S) (resume : R c → S → Prog.Res S R D α)

/-- A program with states `S`, calls with replies `R`, and the ways to stop `D`. -/
structure Prog (S : Type) {C : Type} (R : C → Type) (D α : Type) where
  run : S → Prog.Res S R D α

namespace Prog

variable {S C D : Type} {R : C → Type} {α β : Type}

@[ext] theorem ext {x y : Prog S R D α} (h : ∀ s, x.run s = y.run s) : x = y :=
  congrArg Prog.mk (funext h)

def Res.bind : Res S R D α → (α → S → Res S R D β) → Res S R D β
  | .done a s, f => f a s
  | .stop d, _ => .stop d
  | .wait c s resume, f => .wait c s fun r s' => (resume r s').bind f

instance : Monad (Prog S R D) where
  pure a := ⟨fun s => .done a s⟩
  bind x f := ⟨fun s => (x.run s).bind fun a s' => (f a).run s'⟩

/-- Stop for good. -/
def stop (d : D) : Prog S R D α := ⟨fun _ => .stop d⟩

/-- Wait for a reply. -/
def call (c : C) : Prog S R D (R c) := ⟨fun s => .wait c s fun r s' => .done r s'⟩

/-- Look at the state. -/
def look (f : S → α) : Prog S R D α := ⟨fun s => .done (f s) s⟩

/-- Change the state. -/
def change (f : S → S) : Prog S R D Unit := ⟨fun s => .done () (f s)⟩

@[simp] theorem run_pure (a : α) (s : S) : (pure a : Prog S R D α).run s = .done a s := rfl
@[simp] theorem run_bind (x : Prog S R D α) (f : α → Prog S R D β) (s : S) :
    (x >>= f).run s = (x.run s).bind fun a s' => (f a).run s' := rfl
@[simp] theorem run_stop (d : D) (s : S) : (stop d : Prog S R D α).run s = .stop d := rfl
@[simp] theorem run_call (c : C) (s : S) :
    (call c : Prog S R D (R c)).run s = .wait c s fun r s' => .done r s' := rfl
@[simp] theorem run_look (f : S → α) (s : S) :
    (look f : Prog S R D α).run s = .done (f s) s := rfl
@[simp] theorem run_change (f : S → S) (s : S) :
    (change f : Prog S R D Unit).run s = .done () (f s) := rfl
@[simp] theorem run_ite (c : Prop) [Decidable c] (x y : Prog S R D α) (s : S) :
    (if c then x else y).run s = if c then x.run s else y.run s := by
  split <;> rfl

@[simp] theorem Res.bind_done (a : α) (s : S) (f : α → S → Res S R D β) :
    (Res.done a s).bind f = f a s := rfl
@[simp] theorem Res.bind_stop (d : D) (f : α → S → Res S R D β) :
    (Res.stop d : Res S R D α).bind f = .stop d := rfl
@[simp] theorem Res.bind_wait (c : C) (s : S) (resume : R c → S → Res S R D α)
    (f : α → S → Res S R D β) :
    (Res.wait c s resume).bind f = .wait c s fun r s' => (resume r s').bind f := rfl

/-- The state that the program hands over when it first waits, or ends with. -/
def Res.reached : Res S R D α → Option S
  | .done _ s => some s
  | .stop _ => none
  | .wait _ s _ => some s

section Within

variable {rel : S → S → Prop} {x : Prog S R D α} {f : α → Prog S R D β}

/-- Up to its first wait the program changes the state within `rel`. -/
def Within (rel : S → S → Prop) (x : Prog S R D α) : Prop :=
  ∀ s s', (x.run s).reached = some s' → rel s s'

theorem within_of_eq (hrefl : ∀ s, rel s s) (h : ∀ s s', (x.run s).reached = some s' → s' = s) :
    Within rel x := by
  intro s s' hs
  rw [h s s' hs]
  exact hrefl s

theorem within_pure (hrefl : ∀ s, rel s s) (a : α) : Within rel (pure a : Prog S R D α) :=
  within_of_eq hrefl fun _ _ h => (Option.some.inj h).symm

theorem within_look (hrefl : ∀ s, rel s s) (g : S → α) : Within rel (look g : Prog S R D α) :=
  within_of_eq hrefl fun _ _ h => (Option.some.inj h).symm

theorem within_stop (d : D) : Within rel (stop d : Prog S R D α) := fun _ _ h => nomatch h

theorem within_change {g : S → S} (h : ∀ s, rel s (g s)) :
    Within rel (change g : Prog S R D Unit) := by
  rintro s _ ⟨⟩
  exact h s

/-- The rule for sequences. -/
theorem Within.bind (htrans : ∀ s₁ s₂ s₃, rel s₁ s₂ → rel s₂ s₃ → rel s₁ s₃) (hx : Within rel x)
    (hf : ∀ a, Within rel (f a)) : Within rel (x >>= f) := by
  intro s s' h
  rw [run_bind] at h
  have hx := hx s
  cases hr : x.run s with
  | done a s₁ =>
    rw [hr] at h hx
    exact htrans s s₁ s' (hx s₁ rfl) (hf a s₁ s' h)
  | stop d =>
    rw [hr] at h
    cases h
  | wait c s₁ resume =>
    rw [hr] at h hx
    exact hx s' h

end Within

section Surroundings

variable (serves : (c : C) → S → R c → S → Prop)

/-- The program can end with the result `a` in the state `s`. -/
inductive Returns : Res S R D α → α → S → Prop
  | done (a : α) (s : S) : Returns (.done a s) a s
  | wait {c : C} {s s' s'' : S} {resume : R c → S → Res S R D α} {r : R c} {a : α}
      (hr : serves c s r s') (h : Returns (resume r s') a s'') :
      Returns (.wait c s resume) a s''

/-- Every result the program can end with has the property `P`. -/
def All (P : α → S → Prop) : Res S R D α → Prop
  | .done a s => P a s
  | .stop _ => True
  | .wait c s resume => ∀ r s', serves c s r s' → All P (resume r s')

variable {serves} {P : α → S → Prop}

@[simp] theorem all_done (a : α) (s : S) :
    All serves P (.done a s : Res S R D α) ↔ P a s := Iff.rfl
@[simp] theorem all_stop (d : D) : All serves P (.stop d : Res S R D α) ↔ True := Iff.rfl

theorem all_iff_returns {r : Res S R D α} :
    All serves P r ↔ ∀ a s, Returns serves r a s → P a s := by
  induction r with
  | done a s =>
    constructor
    · rintro h _ _ ⟨⟩; exact h
    · intro h; exact h a s (.done a s)
  | stop d => exact ⟨fun _ _ _ h => (nomatch h), fun _ => trivial⟩
  | wait c s resume ih =>
    constructor
    · rintro h a s' (_ | ⟨hr, hs⟩)
      exact (ih _ _).mp (h _ _ hr) a s' hs
    · intro h r s' hr
      exact (ih r s').mpr fun a s'' hs => h a s'' (.wait hr hs)

/-- The rule for sequences. -/
theorem all_bind {Q : β → S → Prop} {r : Res S R D α} {f : α → S → Res S R D β} :
    All serves Q (r.bind f) ↔ All serves (fun a s => All serves Q (f a s)) r := by
  induction r with
  | done a s => exact Iff.rfl
  | stop d => exact Iff.rfl
  | wait c s resume ih =>
    refine forall_congr' fun r => forall_congr' fun s' => ?_
    exact imp_congr_right fun _ => ih r s'

theorem All.mono {Q : α → S → Prop} {r : Res S R D α} (h : All serves P r)
    (hpq : ∀ a s, P a s → Q a s) : All serves Q r :=
  all_iff_returns.mpr fun a s hr => hpq a s (all_iff_returns.mp h a s hr)

theorem Returns.bind {r : Res S R D α} {f : α → S → Res S R D β} {a : α} {b : β} {s s' : S}
    (h : Returns serves r a s) (hf : Returns serves (f a s) b s') :
    Returns serves (r.bind f) b s' := by
  induction h with
  | done => exact hf
  | wait hr _ ih => exact .wait hr (ih hf)

/-- Two ways to go on are the same when they agree on the results that there are. -/
theorem Res.bind_congr {r : Res S R D α} {f g : α → S → Res S R D β}
    (hr : All (fun _ _ _ _ => True) P r) (h : ∀ a s, P a s → f a s = g a s) :
    r.bind f = r.bind g := by
  induction r with
  | done a s => exact h a s hr
  | stop d => rfl
  | wait c s resume ih =>
    refine congrArg (Res.wait c s) (funext fun a => funext fun s' => ?_)
    exact ih a s' (hr a s' trivial)

variable (serves) in
/-- Whatever the surroundings do, the program is not stopped by `d`. -/
def Avoids (d : D) : Res S R D α → Prop
  | .done _ _ => True
  | .stop d' => d' ≠ d
  | .wait c s resume => ∀ r s', serves c s r s' → Avoids d (resume r s')

variable {d : D}

@[simp] theorem avoids_done (a : α) (s : S) :
    Avoids serves d (.done a s : Res S R D α) ↔ True := Iff.rfl
@[simp] theorem avoids_stop (d' : D) :
    Avoids serves d (.stop d' : Res S R D α) ↔ d' ≠ d := Iff.rfl

/-- The rule for sequences. -/
theorem avoids_bind {r : Res S R D α} {f : α → S → Res S R D β} :
    Avoids serves d (r.bind f) ↔
      Avoids serves d r ∧ All serves (fun a s => Avoids serves d (f a s)) r := by
  induction r with
  | done a s => exact (iff_of_eq (true_and _)).symm
  | stop d' => exact (iff_of_eq (and_true _)).symm
  | wait c s resume ih =>
    constructor
    · intro h
      exact ⟨fun r s' hr => ((ih r s').mp (h r s' hr)).1,
        fun r s' hr => ((ih r s').mp (h r s' hr)).2⟩
    · rintro ⟨h₁, h₂⟩ r s' hr
      exact (ih r s').mpr ⟨h₁ r s' hr, h₂ r s' hr⟩

end Surroundings

end Prog
