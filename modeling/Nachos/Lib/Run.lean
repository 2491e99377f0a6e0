import Mathlib.Logic.Basic
import Mathlib.Data.List.Basic

/-!
# Runs of a labelled step function

A system is a partial step function `step : S → L → Option S`: `step s l` is the state after the
step labelled `l`, or `none` where that step is not possible. A run is a list of labels.
`exec_inv` is the induction every safety proof uses: a property that each admitted step preserves
holds in the last state of every run whose steps are all admitted.

`exec_refines` is the rule for a system that does what a simpler one, a total function on states,
says.

A system may keep a list of what happened. `Justified` says that each entry was in order when it
was made, given the entries before it.
-/

namespace Run

variable {S L : Type*} (step : S → L → Option S)

/-- The state after the steps `ls`, if all of them are possible. -/
def exec : S → List L → Option S
  | s, [] => some s
  | s, l :: ls => (step s l).bind fun s' => exec s' ls

/-- Every step of the run `ls` from `s` is admitted by `ok`. -/
def Admits (ok : S → L → Prop) : S → List L → Prop
  | _, [] => True
  | s, l :: ls => ok s l ∧ ∀ s', step s l = some s' → Admits ok s' ls

/-- `s` is the last state of a run from an initial state. -/
def Reach (init : S → Prop) (s : S) : Prop := ∃ s₀ ls, init s₀ ∧ exec step s₀ ls = some s

/-- `s` is the last state of a run of admitted steps from an initial state. -/
def ReachBy (ok : S → L → Prop) (init : S → Prop) (s : S) : Prop :=
  ∃ s₀ ls, init s₀ ∧ Admits step ok s₀ ls ∧ exec step s₀ ls = some s

variable {step}

@[simp] theorem exec_nil (s : S) : exec step s [] = some s := rfl

theorem exec_cons (s : S) (l : L) (ls : List L) :
    exec step s (l :: ls) = (step s l).bind fun s' => exec step s' ls := rfl

theorem exec_cons_eq_some {s s' : S} {l : L} {ls : List L} :
    exec step s (l :: ls) = some s' ↔ ∃ s₁, step s l = some s₁ ∧ exec step s₁ ls = some s' := by
  rw [exec_cons, Option.bind_eq_some_iff]

theorem exec_append {s s' : S} {ls ms : List L} :
    exec step s (ls ++ ms) = some s' ↔
      ∃ s₁, exec step s ls = some s₁ ∧ exec step s₁ ms = some s' := by
  induction ls generalizing s with
  | nil => simp
  | cons l ls ih =>
    simp only [List.cons_append, exec_cons_eq_some, ih]
    constructor
    · rintro ⟨s₁, h₁, s₂, h₂, h₃⟩; exact ⟨s₂, ⟨s₁, h₁, h₂⟩, h₃⟩
    · rintro ⟨s₂, ⟨s₁, h₁, h₂⟩, h₃⟩; exact ⟨s₁, h₁, s₂, h₂, h₃⟩

theorem exec_concat {s s' : S} {ls : List L} {l : L} :
    exec step s (ls ++ [l]) = some s' ↔
      ∃ s₁, exec step s ls = some s₁ ∧ step s₁ l = some s' := by
  rw [exec_append]
  simp only [exec_cons_eq_some, exec_nil, Option.some.injEq, exists_eq_right]

/-- A property that every admitted step preserves holds along every admitted run. -/
theorem exec_inv {Inv : S → Prop} {ok : S → L → Prop}
    (hstep : ∀ s l s', Inv s → ok s l → step s l = some s' → Inv s') :
    ∀ (ls : List L) (s s' : S), Inv s → Admits step ok s ls → exec step s ls = some s' → Inv s' := by
  intro ls
  induction ls with
  | nil =>
    intro s s' hi _ h
    rw [exec_nil, Option.some.injEq] at h
    exact h ▸ hi
  | cons l ls ih =>
    intro s s' hi ha h
    obtain ⟨s₁, h₁, h₂⟩ := exec_cons_eq_some.mp h
    exact ih s₁ s' (hstep s l s₁ hi ha.1 h₁) (ha.2 s₁ h₁) h₂

/-- `Admits`, computed. -/
def admitted (step : S → L → Option S) (ok : S → L → Prop) [∀ s l, Decidable (ok s l)] :
    S → List L → Bool
  | _, [] => true
  | s, l :: ls => decide (ok s l) && (step s l).all fun s' => admitted step ok s' ls

theorem admits_of_admitted {ok : S → L → Prop} [∀ s l, Decidable (ok s l)] {s : S} {ls : List L}
    (h : admitted step ok s ls = true) : Admits step ok s ls := by
  induction ls generalizing s with
  | nil => trivial
  | cons l ls ih =>
    obtain ⟨h₁, h₂⟩ := (Bool.and_eq_true_iff).mp h
    refine ⟨of_decide_eq_true h₁, fun s' hs => ih ?_⟩
    rwa [hs] at h₂

/-- Labels that every state admits. -/
theorem admits_of_mem {ok : S → L → Prop} {ls : List L} (h : ∀ l ∈ ls, ∀ s, ok s l) (s : S) :
    Admits step ok s ls := by
  induction ls generalizing s with
  | nil => trivial
  | cons l ls ih =>
    exact ⟨h l List.mem_cons_self s, fun s' _ =>
      ih (fun l' hl' => h l' (List.mem_cons_of_mem l hl')) s'⟩

/-- A condition on the labels alone. -/
theorem admits_of_forall {ok : L → Prop} {ls : List L} (h : ∀ l ∈ ls, ok l) (s : S) :
    Admits step (fun _ l => ok l) s ls :=
  admits_of_mem (fun l hl _ => h l hl) s

theorem admits_true (s : S) (ls : List L) : Admits step (fun _ _ => True) s ls :=
  admits_of_forall (fun _ _ => trivial) s

theorem Reach.reachBy {init : S → Prop} {s : S} (h : Reach step init s) :
    ReachBy step (fun _ _ => True) init s := by
  obtain ⟨s₀, ls, h₀, h⟩ := h
  exact ⟨s₀, ls, h₀, admits_true s₀ ls, h⟩

/-- A property of the initial states that every admitted step preserves holds in every state
reached by admitted steps. -/
theorem ReachBy.inv (Inv : S → Prop) {ok : S → L → Prop} {init : S → Prop}
    (h₀ : ∀ s, init s → Inv s)
    (hstep : ∀ s l s', Inv s → ok s l → step s l = some s' → Inv s') {s : S}
    (h : ReachBy step ok init s) : Inv s := by
  obtain ⟨s₀, ls, hi, ha, he⟩ := h
  exact exec_inv hstep ls s₀ s (h₀ s₀ hi) ha he

/-- The same without a condition on the steps. -/
theorem Reach.inv (Inv : S → Prop) {init : S → Prop} (h₀ : ∀ s, init s → Inv s)
    (hstep : ∀ s l s', Inv s → step s l = some s' → Inv s') {s : S}
    (h : Reach step init s) : Inv s :=
  h.reachBy.inv Inv h₀ fun s l s' hi _ hs => hstep s l s' hi hs

theorem Reach.snoc {init : S → Prop} {s s' : S} {l : L} (h : Reach step init s)
    (hs : step s l = some s') : Reach step init s' := by
  obtain ⟨s₀, ls, h₀, he⟩ := h
  exact ⟨s₀, ls ++ [l], h₀, exec_concat.mpr ⟨s, he, hs⟩⟩

theorem Admits.concat {ok : S → L → Prop} {s s' : S} {ls : List L} {l : L}
    (ha : Admits step ok s ls) (he : exec step s ls = some s') (hl : ok s' l) :
    Admits step ok s (ls ++ [l]) := by
  induction ls generalizing s with
  | nil =>
    rw [exec_nil, Option.some.injEq] at he
    subst he
    exact ⟨hl, fun _ _ => trivial⟩
  | cons a ls ih =>
    obtain ⟨s₁, h₁, h₂⟩ := exec_cons_eq_some.mp he
    refine ⟨ha.1, fun s₂ hs => ?_⟩
    obtain rfl : s₁ = s₂ := Option.some.inj (h₁.symm.trans hs)
    exact ih (ha.2 s₁ h₁) h₂

theorem Admits.of_concat {ok : S → L → Prop} {s : S} {ls : List L} {l : L}
    (ha : Admits step ok s (ls ++ [l])) :
    Admits step ok s ls ∧ ∀ s', exec step s ls = some s' → ok s' l := by
  induction ls generalizing s with
  | nil =>
    refine ⟨trivial, fun s' he => ?_⟩
    obtain rfl := Option.some.inj he
    exact ha.1
  | cons a ls ih =>
    refine ⟨⟨ha.1, fun s₁ h₁ => (ih (ha.2 s₁ h₁)).1⟩, fun s' he => ?_⟩
    obtain ⟨s₁, h₁, h₂⟩ := exec_cons_eq_some.mp he
    exact (ih (ha.2 s₁ h₁)).2 s' h₂

/-- An admitted run, by its prefixes. -/
theorem admits_iff {ok : S → L → Prop} {s : S} {ls : List L} :
    Admits step ok s ls ↔
      ∀ pre l s', pre ++ [l] <+: ls → exec step s pre = some s' → ok s' l := by
  induction ls generalizing s with
  | nil => exact iff_of_true trivial fun pre l s' hp => absurd (List.prefix_nil.mp hp) (by simp)
  | cons a ls ih =>
    constructor
    · rintro ⟨ha, hrest⟩ pre l s' hp he
      cases pre with
      | nil =>
        obtain ⟨rfl, -⟩ := List.cons_prefix_cons.mp hp
        obtain rfl := Option.some.inj he
        exact ha
      | cons b pre =>
        obtain ⟨rfl, hp'⟩ := List.cons_prefix_cons.mp hp
        obtain ⟨s₁, h₁, h₂⟩ := exec_cons_eq_some.mp he
        exact ih.mp (hrest s₁ h₁) pre l s' hp' h₂
    · intro hall
      refine ⟨hall [] a s (List.prefix_append [a] ls) rfl, fun s₁ h₁ => ih.mpr ?_⟩
      intro pre l s' hp he
      exact hall (a :: pre) l s' (List.cons_prefix_cons.mpr ⟨rfl, hp⟩)
        (exec_cons_eq_some.mpr ⟨s₁, h₁, he⟩)

/-- In reachable states a stronger condition will do. -/
theorem Admits.imp_of_reach {ok ok' : S → L → Prop} {init : S → Prop}
    (himp : ∀ s l, Reach step init s → ok s l → ok' s l) {s : S} {ls : List L}
    (hr : Reach step init s) (ha : Admits step ok s ls) : Admits step ok' s ls := by
  induction ls generalizing s with
  | nil => trivial
  | cons l ls ih => exact ⟨himp s l hr ha.1, fun s' hs => ih (hr.snoc hs) (ha.2 s' hs)⟩

theorem ReachBy.snoc {ok : S → L → Prop} {init : S → Prop} {s s' : S} {l : L}
    (h : ReachBy step ok init s) (hl : ok s l) (hs : step s l = some s') :
    ReachBy step ok init s' := by
  obtain ⟨s₀, ls, h₀, ha, he⟩ := h
  exact ⟨s₀, ls ++ [l], h₀, ha.concat he hl, exec_concat.mpr ⟨s, he, hs⟩⟩

theorem ReachBy.exec {ok : S → L → Prop} {init : S → Prop} {s s' : S} {ls : List L}
    (h : ReachBy step ok init s) (ha : Admits step ok s ls) (he : exec step s ls = some s') :
    ReachBy step ok init s' := by
  induction ls generalizing s with
  | nil =>
    rw [exec_nil, Option.some.injEq] at he
    exact he ▸ h
  | cons l ls ih =>
    obtain ⟨s₁, h₁, h₂⟩ := exec_cons_eq_some.mp he
    exact ih (h.snoc ha.1 h₁) (ha.2 s₁ h₁) h₂

/-! ## Refinement -/

/-- A system refines a total one: where the two are related, every admitted step is possible and
leads to related states. The relation may use the number of steps to come. -/
theorem exec_refines {A : Type*} {R : ℕ → S → A → Prop} {next : A → L → A} {ok : S → L → Prop}
    (hstep : ∀ n s a l, R (n + 1) s a → ok s l → ∃ s', step s l = some s' ∧ R n s' (next a l)) :
    ∀ (ls : List L) (s : S) (a : A), R ls.length s a → Admits step ok s ls →
      ∃ s', exec step s ls = some s' ∧ R 0 s' (ls.foldl next a) := by
  intro ls
  induction ls with
  | nil => intro s a hr _; exact ⟨s, rfl, hr⟩
  | cons l ls ih =>
    intro s a hr ha
    obtain ⟨s₁, h₁, hr₁⟩ := hstep ls.length s a l hr ha.1
    obtain ⟨s', he, hr'⟩ := ih s₁ (next a l) hr₁ (ha.2 s₁ h₁)
    exact ⟨s', exec_cons_eq_some.mpr ⟨s₁, h₁, he⟩, hr'⟩

/-! ## Histories -/

variable {E : Type*}

/-- Each entry of the history fits the entries before it. -/
def Justified (fits : List E → E → Prop) (log : List E) : Prop :=
  ∀ past e rest, log = past ++ e :: rest → fits past e

theorem justified_nil (fits : List E → E → Prop) : Justified fits [] := by
  intro past e rest h
  cases past <;> cases h

theorem Justified.concat {fits : List E → E → Prop} {log : List E} {e : E}
    (h : Justified fits log) (he : fits log e) : Justified fits (log ++ [e]) := by
  intro past e' rest heq
  rcases List.eq_nil_or_concat rest with rfl | ⟨rest, e'', rfl⟩
  · obtain ⟨rfl, hee⟩ := List.append_inj' heq rfl
    rw [List.cons.injEq] at hee
    exact hee.1 ▸ he
  · rw [List.concat_eq_append, ← List.cons_append, ← List.append_assoc] at heq
    exact h past e' rest (List.append_inj' heq rfl).1

/-- Entries that fit every history. -/
theorem Justified.append {fits : List E → E → Prop} {log es : List E} (h : Justified fits log)
    (hes : ∀ e ∈ es, ∀ past, fits past e) : Justified fits (log ++ es) := by
  induction es generalizing log with
  | nil => rwa [List.append_nil]
  | cons e es ih =>
    rw [List.append_cons]
    exact ih (h.concat (hes e List.mem_cons_self log)) fun e' he' =>
      hes e' (List.mem_cons_of_mem e he')

theorem Justified.of_mem {fits : List E → E → Prop} {log : List E} (h : Justified fits log)
    {e : E} (he : e ∈ log) : ∃ past, (∀ x ∈ past, x ∈ log) ∧ fits past e := by
  obtain ⟨past, rest, rfl⟩ := List.append_of_mem he
  exact ⟨past, fun x hx => List.mem_append_left _ hx, h past e rest rfl⟩

end Run
