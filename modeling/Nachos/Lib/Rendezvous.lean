import Mathlib.Data.Int.Basic

/-!
# Handing over a value with two semaphores

One party, the leaver, has a value to hand over and may be destroyed afterwards; the other, the
joiner, asks for it. The leaver stores the value, signals `joinsem`, waits on `exitsem` and is
freed. The joiner waits on `joinsem`, reads the value and signals `exitsem`. Both semaphores start
at 0. A party that finds 0 goes to sleep until the other one signals, and then tests again.

`Inv` lists the pairs of places the two can be in, with the values of the semaphores there.
-/

namespace Rendezvous

inductive Joiner (α : Type*) where
  /-- It has not asked. -/
  | away
  | calling
  /-- Waiting on `joinsem`, awake or asleep. -/
  | waiting
  | asleep
  | reading
  | answered (v : α)

inductive Leaver where
  | working
  | leaving
  /-- Waiting on `exitsem`, awake or asleep. -/
  | waiting
  | asleep
  | freeing
  | freed
  deriving DecidableEq

variable {α : Type*}

def Joiner.wake : Joiner α → Joiner α
  | .asleep => .waiting
  | j => j

def Leaver.wake : Leaver → Leaver
  | .asleep => .waiting
  | l => l

structure State (α : Type*) where
  joiner : Joiner α
  leaver : Leaver
  joinsem : ℤ
  exitsem : ℤ
  value : α

/-- Nobody has asked, and nobody has left. -/
def start (v : α) : State α where
  joiner := .away
  leaver := .working
  joinsem := 0
  exitsem := 0
  value := v

inductive Step : State α → State α → Prop
  | call {m : State α} (h : m.joiner = .away) : Step m { m with joiner := .calling }
  | arrive {m : State α} (h : m.joiner = .calling) : Step m { m with joiner := .waiting }
  | joinSleep {m : State α} (h : m.joiner = .waiting) (hv : m.joinsem = 0) :
      Step m { m with joiner := .asleep }
  | joinTake {m : State α} (h : m.joiner = .waiting) (hv : m.joinsem ≠ 0) :
      Step m { m with joiner := .reading, joinsem := m.joinsem - 1 }
  | read {m : State α} (h : m.joiner = .reading) :
      Step m { m with joiner := .answered m.value, exitsem := m.exitsem + 1
                      leaver := m.leaver.wake }
  | leave {m : State α} (h : m.leaver = .working) (v : α) :
      Step m { m with leaver := .leaving, value := v }
  | release {m : State α} (h : m.leaver = .leaving) :
      Step m { m with leaver := .waiting, joinsem := m.joinsem + 1, joiner := m.joiner.wake }
  | exitSleep {m : State α} (h : m.leaver = .waiting) (hv : m.exitsem = 0) :
      Step m { m with leaver := .asleep }
  | exitTake {m : State α} (h : m.leaver = .waiting) (hv : m.exitsem ≠ 0) :
      Step m { m with leaver := .freeing, exitsem := m.exitsem - 1 }
  | free {m : State α} (h : m.leaver = .freeing) : Step m { m with leaver := .freed }

/-- Where the two can be at the same time. -/
def Inv (m : State α) : Prop :=
  match m.joiner, m.leaver with
  | .answered v, .waiting => m.joinsem = 0 ∧ m.exitsem = 1 ∧ v = m.value
  | .answered v, .freeing | .answered v, .freed => m.joinsem = 0 ∧ m.exitsem = 0 ∧ v = m.value
  | .reading, .waiting | .reading, .asleep => m.joinsem = 0 ∧ m.exitsem = 0
  | .answered _, _ | .reading, _ | _, .freeing | _, .freed => False
  | .asleep, .waiting | .asleep, .asleep => False
  | _, .waiting | _, .asleep => m.joinsem = 1 ∧ m.exitsem = 0
  | _, .working | _, .leaving => m.joinsem = 0 ∧ m.exitsem = 0

theorem inv_start (v : α) : Inv (start v) := ⟨rfl, rfl⟩

theorem Inv.step {m m' : State α} (hi : Inv m) (h : Step m m') : Inv m' := by
  obtain ⟨j, l, js, es, v⟩ := m
  cases h with
  | call h | arrive h | joinSleep h _ | joinTake h _ | read h =>
    simp only at h
    subst h
    cases l <;> simp_all [Inv, Leaver.wake]
  | leave h | release h | exitSleep h _ | exitTake h _ | free h =>
    simp only at h
    subst h
    cases j <;> simp_all [Inv, Joiner.wake]

/-- The leaver is freed only after the joiner has its answer. -/
theorem Inv.not_freed {m : State α} (hi : Inv m) (h : ∀ v, m.joiner ≠ .answered v) :
    m.leaver ≠ .freed := by
  obtain ⟨j, l, js, es, v⟩ := m
  intro hl
  simp only at hl h
  subst hl
  cases j with
  | answered w => exact h w rfl
  | _ => exact hi

/-- The values of the semaphores: 0 where one is signalled, never negative. -/
theorem Inv.values {m : State α} (hi : Inv m) :
    0 ≤ m.joinsem ∧ 0 ≤ m.exitsem ∧ (m.joiner = .reading → m.exitsem = 0) ∧
      (m.leaver = .leaving → m.joinsem = 0) := by
  obtain ⟨j, l, js, es, v⟩ := m
  cases j <;> cases l <;> simp_all [Inv]

end Rendezvous
