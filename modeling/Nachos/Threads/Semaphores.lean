import Mathlib.Algebra.Order.Ring.Int
import Mathlib.Data.List.Nodup
import Mathlib.Tactic.Push
import Nachos.Lib.Run
import Nachos.Threads.Synch

/-!
# A semaphore under any interleaving

One semaphore and any number of threads. `V` both wakes the first waiter and increments the value,
so another thread may take the unit before the woken one runs, which then goes back to the end of
the queue. What holds in every run in which the value does not overflow is `SemInv`:

1. the value is the initial one plus the completed `V` minus the completed `P`;
2. the threads leave the queue in the order in which they entered it;
3. while somebody waits, each unit of the value has a woken thread that has not run yet.

A `V` on the largest `int` makes the value negative.
-/

namespace Nachos

/-- A semaphore, the threads that `V` has made ready and that are not back in `P` yet, and what
happened so far. -/
structure SemSystem where
  sem : Semaphore
  woken : List ℕ
  completedP : ℕ
  completedV : ℕ
  entered : List ℕ
  left : List ℕ

inductive SemOp where
  /-- A thread calls `P`. -/
  | callP (t : ℕ)
  /-- A woken thread runs again and goes back to the test. -/
  | resume (t : ℕ)
  /-- A thread or an interrupt handler calls `V`. -/
  | callV
  deriving DecidableEq, Repr

namespace SemSystem

def start (v : ℤ) : SemSystem where
  sem := Semaphore.new v
  woken := []
  completedP := 0
  completedV := 0
  entered := []
  left := []

/-- The test in `P` by thread `t`. -/
def test (s : SemSystem) (t : ℕ) : SemSystem :=
  if (s.sem.P t).2 then { s with sem := (s.sem.P t).1, completedP := s.completedP + 1 }
  else { s with sem := (s.sem.P t).1, entered := s.entered ++ [t] }

def callV (s : SemSystem) : SemSystem where
  sem := s.sem.V
  woken := s.woken ++ s.sem.queue.head?.toList
  completedP := s.completedP
  completedV := s.completedV + 1
  entered := s.entered
  left := s.left ++ s.sem.queue.head?.toList

/-- A thread that waits or was woken is inside `P` and calls nothing. -/
def step (s : SemSystem) : SemOp → Option SemSystem
  | .callP t => if t ∈ s.sem.queue ∨ t ∈ s.woken then none else some (s.test t)
  | .resume t =>
    if t ∈ s.woken then some ({ s with woken := s.woken.erase t }.test t) else none
  | .callV => some s.callV

/-- No `V` finds the largest value of an `int`. -/
def NoOverflow (s : SemSystem) (op : SemOp) : Prop := op = .callV → s.sem.value ≠ 2 ^ 31 - 1

instance (s : SemSystem) (op : SemOp) : Decidable (s.NoOverflow op) :=
  inferInstanceAs (Decidable (_ → _))

/-- What holds of a semaphore with the initial value `v`. -/
structure SemInv (v : ℤ) (s : SemSystem) : Prop where
  counted : s.sem.value = v + s.completedV - s.completedP
  fifo : s.left ++ s.sem.queue = s.entered
  nodup : (s.sem.queue ++ s.woken).Nodup
  bounded : s.sem.queue ≠ [] → s.sem.value ≤ s.woken.length
  nonneg : 0 ≤ s.sem.value

theorem semInv_start {v : ℤ} (hv : 0 ≤ v) : SemInv v (start v) :=
  ⟨by simp [start, Semaphore.new], rfl, List.nodup_nil, fun h => absurd rfl h, hv⟩

namespace SemInv

variable {v : ℤ} {s s' : SemSystem}

/-- The test by a thread that is on no list; `n` counts it if it was woken before. -/
theorem test {t n : ℕ} (hc : s.sem.value = v + s.completedV - s.completedP)
    (hf : s.left ++ s.sem.queue = s.entered) (hn : (s.sem.queue ++ s.woken).Nodup)
    (hb : s.sem.queue ≠ [] → s.sem.value ≤ s.woken.length + n) (hn1 : n ≤ 1)
    (h0 : 0 ≤ s.sem.value) (ht : t ∉ s.sem.queue ++ s.woken) : SemInv v (s.test t) := by
  unfold SemSystem.test
  by_cases hv : s.sem.value = 0
  · rw [Semaphore.P_zero hv]
    rw [List.mem_append, not_or] at ht
    refine ⟨hc, ?_, ?_, fun _ => ?_, h0⟩
    · show s.left ++ (s.sem.queue ++ [t]) = s.entered ++ [t]
      rw [← List.append_assoc, hf]
    · show (s.sem.queue ++ [t] ++ s.woken).Nodup
      rw [List.append_assoc, List.singleton_append, List.nodup_middle, List.nodup_cons]
      exact ⟨fun h => (List.mem_append.mp h).elim ht.1 ht.2, hn⟩
    · show s.sem.value ≤ _
      rw [hv]
      exact Int.natCast_nonneg _
  · rw [Semaphore.P_pos hv, intPred_of_nonneg h0]
    refine ⟨?_, hf, hn, fun hq => ?_, ?_⟩
    · show s.sem.value - 1 = v + s.completedV - (s.completedP + 1 : ℕ)
      rw [hc]
      omega
    · have := hb hq
      show s.sem.value - 1 ≤ s.woken.length
      omega
    · show 0 ≤ s.sem.value - 1
      omega

theorem callP (hi : SemInv v s) {t : ℕ} (ht : ¬ (t ∈ s.sem.queue ∨ t ∈ s.woken)) :
    SemInv v (s.test t) := by
  refine test (n := 0) hi.counted hi.fifo hi.nodup hi.bounded (Nat.zero_le 1) hi.nonneg ?_
  rwa [List.mem_append]

theorem resume (hi : SemInv v s) {t : ℕ} (ht : t ∈ s.woken) :
    SemInv v ({ s with woken := s.woken.erase t }.test t) := by
  obtain ⟨hq, hw, hd⟩ := List.nodup_append.mp hi.nodup
  have hpos := List.length_pos_of_mem ht
  have hlen : (s.woken.erase t).length = s.woken.length - 1 := List.length_erase_of_mem ht
  refine test (n := 1) hi.counted hi.fifo ?_ (fun hne => ?_) le_rfl hi.nonneg ?_
  · exact hi.nodup.sublist (List.Sublist.append_left List.erase_sublist _)
  · have := hi.bounded hne
    show s.sem.value ≤ (s.woken.erase t).length + 1
    omega
  · rw [List.mem_append, not_or]
    exact ⟨fun h => hd t h t ht rfl, hw.not_mem_erase⟩

theorem callV (hi : SemInv v s) (hmax : s.sem.value ≠ 2 ^ 31 - 1) : SemInv v s.callV := by
  obtain ⟨⟨value, queue⟩, woken, _, _, entered, left⟩ := s
  obtain ⟨hc, hf, hn, hb, h0⟩ := hi
  have hsucc : intSucc value = value + 1 := if_neg hmax
  refine ⟨?_, ?_, ?_, ?_, ?_⟩
  · show intSucc value = _
    rw [hsucc, show value = _ from hc]
    simp only [SemSystem.callV]
    omega
  · show left ++ queue.head?.toList ++ queue.tail = entered
    rw [List.append_assoc, ← show left ++ queue = entered from hf]
    cases queue <;> rfl
  · show (queue.tail ++ (woken ++ queue.head?.toList)).Nodup
    cases queue with
    | nil => simpa using hn
    | cons u q =>
      -- the head moves from the front of the queue to the end of the woken threads
      have hperm : (q ++ (woken ++ [u])).Perm (u :: q ++ woken) := by
        rw [← List.append_assoc]
        exact List.perm_append_singleton u (q ++ woken)
      exact hperm.nodup_iff.mpr hn
  · show queue.tail ≠ [] → intSucc value ≤ (woken ++ queue.head?.toList).length
    rw [hsucc]
    cases queue with
    | nil => exact fun h => absurd rfl h
    | cons u q =>
      intro _
      have : value ≤ woken.length := hb (List.cons_ne_nil u q)
      simp
      omega
  · have : 0 ≤ value := h0
    show 0 ≤ intSucc value
    rw [hsucc]
    omega

theorem step (hi : SemInv v s) {op : SemOp} (hok : s.NoOverflow op) (h : s.step op = some s') :
    SemInv v s' := by
  cases op with
  | callP t =>
    simp only [SemSystem.step] at h
    split at h
    · cases h
    · cases h
      exact hi.callP ‹_›
  | resume t =>
    simp only [SemSystem.step] at h
    split at h
    · cases h
      exact hi.resume ‹_›
    · cases h
  | callV =>
    cases h
    exact hi.callV (hok rfl)

theorem of_admits (hv : 0 ≤ v) {ops : List SemOp}
    (ha : Run.Admits SemSystem.step NoOverflow (start v) ops)
    (h : Run.exec SemSystem.step (start v) ops = some s) : SemInv v s :=
  Run.exec_inv (fun _ _ _ hi hok hs => hi.step hok hs) ops (start v) s (semInv_start hv) ha h

end SemInv

theorem callV_negative {s : SemSystem} (h : s.sem.value = 2 ^ 31 - 1) :
    s.callV.sem.value = -2 ^ 31 := if_pos h

/-- **What a semaphore guarantees.** In an interleaving of `P` and `V` on a semaphore with an
initial value that is not negative, the value always counts the completed calls and stays at 0 or
above, the threads leave the queue in the order in which they entered it, and while one waits no
unit is without a woken thread, if and only if no `V` is called at the largest value of an `int`. -/
theorem semaphore_counts_iff {v : ℤ} (hv : 0 ≤ v) (ops : List SemOp) :
    (∀ pre s, pre <+: ops → Run.exec SemSystem.step (start v) pre = some s →
      s.sem.value = v + s.completedV - s.completedP ∧ 0 ≤ s.sem.value ∧
        s.left ++ s.sem.queue = s.entered ∧
        (s.sem.queue ≠ [] → s.sem.value ≤ s.woken.length)) ↔
      Run.Admits SemSystem.step NoOverflow (start v) ops := by
  constructor
  · intro hall
    refine Run.admits_iff.mpr ?_
    rintro pre op s hpre hs rfl hmax
    have hcall : Run.exec SemSystem.step (start v) (pre ++ [.callV]) = some s.callV :=
      Run.exec_concat.mpr ⟨s, hs, rfl⟩
    obtain ⟨-, h0, -⟩ := hall _ _ hpre hcall
    rw [callV_negative hmax] at h0
    exact absurd h0 (by decide)
  · intro ha pre s hpre hs
    have hpre' : Run.Admits SemSystem.step NoOverflow (start v) pre := by
      refine Run.admits_iff.mpr fun p op s' hp => ?_
      exact Run.admits_iff.mp ha p op s' (hp.trans hpre)
    have hi := SemInv.of_admits hv hpre' hs
    exact ⟨hi.counted, hi.nonneg, hi.fifo, hi.bounded⟩

def stolenUnit : List SemOp := [.callP 0, .callP 1, .callV, .callP 2, .resume 1]

/-- Thread 2 takes the unit that thread 1 was woken for; thread 1 goes back to the queue. -/
theorem semaphore_counts_stolen_unit :
    ∃ s, Run.exec SemSystem.step (start 1) stolenUnit = some s ∧
      s.sem.queue = [1] ∧ s.woken = [] ∧ s.sem.value = 1 + s.completedV - s.completedP ∧
      0 ≤ s.sem.value ∧ s.left ++ s.sem.queue = s.entered ∧
      (s.sem.queue ≠ [] → s.sem.value ≤ s.woken.length) := by
  refine ⟨_, rfl, rfl, rfl, ?_⟩
  refine (semaphore_counts_iff (v := 1) (by decide) stolenUnit).mpr ?_ stolenUnit _
    List.prefix_rfl rfl
  exact Run.admits_of_admitted rfl

/-- `SC_CreateSemaphore("a", 2147483647)`, then `SC_Up("a")`. -/
theorem semaphore_overflows :
    ∃ s, Run.exec SemSystem.step (start 2147483647) [.callV] = some s ∧
      s.sem.value = -2147483648 ∧ ¬ 0 ≤ s.sem.value ∧
      s.sem.value ≠ 2147483647 + s.completedV - s.completedP :=
  ⟨_, rfl, rfl, by decide, by decide⟩

end SemSystem

end Nachos
