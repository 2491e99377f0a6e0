import Mathlib.Data.List.Basic
import Nachos.Machine.Basic

/-!
# Semaphores, `synch.cc`

`P` tests the value in a loop with interrupts off: a thread that finds 0 puts itself on the queue
and sleeps, and tests again when it runs the next time. `V` takes the first sleeper off the queue,
which makes it ready, and increments the value, an `int`. A thread is asleep as long as it is on
the queue. Threads are numbered in the order of their creation; 0 is the main thread.
-/

namespace Nachos

structure Semaphore where
  value : ℤ
  queue : List ℕ
  deriving DecidableEq, Repr

namespace Semaphore

def new (initialValue : ℤ) : Semaphore where
  value := initialValue
  queue := []

/-- One round of the loop in `P` by thread `t`: the semaphore, and whether `t` got through. -/
def P (s : Semaphore) (t : ℕ) : Semaphore × Bool :=
  if s.value = 0 then ({ s with queue := s.queue ++ [t] }, false)
  else ({ s with value := intPred s.value }, true)

def V (s : Semaphore) : Semaphore where
  value := intSucc s.value
  queue := s.queue.tail

theorem P_zero {s : Semaphore} (h : s.value = 0) (t : ℕ) :
    s.P t = ({ s with queue := s.queue ++ [t] }, false) := if_pos h

theorem P_pos {s : Semaphore} (h : s.value ≠ 0) (t : ℕ) :
    s.P t = ({ s with value := intPred s.value }, true) := if_neg h

theorem V_zero {s : Semaphore} (h : s.value = 0) : s.V.value = 1 := congrArg intSucc h

end Semaphore

end Nachos
